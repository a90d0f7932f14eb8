import ExportDesk.Text.Blank
import ExportDesk.Text.Fold

/-!
# Export formats

The closed set of targets the cutting tool can export to. A name is matched without regard to
blanks around it and to case; every name that is none means the rendered video.
-/

namespace ExportDesk

/-- What an export produces. -/
inductive ExportFormat where
  | premiere
  | resolveFcp7
  | finalCutPro
  | resolve
  | shotcut
  | json
  | timeline
  | audio
  | clipSequence
  | mp4
deriving DecidableEq, Repr, Inhabited

namespace ExportFormat

/-- Every format, in the order in which they are offered. -/
def all : List ExportFormat :=
  [.premiere, .resolveFcp7, .finalCutPro, .resolve, .shotcut, .json, .timeline, .audio,
   .clipSequence, .mp4]

theorem mem_all (f : ExportFormat) : f ∈ all := by cases f <;> decide

/-- The format's name on the command line and in the settings. -/
def name : ExportFormat → String
  | premiere => "premiere"
  | resolveFcp7 => "resolve-fcp7"
  | finalCutPro => "final-cut-pro"
  | resolve => "resolve"
  | shotcut => "shotcut"
  | json => "json"
  | timeline => "timeline"
  | audio => "audio"
  | clipSequence => "clip-sequence"
  | mp4 => "mp4"

/-- The extension of the file that is written, with its dot. -/
def extension : ExportFormat → String
  | premiere | resolveFcp7 | finalCutPro | resolve => ".xml"
  | shotcut => ".mlt"
  | json => ".json"
  | timeline => ".timeline"
  | audio => ".mp3"
  | clipSequence => ".clip-sequence"
  | mp4 => ".mp4"

/-- The format's name for people. -/
def label : ExportFormat → String
  | premiere => "Premiere Pro XML"
  | resolveFcp7 => "Resolve FCP7 XML"
  | finalCutPro => "Final Cut Pro XML"
  | resolve => "DaVinci Resolve XML"
  | shotcut => "Shotcut MLT"
  | json => "Auto-Editor JSON"
  | timeline => "Timeline"
  | audio => "Audio Only"
  | clipSequence => "Clip Sequence"
  | mp4 => "MP4 Video"

/-- The format of a name. -/
def ofName (name : String) : ExportFormat :=
  let wanted := Text.trim name
  (all.find? fun f => Text.sameFolded f.name wanted).getD .mp4

end ExportFormat

end ExportDesk
