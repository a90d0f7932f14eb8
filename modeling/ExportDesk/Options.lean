import ExportDesk.Format
import ExportDesk.Files.Path
import ExportDesk.Number.Field

/-!
# Export options

Everything one export needs to know. Numbers that make no sense are replaced when the command is
built; only a missing input refuses the export.
-/

namespace ExportDesk

structure ExportOptions where
  input : Path
  outputDirectory : Path
  format : ExportFormat := .mp4
  loudness : Binary64 := defaultLoudness
  margin : Binary64 := defaultMargin
deriving DecidableEq, Repr, Inhabited

/-- Why an export is refused before it starts. -/
inductive Refusal where
  | noInputFile
  | exportInFlight
deriving DecidableEq, Repr

def Refusal.message : Refusal → String
  | .noInputFile => "No input file selected"
  | .exportInFlight => "An export is already running"

namespace ExportOptions

/-- What keeps the options from being carried out. -/
def refusal? (o : ExportOptions) : Option Refusal :=
  if o.input.isEmpty then some .noInputFile else none

/-- The loudness that goes on the command line. -/
def effectiveLoudness (o : ExportOptions) : Binary64 :=
  if o.loudness.isFinite then o.loudness else defaultLoudness

/-- The margin that goes on the command line. -/
def effectiveMargin (o : ExportOptions) : Binary64 :=
  if o.margin.isFinite && o.margin.isPositive then o.margin else defaultMargin

theorem effectiveLoudness_isFinite (o : ExportOptions) : o.effectiveLoudness.isFinite = true := by
  unfold effectiveLoudness
  split
  · assumption
  · decide

theorem effectiveMargin_isFinite (o : ExportOptions) : o.effectiveMargin.isFinite = true := by
  unfold effectiveMargin
  split
  · rename_i h; simp at h; exact h.1
  · decide

end ExportOptions

end ExportDesk
