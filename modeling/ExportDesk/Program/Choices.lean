import ExportDesk.CommandLine.Request
import ExportDesk.Command.Build
import ExportDesk.Host

/-!
# What an export works with

The command line comes first, then a chooser if the user wants one, and the settings last. Whoever
carries out an export and whoever only shows it go by the same choices.
-/

namespace ExportDesk

open Text

namespace ExportRequest

/-- The input. An empty path means that there is none. -/
def chooseInput (r : ExportRequest) : OnHost Path := do
  match r.input, r.pick with
  | some path, _ => return path
  | none, false => return ⟨[]⟩
  | none, true =>
    match ← OnHost.ask .inputFile with
    | some path =>
      if !isMediaFile path then
        OnHost.note .warn .handlers (path.display ++ " is not a known media type")
      return path
    | none =>
      OnHost.note .info .handlers "No file selected"
      return ⟨[]⟩

/-- The output folder, if it is another than the configured one. -/
def chooseOutput (r : ExportRequest) : OnHost (Option Path) := do
  match r.output, r.pickOutput with
  | some path, _ => return some path
  | none, false => return none
  | none, true =>
    match ← OnHost.ask .outputFolder with
    | some path => return some path
    | none =>
      OnHost.note .info .handlers "No folder selected, using the default output folder"
      return none

/-- The options of the export. -/
def options (r : ExportRequest) (s : ExportSettings) (input outputDirectory : Path) :
    ExportOptions :=
  { input, outputDirectory
    format := (r.format.map ExportFormat.ofName).getD s.exportFormat
    loudness := (r.loudness.map readLoudness).getD s.loudness
    margin := (r.margin.map readMargin).getD s.margin }

end ExportRequest

/-- The name of an export's log: that of its input without the extension. -/
def logName (input : Path) : String :=
  match input.fileStem with
  | some stem => decodeLossy stem
  | none => "export"

end ExportDesk
