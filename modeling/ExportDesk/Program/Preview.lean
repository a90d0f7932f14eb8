import ExportDesk.Program.Export

/-!
# Showing an export

A preview shows the command that the export would run, made by the same choices, and leaves the
files alone: the configured folder is named but not made.
-/

namespace ExportDesk

/-- What a preview showed: the command, or why there is none. -/
abbrev PreviewReport := Except Refusal Invocation

/-- Shows a command in both forms and where its result will lie. -/
def printInvocation (i : Invocation) : OnHost Unit := do
  OnHost.printLine .stdout i.preview
  OnHost.printLine .stdout ""
  OnHost.print .stdout i.pretty
  OnHost.printLine .stdout ("Output file: " ++ i.outputPath.display)

namespace ExportRequest

/-- The folder that an export would use. -/
def previewFolder (env : Environment) (s : PathSettings) (picked : Option Path) : Path :=
  picked.getD (env.outputFolderFor s.outputFolder)

/-- Shows the export. -/
def preview (r : ExportRequest) (s : Settings) : OnHost PreviewReport := do
  let input ← r.chooseInput
  let picked ← r.chooseOutput
  let folder := previewFolder (← get).environment s.paths picked
  let o := r.options s.exporting input folder
  match o.refusal? with
  | some refusal =>
    printAlert ⟨.error, refusal.message⟩
    return .error refusal
  | none =>
    let i ← announceInvocation o s.tool
    printInvocation i
    return .ok i

end ExportRequest

end ExportDesk
