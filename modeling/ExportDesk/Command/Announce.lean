import ExportDesk.Command.Build
import ExportDesk.Host

/-!
# Building a command on the host
-/

namespace ExportDesk

/-- Builds the command of an export and notes that it did. -/
def announceInvocation (o : ExportOptions) (t : ToolSettings) : OnHost Invocation := do
  let i := buildInvocation o t
  OnHost.note .debug .builder
    ("auto-editor command for " ++ o.input.display ++ ": " ++ toString i.argv.length ++
      " tokens, output " ++ i.outputPath.display)
  return i

end ExportDesk
