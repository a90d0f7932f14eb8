import ExportDesk.Command.Display
import ExportDesk.Command.OutputPath
import ExportDesk.Json.Writer
import ExportDesk.Number.Layout
import ExportDesk.Options
import ExportDesk.Settings.Basic

/-!
# Building the command of an export

Building never fails: options that make no sense have been replaced by then, and a missing input
is caught before. The program comes first, then its leading arguments, the input, and the options.
-/

namespace ExportDesk

open Text

/-- One run of the cutting tool: what to start, and where its result will lie. -/
structure Invocation where
  program : String
  arguments : List String
  format : ExportFormat
  outputPath : Path
  outputDirectory : Path
deriving DecidableEq, Repr, Inhabited

namespace Invocation

/-- The whole argument list, program first. -/
def argv (i : Invocation) : List String := i.program :: i.arguments

def preview (i : Invocation) : String := Command.preview i.argv

def pretty (i : Invocation) : String := Command.pretty i.argv

/-- The invocation as JSON, if its paths are text. -/
def toJson? (i : Invocation) : Option Json := do
  let path ← decode? i.outputPath.bytes
  let folder ← decode? i.outputDirectory.bytes
  return .record
    [("tokens", .list (i.argv.map .text)), ("format", .text i.format.name),
     ("output_path", .text path), ("output_directory", .text folder)]

end Invocation

/-- What follows the program's leading arguments on the command line. -/
def exportArguments (o : ExportOptions) : List String :=
  [o.input.display, "--export", o.format.name,
   "--edit", "audio:" ++ NumberLayout.plain.write o.effectiveLoudness ++ "dB",
   "--margin", NumberLayout.plain.write o.effectiveMargin ++ "s",
   "--output", (outputPath o.input o.outputDirectory o.format.extension).display]

/-- The command of an export. -/
def buildInvocation (o : ExportOptions) (t : ToolSettings) : Invocation :=
  { program := t.effectiveProgram
    arguments := t.leadingArgs ++ exportArguments o
    format := o.format
    outputPath := outputPath o.input o.outputDirectory o.format.extension
    outputDirectory := o.outputDirectory }

/-- Does the invocation start the configured tool, with its leading arguments first? -/
def ToolSettings.allows (t : ToolSettings) (i : Invocation) : Bool :=
  i.program == t.effectiveProgram && t.leadingArgs.isPrefixOf i.arguments

theorem ToolSettings.allows_buildInvocation (t : ToolSettings) (o : ExportOptions) :
    t.allows (buildInvocation o t) = true := by
  simp [allows, buildInvocation]

end ExportDesk
