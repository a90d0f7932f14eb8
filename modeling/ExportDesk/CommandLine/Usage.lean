import ExportDesk.CommandLine.Reading
import ExportDesk.Format
import ExportDesk.Locations

/-!
# What the program says about itself

The help for either part of the command line, laid out from what the part takes, and a line for
each way in which a command line can be wrong.
-/

namespace ExportDesk

/-- The program's version. -/
def version : String := "0.1.0"

/-- A verb's line in the help. -/
def Verb.about : Verb → String
  | exporting => "Run auto-editor on a media file"
  | preview => "Print the command an export would run, without running it"
  | formats => "List export formats"
  | config => "Show the settings file location and contents"

namespace Parameter

/-- A parameter's line in the help. -/
def about : Parameter → String
  | config => "Settings file (defaults to the per-user config dir)"
  | logLevel => "Log level [default: info]"
  | input => "Source media file"
  | format => "Export format (" ++ ", ".intercalate (ExportFormat.all.map (·.name)) ++ ")"
  | loudness => "Loudness target, e.g. -19 or -19dB"
  | margin => "Margin around cuts, e.g. 0.2 or 0.2s"
  | output => "Output folder"
  | pick => "Open a file chooser when no input is given"
  | pickOutput => "Open a folder chooser when no output folder is given"

/-- A parameter as it is written. -/
def usage (p : Parameter) : String :=
  let shown := String.ofList (p.name.toList.map fun c => if c == '-' then '_' else c.toUpper)
  if p == .input then "[" ++ shown ++ "]"
  else if p.takesText then "--" ++ p.name ++ " <" ++ shown ++ ">"
  else "--" ++ p.name

end Parameter

namespace Usage

/-- A text followed by blanks up to a width. -/
def padTo (width : Nat) (s : String) : String :=
  s ++ String.ofList (List.replicate (width - s.length) ' ')

/-- Lines of two columns under a heading. -/
def block (heading : String) (width : Nat) (rows : List (String × String)) : List String :=
  "" :: (heading ++ ":") :: rows.map fun r => "  " ++ padTo width r.1 ++ "  " ++ r.2

/-- The named parameters of a part, each with its line. -/
def named (part : Part) : List (String × String) :=
  part.parameters.map fun p => ("    " ++ p.usage, p.about)

/-- The help for the program as a whole. -/
def general : List String :=
  ["Export auto-editor timelines for video editors", "",
    "Usage: " ++ Environment.programName ++ " [OPTIONS] <COMMAND>"] ++
  block "Commands" 7 (Verb.all.map (fun v => (v.name, v.about)) ++
    [(helpVerb, "Print this message or the help of the given subcommand(s)")]) ++
  block "Options" 27
    (named .beforeVerb ++ [("-h, --help", "Print help"), ("-V, --version", "Print version")])

/-- The help for a verb. -/
def ofVerb (v : Verb) : List String :=
  let alone := Parameter.input
  [v.about, "",
    "Usage: " ++ Environment.programName ++ " " ++ v.name ++ " [OPTIONS]" ++
      (if v.takesExport then " " ++ alone.usage else "")] ++
  (if v.takesExport then block "Arguments" 7 [(alone.usage, alone.about)] else []) ++
  block "Options" 27 (named (.afterVerb v) ++ [("-h, --help", "Print help")])

end Usage

/-- What the user is told when there is nothing to do. -/
def Halt.message : Halt → String
  | .helpWanted (some v) => "\n".intercalate (Usage.ofVerb v)
  | .helpWanted none | .nothingGiven => "\n".intercalate Usage.general
  | .versionWanted => Environment.programName ++ " " ++ version
  | .verbMissing => "error: a command is missing"
  | .unknownVerb word => "error: unknown command: " ++ word
  | .unknownArgument word => "error: unexpected argument: " ++ word
  | .surplusText name => "error: no value goes with --" ++ name
  | .textMissing p => "error: a value is missing for " ++ p.usage
  | .givenTwice p => "error: given twice: " ++ p.usage
  | .textRefused p text => "error: no value for " ++ p.usage ++ ": " ++ text

/-- Was the program asked about itself, so that nothing is wrong? -/
def Halt.isInquiry : Halt → Bool
  | .helpWanted _ | .versionWanted => true
  | _ => false

end ExportDesk
