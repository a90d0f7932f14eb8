import ExportDesk.Files.Path
import ExportDesk.Log.Level

/-!
# What the program can be told

The command line names one thing to do, and for exports and previews what is to replace the
settings. A parameter is given once at most, and its text must make sense for it.
-/

namespace ExportDesk

/-- What the command line says about one export. What it leaves open comes from the settings, or
from a chooser. -/
structure ExportRequest where
  input : Option Path := none
  format : Option String := none
  loudness : Option String := none
  margin : Option String := none
  output : Option Path := none
  /-- ask for the input if none is given -/
  pick : Bool := false
  /-- ask for the output folder if none is given -/
  pickOutput : Bool := false
deriving DecidableEq, Repr, Inhabited

/-- The things to do. -/
inductive Verb where
  | exporting
  | preview
  | formats
  | config
deriving DecidableEq, Repr, Inhabited

namespace Verb

def all : List Verb := [.exporting, .preview, .formats, .config]

/-- The verb on the command line. -/
def name : Verb → String
  | exporting => "export"
  | preview => "preview"
  | formats => "formats"
  | config => "config"

def ofName? (name : String) : Option Verb := all.find? fun v => v.name == name

/-- Is the verb about one export? -/
def takesExport : Verb → Bool
  | exporting | preview => true
  | formats | config => false

end Verb

/-- One thing to do, with all that was said about it. -/
structure Request where
  verb : Verb
  /-- the settings file, if not the usual one -/
  config : Option Path := none
  /-- the level of the program's own log -/
  logLevel : LogLevel := .info
  exporting : ExportRequest := {}
deriving DecidableEq, Repr, Inhabited

/-- What can be given on the command line. -/
inductive Parameter where
  | config
  | logLevel
  | input
  | format
  | loudness
  | margin
  | output
  | pick
  | pickOutput
deriving DecidableEq, Repr, Inhabited

namespace Parameter

/-- The parameters that every verb takes. -/
def general : List Parameter := [.config, .logLevel]

/-- The named parameters of an export. -/
def ofExport : List Parameter := [.format, .loudness, .margin, .output, .pick, .pickOutput]

/-- The name behind the two dashes. The input has none: it stands alone. -/
def name : Parameter → String
  | config => "config"
  | logLevel => "log-level"
  | input => "input"
  | format => "format"
  | loudness => "loudness"
  | margin => "margin"
  | output => "output"
  | pick => "pick"
  | pickOutput => "pick-output"

/-- Does a text belong to the parameter, or is its name alone enough? -/
def takesText : Parameter → Bool
  | pick | pickOutput => false
  | _ => true

/-- May the text start with a minus, as a number below zero does? -/
def takesDash : Parameter → Bool
  | loudness | margin => true
  | _ => false

end Parameter

/-- Why there is nothing to do. -/
inductive Halt where
  /-- for the program as a whole, or for a verb -/
  | helpWanted (verb : Option Verb)
  | versionWanted
  /-- the command line is empty -/
  | nothingGiven
  | verbMissing
  | unknownVerb (word : String)
  | unknownArgument (word : String)
  /-- a text for a name that stands alone -/
  | surplusText (name : String)
  | textMissing (p : Parameter)
  | givenTwice (p : Parameter)
  | textRefused (p : Parameter) (text : String)
deriving DecidableEq, Repr

/-- What one part of the command line gave. -/
structure Given where
  config : Option Path := none
  logLevel : Option LogLevel := none
  exporting : ExportRequest := {}
deriving DecidableEq, Repr, Inhabited

namespace Given

/-- Has nothing been given? -/
def isEmpty (g : Given) : Bool := g == {}

/-- Has the parameter been given? -/
def has (g : Given) : Parameter → Bool
  | .config => g.config.isSome
  | .logLevel => g.logLevel.isSome
  | .input => g.exporting.input.isSome
  | .format => g.exporting.format.isSome
  | .loudness => g.exporting.loudness.isSome
  | .margin => g.exporting.margin.isSome
  | .output => g.exporting.output.isSome
  | .pick => g.exporting.pick
  | .pickOutput => g.exporting.pickOutput

/-- A path as it was typed; an empty one is none. -/
def path (p : Parameter) (text : String) : Except Halt Path :=
  if text.isEmpty then .error (.textMissing p) else .ok (.ofText text)

/-- What is given together with one more parameter. -/
def give (g : Given) (p : Parameter) (text : String) : Except Halt Given :=
  if g.has p then .error (.givenTwice p)
  else
    match p with
    | .config => do return { g with config := some (← path p text) }
    | .logLevel =>
      match LogLevel.ofName? text with
      | some l => .ok { g with logLevel := some l }
      | none => .error (.textRefused p text)
    | .input => do return { g with exporting.input := some (← path p text) }
    | .format => .ok { g with exporting.format := some text }
    | .loudness => .ok { g with exporting.loudness := some text }
    | .margin => .ok { g with exporting.margin := some text }
    | .output => do return { g with exporting.output := some (← path p text) }
    | .pick => .ok { g with exporting.pick := true }
    | .pickOutput => .ok { g with exporting.pickOutput := true }

/-- The request for a verb, from what was given before it and after it. The later one counts. -/
def request (before after : Given) (v : Verb) : Request :=
  { verb := v
    config := after.config <|> before.config
    logLevel := (after.logLevel <|> before.logLevel).getD .info
    exporting := after.exporting }

end Given

end ExportDesk
