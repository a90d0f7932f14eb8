import ExportDesk.Files.Disk
import ExportDesk.Locations
import ExportDesk.Log.Level

/-!
# The host

What the program acts on: the file system, the environment, the clock, the programs it can start,
the user who answers its questions, and a record of everything it did, in order. Functions on the
host are pure: what they did is in the host that they return.
-/

namespace ExportDesk

open Text

/-- The two channels of text that a program writes. -/
inductive OutputStream where
  | stdout
  | stderr
deriving DecidableEq, Repr, Inhabited

namespace OutputStream

def all : List OutputStream := [.stdout, .stderr]

def name : OutputStream → String
  | stdout => "stdout"
  | stderr => "stderr"

def ofName? (name : String) : Option OutputStream := all.find? fun s => s.name == name

end OutputStream

/-- The parts of the program that note events. -/
inductive Source where
  | builder
  | bridge
  | session
  | settings
  | locations
  | capability
  | handlers
  | main
deriving DecidableEq, Repr, Inhabited

/-- The name a part goes by in the application's log. -/
def Source.target : Source → String
  | builder => "aeg_core::command::builder"
  | bridge => "aeg_core::exec::bridge"
  | session => "aeg_core::session"
  | settings => "aeg_core::config::manager"
  | locations => "aeg_core::paths"
  | capability => "aeg_core::capability"
  | handlers => "auto_editor_gui::handlers"
  | main => "auto_editor_gui"

/-- Something worth noting for whoever looks after the program. -/
structure Event where
  level : LogLevel
  source : Source
  message : String
deriving DecidableEq, Repr, Inhabited

/-- What the user can be asked to choose. -/
inductive Question where
  | inputFile
  | outputFolder
deriving DecidableEq, Repr, Inhabited

/-- One entry of the record. -/
inductive Entry where
  /-- text that was printed, with its line ends -/
  | printed (stream : OutputStream) (text : String)
  | noted (event : Event)
  /-- a program that was started -/
  | started (program : String) (arguments : List String)
  /-- a chooser that was opened -/
  | asked (question : Question)
  /-- the program's log was opened, for events from a level on, or for none -/
  | logOpened (level : Option LogLevel)
deriving DecidableEq, Repr, Inhabited

/-- What waiting for the end of a program told. -/
inductive ChildEnd where
  /-- it ended with an exit code, or by a signal if there is none -/
  | ended (code : Option Int)
  /-- the wait failed, and nothing is known of the end -/
  | lost (cause : IoError)
deriving DecidableEq, Repr, Inhabited

/-- What a program did from its start to its end, as far as the system lets it be followed. -/
structure ChildRun where
  /-- what it wrote, piece by piece in the order of arrival -/
  writes : List (OutputStream × Bytes) := []
  /-- are both of its streams there to be read? -/
  captured : Bool := true
  ending : ChildEnd
deriving DecidableEq, Repr, Inhabited

/-- How the system starts a program with its arguments: the program may change files, and the
start may fail. -/
abbrev Launcher :=
  Environment → String → List String → StateM FileSystem (Except IoError ChildRun)

/-- The time as the different logs write it. -/
structure Clock where
  timeOfDay : String
  date : String
  timestamp : String
deriving DecidableEq, Repr, Inhabited

structure Host where
  files : FileSystem
  environment : Environment
  launcher : Launcher
  clock : Clock
  /-- what the user chooses when asked; `none` cancels the chooser -/
  choices : Question → Option Path := fun _ => none
  record : Array Entry := #[]

/-- Work on the host. -/
abbrev OnHost (α : Type) := StateM Host α

namespace Host

/-- The events noted, in order. -/
def events (h : Host) : List Event :=
  h.record.toList.filterMap fun
    | .noted e => some e
    | _ => none

/-- The text printed to one of the streams. -/
def printed (h : Host) (s : OutputStream) : String :=
  String.join <| h.record.toList.filterMap fun
    | .printed t text => if t = s then some text else none
    | _ => none

/-- The programs started, each with its arguments, in order. -/
def starts (h : Host) : List (String × List String) :=
  h.record.toList.filterMap fun
    | .started program arguments => some (program, arguments)
    | _ => none

/-- The questions put to the user, in order. -/
def questions (h : Host) : List Question :=
  h.record.toList.filterMap fun
    | .asked q => some q
    | _ => none

end Host

namespace OnHost

/-- Adds an entry to the record. -/
def enter (e : Entry) : OnHost Unit := modify fun h => { h with record := h.record.push e }

/-- Notes an event. -/
def note (level : LogLevel) (source : Source) (message : String) : OnHost Unit :=
  enter (.noted { level, source, message })

/-- Asks the user to choose; `none` if the chooser was cancelled. -/
def ask (q : Question) : OnHost (Option Path) := do
  enter (.asked q)
  return (← get).choices q

/-- Prints text. -/
def print (s : OutputStream) (text : String) : OnHost Unit := enter (.printed s text)

/-- Prints a line. -/
def printLine (s : OutputStream) (text : String) : OnHost Unit := print s (text ++ "\n")

/-- Works on the file system. -/
def disk {α : Type} (d : Disk α) : OnHost (Except IoError α) := fun h =>
  let (r, files) := d.run.run h.files
  (r, { h with files })

/-- Starts a program and waits for its end. -/
def launch (program : String) (arguments : List String) : OnHost (Except IoError ChildRun) := do
  let host ← get
  let (r, files) := (host.launcher host.environment program arguments).run host.files
  set { host with files }
  if r.isOk then enter (.started program arguments)
  return r

end OnHost

end ExportDesk
