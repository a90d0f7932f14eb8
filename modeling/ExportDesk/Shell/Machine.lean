import ExportDesk.Host
import ExportDesk.Shell.Format

/-!
# The state of a running script

Variables, arguments and streams, and the file system that commands work on. A stream leads to one
of the two streams of the whole run, to a file, or to a collector that keeps what a command writes
for use as text or as another command's input.
-/

namespace ExportDesk.Shell

open Text

/-- The file that takes everything and holds nothing. -/
def nullDevice : String := "/dev/null"

/-- Where a stream leads. -/
inductive Target where
  | stream (s : OutputStream)
  | file (p : Path)
  | collector (n : Nat)
  | nowhere
deriving DecidableEq, Repr

structure Machine where
  files : FileSystem
  bindings : List (String × String) := []
  /-- the name in front of complaints -/
  name : String
  arguments : List String := []
  status : Nat := 0
  line : Nat := 1
  targets : List (Nat × Target) := [(1, .stream .stdout), (2, .stream .stderr)]
  /-- what is left to read -/
  input : Bytes := []
  writes : Array (OutputStream × Bytes) := #[]
  collected : Array Bytes := #[]
  /-- end at the first failure -/
  strict : Bool := false
  /-- the command's success is being tested -/
  tested : Bool := false

/-- Why a script does not go on. -/
inductive Stop where
  | exit (status : Nat)
  /-- a signal ended the process -/
  | killed
  | leave (loops : Nat)
  | again (loops : Nat)
  /-- the allowance of steps is used up -/
  | exhausted
deriving DecidableEq, Repr

/-- Steps of a script. -/
abbrev Action (α : Type) := ExceptT Stop (StateM Machine) α

namespace Action

/-- Sets the status of the last command. -/
def setStatus (n : Nat) : Action Unit := modify fun m => { m with status := n }

/-- The value of a variable. -/
def heldBy (name : String) : Action (Option String) := return (← get).bindings.lookup name

/-- Sets a variable. -/
def setVariable (name value : String) : Action Unit :=
  modify fun m => { m with bindings := (name, value) :: m.bindings.filter (·.1 != name) }

/-- Writes bytes to a target. -/
def writeTo (t : Target) (bs : Bytes) : Action Unit :=
  modify fun m =>
    match t with
    | .stream s => if bs.isEmpty then m else { m with writes := m.writes.push (s, bs) }
    | .file p => { m with files := (m.files.append p bs).toOption.getD m.files }
    | .collector n => { m with collected := m.collected.modify n (· ++ bs) }
    | .nowhere => m

/-- Writes bytes to a stream. -/
def write (fd : Nat) (bs : Bytes) : Action Unit := do
  match (← get).targets.lookup fd with
  | some t => writeTo t bs
  | none => return ()

/-- Writes text to a stream. -/
def print (fd : Nat) (s : String) : Action Unit := write fd (encode s)

/-- Writes a line about something wrong in the script. -/
def complain (message : String) : Action Unit := do
  let m ← get
  print 2 (m.name ++ ": " ++ toString m.line ++ ": " ++ message ++ "\n")

/-- Changes the file system if that can be done. -/
def change (f : FileSystem → Except IoError FileSystem) : Action (Except IoError Unit) := do
  match f (← get).files with
  | .ok files =>
    modify fun m => { m with files }
    return .ok ()
  | .error e => return .error e

/-- Works on the file system. -/
def disk {α : Type} (d : Disk α) : Action (Except IoError α) :=
  modifyGet fun m =>
    let (r, files) := d.run m.files
    (r, { m with files })

/-- Collects what an action writes to its standard output. -/
def collecting (a : Action Unit) : Action Bytes := do
  let before ← get
  let n := before.collected.size
  set { before with
    collected := before.collected.push []
    targets := (1, .collector n) :: before.targets.filter (·.1 != 1) }
  a
  let after ← get
  set { after with targets := before.targets, collected := after.collected.pop }
  return after.collected.back?.getD []

/-- Runs an action as a process of its own: what it does to files and streams stays, all else is
as before. -/
def apart (a : Action Unit) : Action Unit := fun m =>
  let restored (after : Machine) (status : Nat) : Machine :=
    { m with
      files := { after.files with current := m.files.current }
      input := after.input, writes := after.writes, collected := after.collected, status }
  match (a.run m : Except Stop Unit × Machine) with
  | (.ok (), after) => (.ok (), restored after after.status)
  | (.error (.exit n), after) => (.ok (), restored after n)
  | (.error (.leave _), after) => (.ok (), restored after after.status)
  | (.error (.again _), after) => (.ok (), restored after after.status)
  | (.error e, after) => (.error e, after)

end Action

/-- The system's text for a failure, as commands show it. -/
def reasonText : IoError → String
  | .system n => IoError.systemText n
  | .described _ text => text

end ExportDesk.Shell
