import ExportDesk.Host

/-!
# The program's own log

The events noted while the program works, one line each, for whoever looks after it. The lines go
to standard output between what the program prints, and into a file per day in the logs folder.
Events noted before the log was opened are in neither. Both are read off the record, so the log
never decides what the program does.
-/

namespace ExportDesk

open Text

namespace ProgramLog

/-! ## Lines -/

/-- Does the character steer a terminal? -/
def isSteering (c : Char) : Bool :=
  let n := c.toNat
  n == 0x07 || n == 0x08 || n == 0x0C || n == 0x1B || (0x7F ≤ n && n ≤ 0x9F)

/-- A hexadecimal digit. -/
def hexDigit (n : Nat) : Char := (Nat.toDigits 16 (n % 16)).headD '0'

/-- A character as the log shows it: one that steers a terminal is spelled out. -/
def safeChar (c : Char) : List Char :=
  let digits := [hexDigit (c.toNat / 16), hexDigit c.toNat]
  if !isSteering c then [c]
  else if c.toNat < 0x80 then '\\' :: 'x' :: digits
  else '\\' :: 'u' :: Char.ofNat 0x7B :: (digits ++ [Char.ofNat 0x7D])

/-- A message as the log shows it. -/
def safe (message : String) : String := String.ofList (message.toList.flatMap safeChar)

/-- An event without the time and its source. -/
def shortLine (e : Event) : String := e.level.tag ++ " " ++ safe e.message ++ "\n"

/-- The line of an event. -/
def line (timestamp : String) (e : Event) : String :=
  timestamp ++ " " ++ e.level.tag ++ " " ++ e.source.target ++ ": " ++ safe e.message ++ "\n"

/-! ## What is taken from the record -/

/-- Does a log of this level take the event? -/
def takes (level : Option LogLevel) (e : Event) : Bool :=
  match level with
  | some l => l ≤ e.level
  | none => false

/-- The text on the two streams: what was printed, and the lines of the log between it. -/
def onTerminal (timestamp : String) (level : Option LogLevel) :
    List Entry → List (OutputStream × String)
  | [] => []
  | .printed s text :: rest => (s, text) :: onTerminal timestamp level rest
  | .noted e :: rest =>
    if takes level e then (.stdout, line timestamp e) :: onTerminal timestamp level rest
    else onTerminal timestamp level rest
  | .logOpened level :: rest => onTerminal timestamp level rest
  | .started _ _ :: rest => onTerminal timestamp level rest
  | .asked _ :: rest => onTerminal timestamp level rest

/-- The events taken. -/
def taken (level : Option LogLevel) : List Entry → List Event
  | [] => []
  | .noted e :: rest => if takes level e then e :: taken level rest else taken level rest
  | .logOpened level :: rest => taken level rest
  | _ :: rest => taken level rest

/-- What has been written to one of the streams so far. -/
def terminalText (h : Host) (s : OutputStream) : String :=
  String.join <| (onTerminal h.clock.timestamp none h.record.toList).filterMap fun (t, text) =>
    if t = s then some text else none

/-! ## The file -/

/-- The name of a day's file. -/
def fileName (date : String) : String := Environment.programName ++ "." ++ date ++ ".log"

/-- Why the file cannot be used. -/
inductive OpenError where
  | folder (cause : IoError)
  | file (cause : IoError)
deriving DecidableEq, Repr

def OpenError.message : OpenError → String
  | .folder cause => "failed to create log directory: " ++ cause.message
  | .file cause => "failed to create initial log file: " ++ cause.message

/-- Opens a file for the log. -/
def openPath (path : Path) : OnHost (Except OpenError Unit) := do
  return (← OnHost.disk (Disk.step (·.openAtEnd path))).mapError .file

/-- Opens the day's file in a folder. The folder is made only if the file cannot be opened
without. -/
def openFile (folder : Path) : OnHost (Except OpenError Path) := do
  let path := folder.join (.ofText (fileName (← get).clock.date))
  match ← openPath path, path.parent with
  | .ok (), _ => return .ok path
  | .error e, none => return .error e
  | .error _, some folder =>
    match ← OnHost.disk (Disk.makeDirectoryAll folder) with
    | .error e => return .error (.folder e)
    | .ok () => return (← openPath path).map fun () => path

/-- Writes the events taken so far to the file, if it is still there. -/
def writeFile (path : Path) : OnHost Unit := do
  let host ← get
  let lines := (taken none host.record.toList).map (line host.clock.timestamp)
  let _ ← OnHost.disk (Disk.step (·.append path (lines.flatMap encode)))

end ProgramLog

end ExportDesk
