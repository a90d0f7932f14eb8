import ExportDesk.Command.Display
import ExportDesk.Host
import ExportDesk.Json.Writer
import ExportDesk.Log.Config
import ExportDesk.Log.FileName
import ExportDesk.Log.Mark
import ExportDesk.Tool.Outcome
import ExportDesk.Tool.Tail

/-!
# The log of one export

A log is driven by calls. Each call drafts messages; the configuration decides by their origin
which of them are taken. The messages taken go to whoever listens, and to the file as long as the
log is open: they are kept back there until the log is flushed or closed. The last lines of the
tool's output are remembered whatever the configuration takes.
-/

namespace ExportDesk

open Text

/-- What a log can be asked to do. -/
inductive LogCall where
  | message (level : LogLevel) (mark : Mark) (text : String)
  | alert (a : Alert)
  /-- one line of the tool's output -/
  | output (line : OutputLine)
  /-- the remembered output under a heading -/
  | showTail (header : String)
  | clearTail
  /-- an argument list with one option per line -/
  | optionsPretty (tokens : List String)
  /-- an argument list as JSON -/
  | optionsJson (tokens : List String)
  | flush
  | close
deriving DecidableEq, Repr

namespace LogCall

def info (text : String) : LogCall := .message .info .plain text
def debug (text : String) : LogCall := .message .debug .plain text
def warn (text : String) : LogCall := .message .warn .warning text
def error (text : String) : LogCall := .message .error .error text
def command (text : String) : LogCall := .message .info .command text
def phase (text : String) : LogCall := .message .info .phase text
def success (text : String) : LogCall := .message .info .success text

end LogCall

/-- Where a message comes from. -/
inductive Origin where
  | levelled (level : LogLevel)
  | toolOutput
  | shownTail
deriving DecidableEq, Repr

/-- A message that a call asks for. -/
structure Draft where
  origin : Origin
  text : String
deriving DecidableEq, Repr

/-- Is a message of this origin taken? A tail that is shown always is. -/
def LogConfig.takes (c : LogConfig) : Origin → Bool
  | .levelled level => c.level ≤ level
  | .toolOutput => !c.compact
  | .shownTail => true

/-- A line of the tool's output as a log shows it. -/
def OutputLine.marked (line : OutputLine) : String :=
  match line.stream with
  | .stdout => line.text
  | .stderr => "[stderr] " ++ line.text

namespace LogCall

/-- The level and mark that fit an alert. -/
def ofAlert (a : Alert) : LogCall :=
  match a.kind with
  | .inProgress => info a.message
  | .success => success a.message
  | .error => error a.message

/-- The messages that a call asks for, given the output remembered before it. -/
def drafts (tail : Tail) : LogCall → List Draft
  | .message level mark text => [⟨.levelled level, mark.format text⟩]
  | .alert a =>
    match ofAlert a with
    | .message level mark text => [⟨.levelled level, mark.format text⟩]
    | _ => []
  | .output line => [⟨.toolOutput, line.marked⟩]
  | .showTail header =>
    if tail.isBlank then []
    else (("[" ++ header ++ "/tail]") :: tail.lines).map (⟨.shownTail, ·⟩)
  | .optionsPretty tokens =>
    ["--- auto-editor options (pretty) ---",
     trimEnd (Command.pretty tokens),
     "------------------------------------"].map (⟨.levelled .info, ·⟩)
  | .optionsJson tokens =>
    ["--- auto-editor options (json) ---",
     Json.prettyTexts tokens,
     "----------------------------------"].map (⟨.levelled .info, ·⟩)
  | .clearTail | .flush | .close => []

/-- The output remembered after a call. -/
def tailAfter (tail : Tail) : LogCall → Tail
  | .output line => tail.push line.text
  | .clearTail => tail.clear
  | _ => tail

end LogCall

structure ExportLog where
  name : String
  path : Path
  config : LogConfig
  tail : Tail
  isOpen : Bool := true
  /-- what was taken and is not in the file yet -/
  kept : Bytes := []
deriving DecidableEq, Repr, Inhabited

namespace ExportLog

/-- Makes the log's file in a folder, which is made too if it is missing. -/
def create (name : String) (folder : Path) (config : LogConfig) :
    OnHost (Except IoError ExportLog) := do
  let path := folder.join (.ofText (LogFile.fileName name))
  let made ← OnHost.disk do
    Disk.makeDirectoryAll folder
    Disk.step (·.create path)
  return made.map fun _ => { name, path, config, tail := Tail.ofCapacity config.errorTail }

/-- The messages that a call emits, as lines of the log. -/
def messages (log : ExportLog) (timeOfDay : String) (call : LogCall) : List String :=
  ((call.drafts log.tail).filter (log.config.takes ·.origin)).map fun d =>
    log.config.line timeOfDay d.text

/-- Keeps lines for the file, unless the log has been closed. -/
def keep (log : ExportLog) (lines : List String) : ExportLog :=
  if log.isOpen then { log with kept := log.kept ++ lines.flatMap fun l => encode (l ++ "\n") }
  else log

/-- Writes to the file what is kept for it; what cannot be written stays kept. -/
def flush (log : ExportLog) : OnHost ExportLog := do
  if log.kept.isEmpty then return log
  match ← OnHost.disk (Disk.step (·.append log.path log.kept)) with
  | .ok () => return { log with kept := [] }
  | .error _ => return log

/-- Writes to the file what is kept for it and leaves the file alone from then on. -/
def close (log : ExportLog) : OnHost ExportLog := do
  let log ← log.flush
  return { log with isOpen := false, kept := [] }

/-- Carries out a call. Gives the messages it emits. -/
def perform (log : ExportLog) (call : LogCall) : OnHost (List String × ExportLog) := do
  let lines := log.messages (← get).clock.timeOfDay call
  let log := { log.keep lines with tail := call.tailAfter log.tail }
  match call with
  | .flush => return (lines, ← log.flush)
  | .close => return (lines, ← log.close)
  | _ => return (lines, log)

/-- Carries out calls one after the other. Gives the messages they emit. -/
def performAll (log : ExportLog) : List LogCall → OnHost (List String × ExportLog)
  | [] => return ([], log)
  | call :: calls => do
    let (lines, log) ← log.perform call
    let (more, log) ← log.performAll calls
    return (lines ++ more, log)

end ExportLog

end ExportDesk
