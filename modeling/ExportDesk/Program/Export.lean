import ExportDesk.Command.Announce
import ExportDesk.OutputFolder
import ExportDesk.Program.Choices
import ExportDesk.Session
import ExportDesk.Settings.Store
import ExportDesk.Tool.Run

/-!
# Carrying out an export

An export goes through phases. It is refused if it has no input; it is given up if the folder for
its result cannot be made; otherwise the tool is run once, and whatever comes of that, the user is
told and the input is remembered. A log that cannot be made and settings that cannot be written
change nothing about the export itself.
-/

namespace ExportDesk

/-- How an export went. -/
structure ExportReport where
  /-- the tool ran and ended with exit code zero -/
  succeeded : Bool
  session : Session
  store : SettingsStore
  /-- the command, if it came to that -/
  invocation : Option Invocation := none
  /-- how the run of the tool ended, if it came to that -/
  outcome : Option Outcome := none
deriving DecidableEq, Repr

/-- Prints an alert: errors on their own channel. -/
def printAlert (a : Alert) : OnHost Unit :=
  OnHost.printLine (if a.isError then .stderr else .stdout) a.display

/-- Prints a line of the tool on the channel that it came from. -/
def echoLine (_ : Unit) (line : OutputLine) : OnHost Unit :=
  OnHost.printLine line.stream line.text

/-- Shows the command of an export and gives it. -/
def showInvocation (o : ExportOptions) (t : ToolSettings) : OnHost Invocation := do
  let i ← announceInvocation o t
  OnHost.printLine .stdout "Generated command:"
  OnHost.printLine .stdout i.preview
  return i

/-- What a log starts with if the settings ask for it. -/
def openingCalls (s : LoggingSettings) (i : Invocation) : List LogCall :=
  (if s.showOptionsPretty then [.optionsPretty i.argv] else []) ++
  (if s.showOptionsJson then [.optionsJson i.argv] else [])

/-- Makes the log of an export and starts it. Without a log the export goes on. -/
def startLog (store : SettingsStore) (input : Path) (i : Invocation) :
    OnHost (Option ExportLog) := do
  let logging := store.settings.logging
  match ← ExportLog.create (logName input) store.logsFolder (.ofSettings logging) with
  | .ok log =>
    let (_, log) ← log.performAll (openingCalls logging i)
    OnHost.note .debug .handlers ("Export log for " ++ log.name ++ ": " ++ log.path.display)
    return some log
  | .error e =>
    OnHost.note .warn .handlers ("Export log unavailable: " ++ e.message)
    return none

/-- Runs the tool once and shows its lines. -/
def runTool (s : Settings) (i : Invocation) (log : Option ExportLog) :
    OnHost (Outcome × Option ExportLog) := do
  let runner := ToolRunner.ofSettings s
  match log with
  | some log =>
    let (outcome, logged) ← runner.runLogged i log echoLine ()
    return (outcome, some logged.log)
  | none =>
    let (outcome, ()) ← runner.run i echoLine ()
    return (outcome, none)

/-- Ends a log with the alert that the user sees. -/
def endLog (log : Option ExportLog) (a : Alert) : OnHost Unit := do
  match log with
  | some log => let _ ← log.performAll [.alert a, .close]
  | none => return ()

/-- The store with the input as the last one. -/
def SettingsStore.withLastInput (store : SettingsStore) (input : Path) : SettingsStore :=
  { store with settings.paths.lastInputPath := input.display }

/-- Remembers the input, in memory and in the file. -/
def rememberInput (store : SettingsStore) (input : Path) : OnHost SettingsStore := do
  let store := store.withLastInput input
  match ← store.updateSection .paths with
  | .ok () => return store
  | .error e =>
    OnHost.note .warn .handlers ("Could not save last input path: " ++ e.message)
    return store

namespace ExportRequest

/-- The folder for the result: the one chosen, or else the configured one, which is made. -/
def outputFolder (s : PathSettings) (picked : Option Path) :
    OnHost (Except OutputFolderError Path) :=
  match picked with
  | some folder => return .ok folder
  | none => OutputFolder.prepare s.outputFolder

/-- The phase of the run: it has begun, and the folder for its result is known. -/
def finishExport (store : SettingsStore) (session : Session) (o : ExportOptions) :
    OnHost ExportReport := do
  let i ← showInvocation o store.settings.tool
  let log ← startLog store o.input i
  let (outcome, log) ← runTool store.settings i log
  let (alert, session) := session.finish outcome
  endLog log alert
  printAlert alert
  let store ← rememberInput store o.input
  return {
    succeeded := alert.kind == .success
    session, store, invocation := some i, outcome := some outcome }

/-- Carries out the export. -/
def carryOut (r : ExportRequest) (store : SettingsStore) : OnHost ExportReport := do
  let s := store.settings
  let input ← r.chooseInput
  let picked ← r.chooseOutput
  let draft := r.options s.exporting input ⟨[]⟩
  let (refusal, session) ←
    ({ operation := draft.format.label ++ " export" } : Session).start draft
  session.alert.forM printAlert
  if refusal.isSome then return { succeeded := false, session, store }
  match ← outputFolder s.paths picked with
  | .error e =>
    OnHost.note .error .handlers e.message
    let (alert, session) := session.abort e.message
    printAlert alert
    return { succeeded := false, session, store }
  | .ok folder => finishExport store session { draft with outputDirectory := folder }

end ExportRequest

end ExportDesk
