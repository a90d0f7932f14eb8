import ExportDesk.Log.ProgramLog
import ExportDesk.Program.Listing
import ExportDesk.Program.Preview

/-!
# The program

The settings are read first, because they say where the log goes. Settings that cannot be read are
reported and replaced by the defaults. Lists only read; exports and previews open the log's file
and make the folders that are set.
-/

namespace ExportDesk

/-- How the program ends. -/
inductive Verdict where
  | done
  | failed
  /-- the command line made no sense -/
  | misused
deriving DecidableEq, Repr, Inhabited

/-- The exit code. -/
def Verdict.code : Verdict → Nat
  | done => 0
  | failed => 1
  | misused => 2

namespace Request

/-- The settings file of a request. -/
def settingsFile (r : Request) (env : Environment) : Path := r.config.getD env.settingsFile

/-- Reads the settings; what cannot be read is reported and stands at its defaults. -/
def readSettings (r : Request) : OnHost SettingsStore := do
  let env := (← get).environment
  let (result, store) ← (SettingsStore.ofPath env (r.settingsFile env)).loadOrCreate
  match result with
  | .ok () => return store
  | .error e =>
    OnHost.printLine .stderr
      ("Warning: Failed to load config: " ++ e.message ++ ". Using defaults.")
    return store

/-- Opens the log for the terminal. -/
def openTerminalLog (r : Request) : OnHost Unit := do
  OnHost.enter (.logOpened (if (← get).environment.silenced then none else some r.logLevel))

/-- Opens the log's file; without one the log goes to the terminal alone. -/
def openLogFile (store : SettingsStore) : OnHost (Option Path) := do
  match ← ProgramLog.openFile store.logsFolder with
  | .ok path => return some path
  | .error e =>
    OnHost.printLine .stderr
      ("Warning: file logging disabled (" ++ store.logsFolder.display ++ "): " ++ e.message)
    return none

/-- Makes the folders that are set. -/
def makeFolders (store : SettingsStore) : OnHost Unit := do
  match ← store.ensureFolders with
  | .ok () => return ()
  | .error e => OnHost.note .error .main ("Failed to create directories: " ++ e.message)

/-- Opens the log, with a file if the request is about an export. -/
def openLog (r : Request) (store : SettingsStore) : OnHost (Option Path) := do
  if r.verb.takesExport then
    let file ← openLogFile store
    r.openTerminalLog
    makeFolders store
    return file
  else
    r.openTerminalLog
    return none

/-- Does what the request says. Gives whether it went well. -/
def perform (r : Request) (store : SettingsStore) : OnHost Bool := do
  match r.verb with
  | .exporting => return (← r.exporting.carryOut store).succeeded
  | .preview => return (← r.exporting.preview store.settings).isOk
  | .formats =>
    printFormats
    return true
  | .config =>
    printSettings store
    return true

/-- The whole work on a request. -/
def run (r : Request) : OnHost Bool := do
  let store ← r.readSettings
  let file ← r.openLog store
  OnHost.note .debug .main ("Auto Editor GUI " ++ version ++ " starting")
  OnHost.note .debug .main ("Config: " ++ store.path.display)
  let done ← r.perform store
  file.forM ProgramLog.writeFile
  return done

end Request

/-- The program, from its arguments to its end. -/
def runProgram (arguments : List String) : OnHost Verdict := do
  match Request.ofWords arguments with
  | .ok r => return if ← r.run then .done else .failed
  | .error h =>
    OnHost.printLine (if h.isInquiry then .stdout else .stderr) h.message
    return if h.isInquiry then .done else .misused

end ExportDesk
