import ExportDesk.Command.Build
import ExportDesk.Log.ExportLog
import ExportDesk.Tool.Pipes

/-!
# Running the cutting tool

A run has stages: the runner admits the command, the output folder is made, the program starts, and
its lines are handed on until it ends. The first stage that fails decides the outcome, and nothing
that belongs to a later one happens.
-/

namespace ExportDesk

/-- Hands lines on, one after the other, to an observer with a state of its own. -/
def observeAll {σ : Type} (observe : σ → OutputLine → OnHost σ) (s : σ) :
    List OutputLine → OnHost σ
  | [] => return s
  | l :: ls => do
    let s ← observe s l
    observeAll observe s ls

/-- Hands on the lines of a program that has started, and tells how it ended. A program whose
streams are not there to be read is given up at once; one whose end cannot be learned has no outcome
of its own, whatever it wrote. -/
def Invocation.follow {σ : Type} (i : Invocation) (tailLines : Nat) (run : ChildRun)
    (observe : σ → OutputLine → OnHost σ) (s : σ) : OnHost (Outcome × σ) := do
  if !run.captured then return (.notRun (.missingPipe i.program), s)
  let lines := linesOf run.writes
  let s ← observeAll observe s lines
  match run.ending with
  | .lost e =>
    OnHost.note .error .bridge ("Failed to wait for " ++ i.program ++ ": " ++ e.message)
    return (.notRun (.wait i.program e), s)
  | .ended code =>
    let shown := code.getD signalCode
    if shown = 0 then OnHost.note .info .bridge (i.program ++ " finished successfully")
    else OnHost.note .warn .bridge (i.program ++ " exited with code " ++ toString shown)
    return (.ofRun tailLines code lines, s)

/-- Makes the output folder, starts the program, and hands on its lines. -/
def Invocation.execute {σ : Type} (i : Invocation) (tailLines : Nat)
    (observe : σ → OutputLine → OnHost σ) (s : σ) : OnHost (Outcome × σ) := do
  match ← OnHost.disk (Disk.makeDirectoryAll i.outputDirectory) with
  | .error e =>
    OnHost.note .error .bridge
      ("Could not create output directory " ++ i.outputDirectory.display ++ ": " ++ e.message)
    return (.notRun (.outputDirectory i.outputDirectory e), s)
  | .ok () =>
    OnHost.note .info .bridge ("Running: " ++ i.preview)
    match ← OnHost.launch i.program i.arguments with
    | .error e =>
      OnHost.note .error .bridge ("Failed to launch " ++ i.program ++ ": " ++ e.message)
      return (.notRun (.launch i.program e), s)
    | .ok run => i.follow tailLines run observe s

/-- How many lines of each stream an outcome keeps if nothing is set. -/
def defaultTailLines : Nat := 20

/-- Runs commands of one configured tool and no others. -/
structure ToolRunner where
  tool : ToolSettings
  tailLines : Nat := defaultTailLines
deriving DecidableEq, Repr, Inhabited

namespace ToolRunner

/-- The runner that the settings ask for. -/
def ofSettings (s : Settings) : ToolRunner :=
  { tool := s.tool, tailLines := s.logging.errorTail.toNat }

/-- Runs a command if it is one of the configured tool. -/
def run {σ : Type} (r : ToolRunner) (i : Invocation) (observe : σ → OutputLine → OnHost σ)
    (s : σ) : OnHost (Outcome × σ) := do
  if r.tool.allows i then i.execute r.tailLines observe s
  else
    let allowed := r.tool.effectiveProgram
    OnHost.note .error .capability
      ("Refusing to run " ++ i.program ++ " (configured tool is " ++ allowed ++ ")")
    return (.notRun (.toolNotAllowed i.program allowed), s)

/-- A log together with what it has emitted and the state of another observer. -/
structure Logged (σ : Type) where
  log : ExportLog
  emitted : List String
  watcher : σ

namespace Logged

/-- Carries out a call of the log. -/
def perform {σ : Type} (l : Logged σ) (call : LogCall) : OnHost (Logged σ) := do
  let (lines, log) ← l.log.perform call
  return { l with log, emitted := l.emitted ++ lines }

/-- Hands a line to the log and then to the other observer. -/
def observe {σ : Type} (watch : σ → OutputLine → OnHost σ) (l : Logged σ) (line : OutputLine) :
    OnHost (Logged σ) := do
  let l ← l.perform (.output line)
  return { l with watcher := ← watch l.watcher line }

end Logged

/-- What a log is told about the end of a run. -/
def closingCalls (i : Invocation) : Outcome → List LogCall
  | .success _ => [.success ("Wrote " ++ i.outputPath.display)]
  | .failure code _ =>
    [.error (i.program ++ " exited with code " ++ toString code), .showTail i.program]
  | .notRun cause => [.error cause.message]

/-- Runs a command and records the run in a log. -/
def runLogged {σ : Type} (r : ToolRunner) (i : Invocation) (log : ExportLog)
    (watch : σ → OutputLine → OnHost σ) (s : σ) : OnHost (Outcome × Logged σ) := do
  let l : Logged σ := { log, emitted := [], watcher := s }
  let l ← l.perform (.phase ("Export (" ++ i.format.label ++ ")"))
  let l ← l.perform (.command i.preview)
  let (outcome, l) ← r.run i (Logged.observe watch) l
  let l ← (closingCalls i outcome ++ [LogCall.flush]).foldlM Logged.perform l
  return (outcome, l)

end ToolRunner

end ExportDesk
