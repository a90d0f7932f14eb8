import ExportDesk.Proofs.Record
import ExportDesk.Tool.Run

/-!
# A run apart from its observer

What a runner does before the first line of the tool does not depend on who watches: it is an
attempt, which ends with a refusal, without a folder, without a start, or with a program that ran.
`ToolRunner.run_eq` takes a run apart into its attempt, the lines handed on, and a last note.
`ToolRunner.attempt_went` and `Attempt.noteEnd_went` say what the record tells of it.
-/

namespace ExportDesk

namespace ChildRun

/-- The lines that there are to hand on. -/
def lines (child : ChildRun) : List OutputLine :=
  if child.captured then linesOf child.writes else []

/-- The outcome, once all lines have been handed on. -/
def outcome (child : ChildRun) (tailLines : Nat) (program : String) : Outcome :=
  if child.captured then
    match child.ending with
    | .ended code => .ofRun tailLines code (linesOf child.writes)
    | .lost cause => .notRun (.wait program cause)
  else .notRun (.missingPipe program)

/-- What is noted of the program after the last line. -/
def closing (child : ChildRun) (program : String) : List Event :=
  if child.captured then
    match child.ending with
    | .ended code =>
      if code.getD signalCode = 0 then [⟨.info, .bridge, program ++ " finished successfully"⟩]
      else
        [⟨.warn, .bridge, program ++ " exited with code " ++ toString (code.getD signalCode)⟩]
    | .lost cause =>
      [⟨.error, .bridge, "Failed to wait for " ++ program ++ ": " ++ cause.message⟩]
  else []

theorem source_closing (child : ChildRun) (program : String) :
    ∀ e ∈ child.closing program, e.source = .bridge := by
  unfold closing
  split
  · split
    · split <;> simp
    · simp
  · simp

/-- The program could be followed to its end, and exited with this code. -/
def ExitsWith (child : ChildRun) (code : Int) : Prop :=
  child.captured = true ∧ child.ending = .ended (some code)

/-- Success is exit code zero, and that it is known. -/
theorem isSuccess_outcome (child : ChildRun) (tailLines : Nat) (program : String) :
    (child.outcome tailLines program).isSuccess = true ↔ child.ExitsWith 0 := by
  unfold outcome ExitsWith
  cases child.captured with
  | false => simp [Outcome.isSuccess]
  | true =>
    cases child.ending with
    | lost cause => simp [Outcome.isSuccess]
    | ended code =>
      have hcode : code.getD signalCode = 0 ↔ code = some 0 := by
        cases code <;> simp [signalCode]
      by_cases h : code.getD signalCode = 0
      · simp [Outcome.ofRun, Outcome.ofExit, Outcome.isSuccess, hcode.1 h]
      · have hne : code ≠ some 0 := fun hc => h (hcode.2 hc)
        simp [Outcome.ofRun, Outcome.ofExit, Outcome.isSuccess, h, hne]

end ChildRun

/-- How far a run of the tool came. -/
inductive Attempt where
  /-- the program is not the configured one -/
  | refused
  /-- the folder for the result cannot be made -/
  | noFolder (cause : IoError)
  /-- the system did not start the program -/
  | notStarted (cause : IoError)
  | ran (child : ChildRun)
deriving DecidableEq, Repr

namespace Attempt

/-- The lines that there are to hand on. -/
def lines : Attempt → List OutputLine
  | .ran child => child.lines
  | .refused | .noFolder _ | .notStarted _ => []

/-- The outcome, once all lines have been handed on. -/
def outcome (r : ToolRunner) (i : Invocation) : Attempt → Outcome
  | .refused => .notRun (.toolNotAllowed i.program r.tool.effectiveProgram)
  | .noFolder cause => .notRun (.outputDirectory i.outputDirectory cause)
  | .notStarted cause => .notRun (.launch i.program cause)
  | .ran child => child.outcome r.tailLines i.program

/-- What the record has of the attempt before the first line. -/
def opening (r : ToolRunner) (i : Invocation) : Attempt → List Entry
  | .refused =>
    [.noted ⟨.error, .capability, "Refusing to run " ++ i.program ++ " (configured tool is " ++
      r.tool.effectiveProgram ++ ")"⟩]
  | .noFolder cause =>
    [.noted ⟨.error, .bridge, "Could not create output directory " ++ i.outputDirectory.display ++
      ": " ++ cause.message⟩]
  | .notStarted cause =>
    [.noted ⟨.info, .bridge, "Running: " ++ i.preview⟩,
      .noted ⟨.error, .bridge, "Failed to launch " ++ i.program ++ ": " ++ cause.message⟩]
  | .ran _ =>
    [.noted ⟨.info, .bridge, "Running: " ++ i.preview⟩, .started i.program i.arguments]

/-- What the record has of the attempt after the last line. -/
def ending (i : Invocation) : Attempt → List Entry
  | .ran child => (child.closing i.program).map .noted
  | .refused | .noFolder _ | .notStarted _ => []

/-- Notes how the program ended, if it ran. -/
def noteEnd (i : Invocation) (a : Attempt) : OnHost Unit :=
  modify fun h => h.entered (a.ending i)

/-- All that the record has of the attempt. -/
def trace (r : ToolRunner) (i : Invocation) (a : Attempt) : List Entry :=
  a.opening r i ++ a.ending i

theorem isOfTool_opening (r : ToolRunner) (i : Invocation) (a : Attempt) :
    ∀ e ∈ a.opening r i, e.isOfTool = true := by
  cases a <;> simp [opening, Entry.isOfTool]

theorem isOfTool_ending (i : Invocation) (a : Attempt) :
    ∀ e ∈ a.ending i, e.isOfTool = true := by
  cases a with
  | ran child =>
    intro e he
    obtain ⟨event, hevent, rfl⟩ := List.mem_map.1 he
    simp [Entry.isOfTool, child.source_closing i.program event hevent]
  | _ => simp [ending]

/-- The programs that the attempt started. -/
def starts (i : Invocation) : Attempt → List (String × List String)
  | .ran _ => [(i.program, i.arguments)]
  | .refused | .noFolder _ | .notStarted _ => []

/-- The note at the end of the run. -/
theorem noteEnd_went {F : FileSystem → FileSystem → Prop} [IsPreorder FileSystem F]
    (i : Invocation) (a : Attempt) (h : Host) :
    h.Went F (a.ending i) [] ((a.noteEnd i).run h).2 := .enteredOfTool h (a.isOfTool_ending i)

/-- Success is exit code zero of a program that could be followed to its end. -/
theorem isSuccess_outcome (r : ToolRunner) (i : Invocation) (a : Attempt) :
    (a.outcome r i).isSuccess = true ↔ ∃ child, a = .ran child ∧ child.ExitsWith 0 := by
  cases a with
  | ran child => simp [outcome, ChildRun.isSuccess_outcome]
  | _ => simp [outcome, Outcome.isSuccess]

end Attempt

/-- Following a program is handing its lines on, and a note about the end. -/
theorem Invocation.follow_eq {σ : Type} (i : Invocation) (tailLines : Nat) (child : ChildRun)
    (observe : σ → OutputLine → OnHost σ) (s : σ) :
    i.follow tailLines child observe s = do
      let s ← observeAll observe s child.lines
      modify fun h => h.entered ((child.closing i.program).map .noted)
      return (child.outcome tailLines i.program, s) := by
  unfold follow ChildRun.lines ChildRun.closing ChildRun.outcome
  cases child.captured with
  | false => rfl
  | true =>
    simp only [Bool.not_true, Bool.false_eq_true, if_false, if_true]
    congr 1
    funext s
    cases child.ending with
    | lost cause => rfl
    | ended code =>
      dsimp only
      split <;> rfl

namespace ToolRunner

/-- All that a runner does before the first line of the tool. -/
def attempt (r : ToolRunner) (i : Invocation) : OnHost Attempt := do
  if r.tool.allows i then
    match ← OnHost.disk (Disk.makeDirectoryAll i.outputDirectory) with
    | .error e =>
      OnHost.note .error .bridge
        ("Could not create output directory " ++ i.outputDirectory.display ++ ": " ++ e.message)
      return .noFolder e
    | .ok () =>
      OnHost.note .info .bridge ("Running: " ++ i.preview)
      match ← OnHost.launch i.program i.arguments with
      | .error e =>
        OnHost.note .error .bridge ("Failed to launch " ++ i.program ++ ": " ++ e.message)
        return .notStarted e
      | .ok child => return .ran child
  else
    OnHost.note .error .capability ("Refusing to run " ++ i.program ++ " (configured tool is " ++
      r.tool.effectiveProgram ++ ")")
    return .refused

/-- **A run** is an attempt, the lines of it handed on, and a note about the end. -/
theorem run_eq {σ : Type} (r : ToolRunner) (i : Invocation)
    (observe : σ → OutputLine → OnHost σ) (s : σ) :
    r.run i observe s = do
      let a ← r.attempt i
      let s ← observeAll observe s a.lines
      a.noteEnd i
      return (a.outcome r i, s) := by
  unfold run attempt
  split
  · unfold Invocation.execute
    rw [bind_assoc]
    congr 1
    funext made
    cases made with
    | error e => rfl
    | ok _ =>
      simp only [bind_assoc]
      congr 1
      funext _
      congr 1
      funext started
      cases started with
      | error e => rfl
      | ok child =>
        rw [pure_bind]
        exact i.follow_eq r.tailLines child observe s
  · rfl

/-- What a run comes to on a host: the attempt, the watched lines of it, and the note. -/
theorem run_run {σ : Type} (r : ToolRunner) (i : Invocation)
    (observe : σ → OutputLine → OnHost σ) (s : σ) (h : Host) :
    let attempted := (r.attempt i).run h
    let watched := (observeAll observe s attempted.1.lines).run attempted.2
    (r.run i observe s).run h =
      ((attempted.1.outcome r i, watched.1), ((attempted.1.noteEnd i).run watched.2).2) := by
  rw [run_eq]
  rfl

section

variable {r : ToolRunner} {i : Invocation} {h : Host} {fs fs' : FileSystem} {e : IoError}

theorem attempt_refused (hallows : r.tool.allows i = false) :
    (r.attempt i).run h = (.refused, h.entered (Attempt.refused.opening r i)) := by
  unfold attempt
  rw [if_neg (by simp [hallows])]
  rfl

theorem attempt_noFolder (hallows : r.tool.allows i = true)
    (hfolder : (Disk.makeDirectoryAll i.outputDirectory).run.run h.files = (.error e, fs)) :
    (r.attempt i).run h =
      (.noFolder e, { h with files := fs }.entered ((Attempt.noFolder e).opening r i)) := by
  unfold attempt
  rw [if_pos hallows, StateT.run_bind, OnHost.run_disk, hfolder]
  rfl

/-- An allowed attempt whose folder has been made goes on with a start. -/
theorem attempt_launch (hallows : r.tool.allows i = true)
    (hfolder : (Disk.makeDirectoryAll i.outputDirectory).run.run h.files = (.ok (), fs)) :
    let announced := { h with files := fs }.entered
      [.noted ⟨.info, .bridge, "Running: " ++ i.preview⟩]
    let launched := (OnHost.launch i.program i.arguments).run announced
    (r.attempt i).run h = (match launched.1 with
      | .error e => do
        OnHost.note .error .bridge ("Failed to launch " ++ i.program ++ ": " ++ e.message)
        return .notStarted e
      | .ok child => return .ran child : OnHost Attempt).run launched.2 := by
  unfold attempt
  rw [if_pos hallows, StateT.run_bind, OnHost.run_disk, hfolder]
  rfl

theorem attempt_notStarted (hallows : r.tool.allows i = true)
    (hfolder : (Disk.makeDirectoryAll i.outputDirectory).run.run h.files = (.ok (), fs))
    (hlaunch : (h.launcher h.environment i.program i.arguments).run fs = (.error e, fs')) :
    (r.attempt i).run h =
      (.notStarted e, { h with files := fs' }.entered ((Attempt.notStarted e).opening r i)) := by
  rw [attempt_launch hallows hfolder, OnHost.launch_error hlaunch]
  rfl

theorem attempt_ran {child : ChildRun} (hallows : r.tool.allows i = true)
    (hfolder : (Disk.makeDirectoryAll i.outputDirectory).run.run h.files = (.ok (), fs))
    (hlaunch : (h.launcher h.environment i.program i.arguments).run fs = (.ok child, fs')) :
    (r.attempt i).run h =
      (.ran child, { h with files := fs' }.entered ((Attempt.ran child).opening r i)) := by
  rw [attempt_launch hallows hfolder, OnHost.launch_ok hlaunch]
  rfl

end

/-- An attempt changes files and adds to the record, and nothing else. A command of the configured
tool is not refused. -/
theorem attempt_run (r : ToolRunner) (i : Invocation) (h : Host) :
    ∃ a fs, (r.attempt i).run h = (a, { h with files := fs }.entered (a.opening r i)) ∧
      (r.tool.allows i = true → a ≠ .refused) := by
  cases hallows : r.tool.allows i with
  | false => exact ⟨.refused, h.files, attempt_refused hallows, Bool.noConfusion⟩
  | true =>
    rcases hfolder : (Disk.makeDirectoryAll i.outputDirectory).run.run h.files with ⟨e | _, fs⟩
    · exact ⟨_, fs, attempt_noFolder hallows hfolder, fun _ => Attempt.noConfusion⟩
    rcases hlaunch : (h.launcher h.environment i.program i.arguments).run fs with ⟨e | child, fs'⟩
    · exact ⟨_, fs', attempt_notStarted hallows hfolder hlaunch, fun _ => Attempt.noConfusion⟩
    · exact ⟨_, fs', attempt_ran hallows hfolder hlaunch, fun _ => Attempt.noConfusion⟩

/-- What the record tells of an attempt. -/
theorem attempt_went (r : ToolRunner) (i : Invocation) (h : Host) :
    h.Went FileSystem.AnyChange (((r.attempt i).run h).1.opening r i) []
      ((r.attempt i).run h).2 := by
  obtain ⟨a, fs, hrun, -⟩ := r.attempt_run i h
  rw [hrun]
  have hw : h.Went FileSystem.AnyChange [] [] { h with files := fs } :=
    ⟨rfl, rfl, rfl, trivial, (List.append_nil _).symm, (List.append_nil _).symm⟩
  exact hw.trans (.enteredOfTool _ (a.isOfTool_opening r i))

end ToolRunner

end ExportDesk
