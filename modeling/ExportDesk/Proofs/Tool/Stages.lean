import ExportDesk.Proofs.Text.Blank
import ExportDesk.Proofs.Tool.Attempt
import Mathlib.Data.List.Infix

/-!
# The stages of a run

`ToolRunner.run_stages`: a run ends at the first stage that fails, and nothing of a later one has
happened then: what is left of it is notes. `ToolSettings.allows_buildInvocation_iff` says which
commands pass the first stage. Where the program's leading arguments end is not seen any more in a
command, so a runner also takes what another tool was given for its own leading arguments
(`prefix_append_iff`). Programs are compared by the names that `ToolSettings.Names` speaks of.
-/

namespace ExportDesk

open Text

/-! ## Commands that are allowed -/

/-- The name of a tool's program: the setting without the blanks around it, and the usual program
if there is nothing else to it. -/
structure ToolSettings.Names (t : ToolSettings) (program : String) : Prop where
  trimmed : isBlank t.program = false → IsTrimOf program t.program
  usual : isBlank t.program = true → program = "auto-editor"

/-- Every tool has one name, and it is the one that is started. -/
theorem ToolSettings.names_iff (t : ToolSettings) (program : String) :
    t.Names program ↔ program = t.effectiveProgram := by
  unfold effectiveProgram
  cases hblank : isBlank t.program with
  | false =>
    rw [if_neg Bool.false_ne_true]
    constructor
    · exact fun h => (h.trimmed hblank).eq_trim
    · rintro rfl
      exact ⟨fun _ => isTrimOf_trim t.program, fun h => Bool.noConfusion (hblank.symm.trans h)⟩
  | true =>
    rw [if_pos rfl]
    constructor
    · exact fun h => h.usual hblank
    · rintro rfl
      exact ⟨fun h => Bool.noConfusion (hblank.symm.trans h), fun _ => rfl⟩

/-- A prefix of two lists together ends in the first or in the second. -/
theorem prefix_append_iff {α : Type} {l first second : List α} :
    l <+: first ++ second ↔ l <+: first ∨ ∃ more, l = first ++ more ∧ more <+: second := by
  constructor
  · intro h
    obtain hshort | hlong := List.prefix_or_prefix_of_prefix h (List.prefix_append first second)
    · exact .inl hshort
    · obtain ⟨more, rfl⟩ := hlong
      exact .inr ⟨more, rfl, (List.prefix_append_right_inj first).1 h⟩
  · rintro (h | ⟨more, rfl, h⟩)
    · exact h.trans (List.prefix_append first second)
    · exact (List.prefix_append_right_inj first).2 h

/-- The commands that a tool is allowed, of those that were built for any tool. -/
theorem ToolSettings.allows_buildInvocation_iff (t built : ToolSettings) (o : ExportOptions) :
    t.allows (buildInvocation o built) = true ↔
      t.effectiveProgram = built.effectiveProgram ∧
        t.leadingArgs <+: built.leadingArgs ++ exportArguments o := by
  unfold allows buildInvocation
  rw [Bool.and_eq_true, beq_iff_eq, List.isPrefixOf_iff_prefix]
  exact and_congr_left' eq_comm

/-- **Allowed commands by their leading arguments.** The tool may have fewer of them than the
command was built with, or more: these have to be the first arguments of the export then. -/
theorem ToolSettings.allows_buildInvocation_iff_or (t built : ToolSettings) (o : ExportOptions) :
    t.allows (buildInvocation o built) = true ↔
      t.effectiveProgram = built.effectiveProgram ∧
        (t.leadingArgs <+: built.leadingArgs ∨
          ∃ more, t.leadingArgs = built.leadingArgs ++ more ∧ more <+: exportArguments o) := by
  rw [allows_buildInvocation_iff, prefix_append_iff]

/-! ## What a failed stage leaves behind -/

/-- Nothing but notes has been added from one host to the other. -/
def Host.OnlyNotes (h h' : Host) : Prop := ∃ events : List Event, h' = h.entered (events.map .noted)

namespace Host.OnlyNotes

variable {h h' : Host}

/-- No program has been started. -/
theorem starts (hn : h.OnlyNotes h') : h'.starts = h.starts := by
  obtain ⟨events, rfl⟩ := hn
  rw [starts_entered, List.append_right_eq_self, List.filterMap_map]
  exact List.filterMap_eq_nil_iff.2 fun _ _ => rfl

end Host.OnlyNotes

namespace Attempt

/-- The end of a run is a note. -/
theorem onlyNotes_noteEnd (i : Invocation) (a : Attempt) (h : Host) :
    h.OnlyNotes ((a.noteEnd i).run h).2 := by
  cases a with
  | ran child => exact ⟨child.closing i.program, rfl⟩
  | _ => exact ⟨[], rfl⟩

end Attempt

/-! ## Runs -/

namespace ToolRunner

variable {σ : Type} {r : ToolRunner} {i : Invocation} {h : Host}

/-- The host that the first line of a program finds that was started with the files as given. -/
def begunOn (i : Invocation) (h : Host) (fs : FileSystem) : Host :=
  { h with files := fs }.entered
    [.noted ⟨.info, .bridge, "Running: " ++ i.preview⟩, .started i.program i.arguments]

/-- One program has been started, with the command's arguments one by one. -/
theorem starts_begunOn (i : Invocation) (h : Host) (fs : FileSystem) :
    (begunOn i h fs).starts = h.starts ++ [(i.program, i.arguments)] := by
  rw [begunOn, Host.starts_entered]
  rfl

/-- Whoever watches, the run comes to this end and leaves this host behind: no line of the tool is
handed on. -/
def EndsUnwatched (r : ToolRunner) (i : Invocation) (h : Host) (cause : RunError) (h' : Host) :
    Prop :=
  ∀ {σ : Type} (observe : σ → OutputLine → OnHost σ) (s : σ),
    (r.run i observe s).run h = ((.notRun cause, s), h')

/-- An attempt that did not come to a program is the whole run. -/
theorem endsUnwatched_of_attempt {a : Attempt} {cause : RunError} {h' : Host}
    (hattempt : (r.attempt i).run h = (a, h')) (hlines : a.lines = [])
    (hending : a.ending i = []) (hcause : a.outcome r i = .notRun cause) :
    r.EndsUnwatched i h cause h' := by
  intro σ observe s
  rw [run_run, hattempt, ← hcause]
  dsimp only
  rw [hlines, Attempt.noteEnd, hending]
  rfl

/-- A run with a program that ran: its lines are handed on, one after the other. -/
theorem run_of_ran {child : ChildRun} {h' : Host}
    (hattempt : (r.attempt i).run h = (.ran child, h')) (observe : σ → OutputLine → OnHost σ)
    (s : σ) :
    let watched := (observeAll observe s child.lines).run h'
    let ended := (r.run i observe s).run h
    ended.1 = (child.outcome r.tailLines i.program, watched.1) ∧ watched.2.OnlyNotes ended.2 := by
  intro watched ended
  have hended : ended = (((Attempt.ran child).outcome r i, watched.1),
      (((Attempt.ran child).noteEnd i).run watched.2).2) := by
    show (r.run i observe s).run h = _
    rw [run_run, hattempt]
    rfl
  rw [hended]
  exact ⟨rfl, (Attempt.ran child).onlyNotes_noteEnd i watched.2⟩

/-- An observer that starts nothing starts nothing over all lines. -/
theorem starts_observeAll {observe : σ → OutputLine → OnHost σ}
    (hobserve : ∀ s line h, ((observe s line).run h).2.starts = h.starts) (s : σ)
    (lines : List OutputLine) (h : Host) :
    ((observeAll observe s lines).run h).2.starts = h.starts := by
  induction lines generalizing s h with
  | nil => rfl
  | cons line lines ih =>
    have hstep := hobserve s line h
    rw [← hstep]
    exact ih _ _

/-- **The stages of a run.** A command that was built for a tool is allowed if the runner's tool has
the same program, by its name without blanks around it, and its leading arguments are the first
ones of the command; so a runner never refuses what was built for its own tool. A run that is
refused leaves nothing behind but a note. One whose folder cannot be made has changed no more than
the making of the folder did, and one whose program cannot be started no more than the attempt to
start it did. Only a run that has passed all these stages starts a program: one, with the command's
arguments, and only then there are lines to observe. The outcome goes by the end of the program, if
the wait for it told of one; a program without streams to read is given up unwatched. -/
theorem run_stages (r : ToolRunner) (o : ExportOptions) (built : ToolSettings) (i : Invocation)
    (h : Host) :
    let folder := (Disk.makeDirectoryAll i.outputDirectory).run.run h.files
    let launched := (h.launcher h.environment i.program i.arguments).run folder.2
    let begun := begunOn i h launched.2
    ∃ mine theirs, (∀ name, r.tool.Names name ↔ name = mine) ∧
      (∀ name, built.Names name ↔ name = theirs) ∧
      (buildInvocation o built).program = theirs ∧
      (r.tool.allows (buildInvocation o built) = true ↔
        mine = theirs ∧ r.tool.leadingArgs <+: built.leadingArgs ++ exportArguments o) ∧
      r.tool.allows (buildInvocation o r.tool) = true ∧
      (r.tool.allows i = false → ∃ h', h.OnlyNotes h' ∧
        r.EndsUnwatched i h (.toolNotAllowed i.program mine) h') ∧
      (r.tool.allows i = true → ∀ e, folder.1 = .error e →
        ∃ h', { h with files := folder.2 }.OnlyNotes h' ∧
          r.EndsUnwatched i h (.outputDirectory i.outputDirectory e) h') ∧
      (r.tool.allows i = true → folder.1 = .ok () → ∀ e, launched.1 = .error e →
        ∃ h', { h with files := launched.2 }.OnlyNotes h' ∧
          r.EndsUnwatched i h (.launch i.program e) h') ∧
      (r.tool.allows i = true → folder.1 = .ok () → ∀ child, launched.1 = .ok child →
        begun.starts = h.starts ++ [(i.program, i.arguments)] ∧
          (child.captured = false → r.EndsUnwatched i h (.missingPipe i.program) begun) ∧
          (child.captured = true →
            ∀ {σ : Type} (observe : σ → OutputLine → OnHost σ) (s : σ),
              let watched := (observeAll observe s (linesOf child.writes)).run begun
              let ended := (r.run i observe s).run h
              ended.1 = (match child.ending with
                  | .ended code => .ofRun r.tailLines code (linesOf child.writes)
                  | .lost cause => .notRun (.wait i.program cause), watched.1) ∧
                watched.2.OnlyNotes ended.2 ∧
                ((∀ s line h, ((observe s line).run h).2.starts = h.starts) →
                  ended.2.starts = h.starts ++ [(i.program, i.arguments)]))) := by
  intro folder launched begun
  refine ⟨r.tool.effectiveProgram, built.effectiveProgram, r.tool.names_iff, built.names_iff, rfl,
    r.tool.allows_buildInvocation_iff built o, r.tool.allows_buildInvocation o,
    fun hallows => ?_, fun hallows e hfolder => ?_, fun hallows hfolder e hlaunch => ?_,
    fun hallows hfolder child hlaunch => ?_⟩
  · exact ⟨_, ⟨[_], rfl⟩, endsUnwatched_of_attempt (attempt_refused hallows) rfl rfl rfl⟩
  · have hattempt := attempt_noFolder (r := r) hallows (Prod.ext hfolder rfl)
    exact ⟨_, ⟨[_], rfl⟩, endsUnwatched_of_attempt hattempt rfl rfl rfl⟩
  · have hattempt := attempt_notStarted (r := r) hallows (Prod.ext hfolder rfl)
      (Prod.ext hlaunch rfl)
    exact ⟨_, ⟨[_, _], rfl⟩, endsUnwatched_of_attempt hattempt rfl rfl rfl⟩
  · have hattempt := attempt_ran (r := r) hallows (Prod.ext hfolder rfl) (Prod.ext hlaunch rfl)
    have hbegun : begun.starts = _ := starts_begunOn i h launched.2
    refine ⟨hbegun, fun hpipes => ?_, fun hpipes σ observe s => ?_⟩
    · refine endsUnwatched_of_attempt hattempt ?_ ?_ ?_
      · simp [Attempt.lines, ChildRun.lines, hpipes]
      · simp [Attempt.ending, ChildRun.closing, hpipes]
      · simp [Attempt.outcome, ChildRun.outcome, hpipes]
    · intro watched ended
      have hlines : child.lines = linesOf child.writes := by simp [ChildRun.lines, hpipes]
      obtain ⟨hresult, hnotes⟩ := run_of_ran hattempt observe s
      rw [hlines] at hresult hnotes
      refine ⟨hresult.trans ?_, hnotes, fun hobserve => ?_⟩
      · simp only [ChildRun.outcome, hpipes, if_true]
        rfl
      · rw [hnotes.starts, ← hbegun]
        exact starts_observeAll hobserve s (linesOf child.writes) begun

/-- A host where every start of a program ends in the same way. -/
def hostStarting (entries : List (Location × Node)) (started : Except IoError ChildRun) : Host where
  files := { entries }
  environment := {}
  launcher := fun _ _ _ => pure started
  clock := { timeOfDay := "12:00:00", date := "2025-06-01", timestamp := "2025-06-01T12:00:00Z" }

/-- The end at each of the stages, for a command that was built with no program's name but blanks.
The first runner's tool has blanks around the name, and its leading arguments reach into the
export. -/
theorem run_stages_talk :
    let options : ExportOptions := { input := .ofText "talk.mp4", outputDirectory := .ofText "out" }
    let built : ToolSettings := { program := " \t" }
    let i := buildInvocation options built
    let r : ToolRunner :=
      { tool := { program := " auto-editor\n", leadingArgs := ["talk.mp4", "--export"] } }
    let other : ToolRunner := { tool := { program := "rm " } }
    let child : ChildRun := { writes := [(.stdout, encode "done\n")], ending := .ended (some 0) }
    r.tool.allows i = true ∧
      (∃ h', other.EndsUnwatched i (hostStarting [] (.ok child))
        (.toolNotAllowed "auto-editor" "rm") h') ∧
      (∃ h', r.EndsUnwatched i (hostStarting [([encode "out"], .file [] false)] (.ok child))
        (.outputDirectory (.ofText "out") .entryExists) h') ∧
      (∃ h', r.EndsUnwatched i (hostStarting [] (.error .noSuchEntry))
        (.launch "auto-editor" .noSuchEntry) h') ∧
      (∃ h', r.EndsUnwatched i (hostStarting [] (.ok { child with captured := false }))
        (.missingPipe "auto-editor") h') ∧
      ((r.run i (fun n _ => pure (n + 1)) 0).run (hostStarting []
        (.ok { child with ending := .lost .noChildProcess }))).1 =
          (.notRun (.wait "auto-editor" .noChildProcess), 1) ∧
      ((r.run i (fun n _ => pure (n + 1)) 0).run (hostStarting [] (.ok child))).2.starts =
        [("auto-editor", i.arguments)] := by
  intro options built i r other child
  let blocked : Host := hostStarting [([encode "out"], .file [] false)] (.ok child)
  have hprogram : i.program = "auto-editor" := by decide +kernel
  have hname : r.tool.effectiveProgram = "auto-editor" := by decide +kernel
  have hallows : r.tool.allows i = true := by
    obtain ⟨mine, theirs, hmine, htheirs, -, hiff, -⟩ :=
      run_stages r options built i (hostStarting [] (.ok child))
    refine hiff.2 ⟨?_, by decide +kernel⟩
    rw [← (hmine _).1 ((r.tool.names_iff _).2 rfl), ← (htheirs _).1 ((built.names_iff _).2 rfl),
      hname]
    exact hprogram.symm
  refine ⟨hallows, ?_, ?_, ?_, ?_, ?_, ?_⟩
  · obtain ⟨mine, -, hmine, -, -, -, -, hrefused, -⟩ :=
      run_stages other options built i (hostStarting [] (.ok child))
    have hother : other.tool.effectiveProgram = "rm" := by decide +kernel
    obtain ⟨h', -, hend⟩ := hrefused (by decide +kernel)
    rw [hprogram, ← (hmine _).1 ((other.tool.names_iff _).2 rfl), hother] at hend
    exact ⟨h', hend⟩
  · obtain ⟨-, -, -, -, -, -, -, -, hnoFolder, -⟩ := run_stages r options built i blocked
    obtain ⟨h', -, hend⟩ := hnoFolder hallows .entryExists (by decide +kernel)
    exact ⟨h', hend⟩
  · obtain ⟨-, -, -, -, -, -, -, -, -, hnotStarted, -⟩ :=
      run_stages r options built i (hostStarting [] (.error .noSuchEntry))
    obtain ⟨h', -, hend⟩ := hnotStarted hallows (by decide +kernel) .noSuchEntry rfl
    rw [hprogram] at hend
    exact ⟨h', hend⟩
  · obtain ⟨-, -, -, -, -, -, -, -, -, -, hran⟩ :=
      run_stages r options built i (hostStarting [] (.ok { child with captured := false }))
    obtain ⟨-, hunread, -⟩ := hran hallows (by decide +kernel) _ rfl
    rw [← hprogram]
    exact ⟨_, hunread rfl⟩
  · obtain ⟨-, -, -, -, -, -, -, -, -, -, hran⟩ := run_stages r options built i
      (hostStarting [] (.ok { child with ending := .lost .noChildProcess }))
    obtain ⟨-, -, hwatched⟩ := hran hallows (by decide +kernel) _ rfl
    obtain ⟨hend, -, -⟩ := hwatched rfl (fun n _ => pure (n + 1)) 0
    rw [hend, ← hprogram]
    decide +kernel
  · obtain ⟨-, -, -, -, -, -, -, -, -, -, hran⟩ :=
      run_stages r options built i (hostStarting [] (.ok child))
    obtain ⟨-, -, hwatched⟩ := hran hallows (by decide +kernel) child rfl
    obtain ⟨-, -, hstarts⟩ := hwatched rfl (fun n _ => pure (n + 1)) 0
    rw [← hprogram]
    exact hstarts fun _ _ _ => rfl

end ToolRunner

end ExportDesk
