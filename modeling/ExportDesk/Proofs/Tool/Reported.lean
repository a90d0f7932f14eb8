import ExportDesk.Proofs.Text.Blank
import ExportDesk.Proofs.Tool.Interleavings

/-!
# What the user is told of a run

`Outcome.alert_of_run`: the exit code alone decides whether the user is told of a success; what
explains a failure are the last lines of the two streams, and the explanation is never blank.

Blanks are looked for twice: the outcome takes the lines of the output if those of the error output
are blank, and the alert speaks of the exit code if what it was given is blank. `reports_ofExit`
takes both together, for any two texts.
-/

namespace ExportDesk

open Text

/-- What explains that an operation failed with an exit code: the last lines of the error output if
there is anything to see in them, else those of the output, else the code. -/
structure Explains (operation : String) (code : Int) (out err message : String) : Prop where
  shows : isBlank message = false
  byErr : isBlank err = false → IsTrimOf message err
  byOut : isBlank err = true → isBlank out = false → IsTrimOf message out
  byCode : isBlank err = true → isBlank out = true →
    message = operation ++ " failed: tool exited with code " ++ toString code

/-- What an alert says of an operation that ended with an exit code and these last lines. Nothing
that was printed has a part in a success. -/
structure Reports (operation : String) (code : Int) (out err : String) (a : Alert) : Prop where
  kind : a.kind = if code = 0 then .success else .error
  success : code = 0 → a.message = operation ++ " completed successfully"
  failure : code ≠ 0 → Explains operation code out err a.message

namespace Outcome

/-! ## By exit code and last lines -/

/-- The words behind an operation's name are not blank, whatever the name is. -/
theorem isBlank_codeText (operation : String) (code : Int) :
    isBlank (operation ++ " failed: tool exited with code " ++ toString code) = false := by
  have hwords : isBlank " failed: tool exited with code " = false := by decide
  rw [isBlank_append, isBlank_append, hwords, Bool.and_false, Bool.false_and]

theorem message_failure (code : Int) (diagnostic operation : String) :
    ((failure code diagnostic).alert operation).message =
      if isBlank diagnostic then operation ++ " failed: tool exited with code " ++ toString code
      else trim diagnostic := rfl

theorem explains_failure (operation : String) (code : Int) (out err : String) :
    Explains operation code out err
      ((failure code (if isBlank err then out else err)).alert operation).message := by
  rw [message_failure]
  cases herr : isBlank err with
  | false =>
    have htrim := isTrimOf_trim err
    rw [if_neg Bool.false_ne_true, herr, if_neg Bool.false_ne_true]
    exact {
      shows := htrim.isBlank_eq.trans herr
      byErr := fun _ => htrim
      byOut := fun hblank => Bool.noConfusion (herr.symm.trans hblank)
      byCode := fun hblank => Bool.noConfusion (herr.symm.trans hblank) }
  | true =>
    rw [if_pos rfl]
    cases hout : isBlank out with
    | false =>
      have htrim := isTrimOf_trim out
      rw [if_neg Bool.false_ne_true]
      exact {
        shows := htrim.isBlank_eq.trans hout
        byErr := fun hshows => Bool.noConfusion (herr.symm.trans hshows)
        byOut := fun _ _ => htrim
        byCode := fun _ hblank => Bool.noConfusion (hout.symm.trans hblank) }
    | true =>
      rw [if_pos rfl]
      exact {
        shows := isBlank_codeText operation code
        byErr := fun hshows => Bool.noConfusion (herr.symm.trans hshows)
        byOut := fun _ hshows => Bool.noConfusion (hout.symm.trans hshows)
        byCode := fun _ _ => rfl }

theorem reports_ofExit (operation : String) (code : Int) (out err : String) :
    Reports operation code out err ((ofExit code out err).alert operation) := by
  by_cases hcode : code = 0
  · rw [ofExit, if_pos hcode]
    exact ⟨(if_pos hcode).symm, fun _ => rfl, fun hne => absurd hcode hne⟩
  · rw [ofExit, if_neg hcode]
    exact ⟨(if_neg hcode).symm, fun h => absurd h hcode,
      fun _ => explains_failure operation code out err⟩

end Outcome

/-! ## By the whole streams -/

/-- The outcome of a run that is over is the one of all the lines observed. -/
theorem Pipes.Invariant.outcome_eq {tailLines : Nat} {texts : OutputStream → List String}
    {p : Pipes} {code : Option Int} {o : Outcome} (hp : Invariant tailLines texts p)
    (ho : p.outcome? code = some o) :
    o = .ofRun tailLines code p.observed ∧ ∀ s, textsOf s p.observed = texts s := by
  unfold outcome? at ho
  split at ho
  next hover =>
    have hout : p.out.tail = Tail.ofLines tailLines (textsOf .stdout p.observed) := hp.kept .stdout
    have herr : p.err.tail = Tail.ofLines tailLines (textsOf .stderr p.observed) := hp.kept .stderr
    refine ⟨?_, hp.observed_of_isOver hover⟩
    rw [← Option.some_inj.1 ho, hout, herr]
    rfl
  next => cases ho

namespace Outcome

/-- **What the user is told of a run** that ended with an exit code, or by a signal, after it had
written these bytes to its two streams. The alert speaks of a success exactly if the code is zero,
and then of nothing else; otherwise it is an error, explained by the last lines of the streams, and
never blank. This is so in whatever order the readers and the observer act, in whatever pieces the
output comes, and whoever watches. -/
theorem alert_of_run (tailLines : Nat) (code : Option Int) (data : OutputStream → Bytes)
    (operation : String) :
    let Told (o : Outcome) : Prop :=
      Reports operation (code.getD signalCode) (lastLines tailLines (data .stdout))
        (lastLines tailLines (data .stderr)) (o.alert operation)
    (∀ steps p, (Pipes.ofStreams tailLines (data .stdout) (data .stderr)).steps? steps = some p →
      ∀ o, p.outcome? code = some o → Told o) ∧
    ∀ {σ : Type} (i : Invocation) (observe : σ → OutputLine → OnHost σ) (s : σ) (h : Host)
      (writes : List (OutputStream × Bytes)), (∀ s, bytesOf s writes = data s) →
        Told ((i.follow tailLines { writes, ending := .ended code } observe s).run h).1.1 := by
  intro Told
  have htold {lines : List OutputLine} (hlines : ∀ s, textsOf s lines = lineTexts (data s)) :
      Told (.ofRun tailLines code lines) := by
    rw [ofRun_eq_ofStreams hlines]
    exact reports_ofExit operation _ _ _
  constructor
  · intro steps p hsteps o ho
    have hp := (Pipes.invariant_ofStreams tailLines data).steps hsteps
    obtain ⟨rfl, hlines⟩ := hp.outcome_eq ho
    exact htold hlines
  · intro σ i observe s h writes hwrites
    rw [Invocation.outcome_follow_ended rfl rfl]
    refine htold fun s => ?_
    rw [textsOf_linesOf, hwrites]

/-- The error output has a line that says what went wrong, but only the blank one behind it is kept;
so the last line of the output has to explain the failure. -/
theorem alert_of_run_blankTail :
    let data : OutputStream → Bytes
      | .stdout => encode " busy \n"
      | .stderr => encode "no room\n\n"
    let writes := [(.stderr, encode "no ro"), (.stdout, encode " busy"), (.stderr, encode "om\n\n"),
      (.stdout, encode " \n")]
    (∃ p o, (Pipes.ofStreams 1 (data .stdout) (data .stderr)).steps?
        [.send .stderr, .send .stdout, .leave .stdout, .receive, .send .stderr, .receive,
          .leave .stderr, .receive] = some p ∧
      p.outcome? (some 3) = some o ∧ Reports "Export" 3 " busy " "" (o.alert "Export")) ∧
    (∀ s, bytesOf s writes = data s) ∧
    ∀ h, Reports "Export" 3 " busy " "" (Outcome.alert (((default : Invocation).follow 1
      { writes, ending := .ended (some 3) } (fun n _ => pure (n + 1)) 0).run h).1.1 "Export") := by
  intro data writes
  have hout : lastLines 1 (data .stdout) = " busy " := by decide +kernel
  have herr : lastLines 1 (data .stderr) = "" := by decide +kernel
  have hwrites : ∀ s, bytesOf s writes = data s := fun s => by cases s <;> decide +kernel
  obtain ⟨hsteps, hfollow⟩ := alert_of_run 1 (some 3) data "Export"
  rw [hout, herr] at hsteps hfollow
  have hover : (Pipes.ofStreams 1 (data .stdout) (data .stderr)).steps?
      [.send .stderr, .send .stdout, .leave .stdout, .receive, .send .stderr, .receive,
        .leave .stderr, .receive] =
      some { out := ⟨[], false, ⟨1, [" busy "]⟩⟩, err := ⟨[], false, ⟨1, [""]⟩⟩
             observed := [⟨.stderr, "no room"⟩, ⟨.stdout, " busy "⟩, ⟨.stderr, ""⟩] } := by
    decide +kernel
  exact ⟨⟨_, .ofExit 3 " busy " "", hover, by decide +kernel, hsteps _ _ hover _ (by decide +kernel)⟩,
    hwrites, fun h => hfollow default (fun n _ => pure (n + 1)) 0 h writes hwrites⟩

end Outcome

end ExportDesk
