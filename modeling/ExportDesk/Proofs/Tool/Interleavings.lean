import ExportDesk.Proofs.Tool.Slices
import ExportDesk.Proofs.Tool.Tail
import ExportDesk.Tool.Run
import Mathlib.Tactic.Set

/-!
# Lines do not depend on who acts when

`Pipes.outcome_of_steps`: in whatever order the two readers and the observer act, of each stream
the lines observed, those in the queue and those not sent make up its lines; once the run is over
all of them have been observed, and the outcome is that of the two whole streams, `ofStreams`. The
lines that a run hands on, `linesOf`, give the same outcome.

`Pipes.Invariant` holds at the start and is kept by every step (`Invariant.step`). Each step takes
one from the work that is left (`work_step`), and as long as the run is not over some step can be
made (`Invariant.isOver_eq_false_iff`), so every run ends after the same number of steps.
-/

namespace ExportDesk

open Text

/-! ## The last lines -/

/-- The last lines of a stream, at least one, one below the other. -/
def lastLines (tailLines : Nat) (data : Bytes) : String :=
  "\n".intercalate ((lineTexts data).rtake (max tailLines 1))

theorem Tail.ofLines_joined (tailLines : Nat) (data : Bytes) :
    (Tail.ofLines tailLines (lineTexts data)).joined = lastLines tailLines data := by
  rw [Tail.joined, Tail.ofLines_lines, lastLines]

/-- The outcome of a run by its end and the two streams it wrote. -/
def Outcome.ofStreams (tailLines : Nat) (code : Option Int) (out err : Bytes) : Outcome :=
  .ofExit (code.getD signalCode) (lastLines tailLines out) (lastLines tailLines err)

/-! ## The lines of one stream -/

@[simp] theorem textsOf_nil (s : OutputStream) : textsOf s [] = [] := rfl

theorem textsOf_append (s : OutputStream) (ls ms : List OutputLine) :
    textsOf s (ls ++ ms) = textsOf s ls ++ textsOf s ms := by simp [textsOf]

theorem textsOf_cons_self (l : OutputLine) (ls : List OutputLine) :
    textsOf l.stream (l :: ls) = l.text :: textsOf l.stream ls := by simp [textsOf]

theorem textsOf_cons_ne {s : OutputStream} {l : OutputLine} (h : s ≠ l.stream)
    (ls : List OutputLine) : textsOf s (l :: ls) = textsOf s ls := by
  simp [textsOf, Ne.symm h]

theorem textsOf_asLines_self (s : OutputStream) (chunks : List Bytes) :
    textsOf s (Streams.asLines s chunks) = chunks.map decodeLossy := by
  simp [textsOf, Streams.asLines, List.filter_map, Function.comp_def]

theorem textsOf_asLines_ne {s t : OutputStream} (h : s ≠ t) (chunks : List Bytes) :
    textsOf s (Streams.asLines t chunks) = [] := by
  simp [textsOf, Streams.asLines, List.filter_map, Function.comp_def, Ne.symm h]

/-! ## The lines of a run -/

/-- What is known of one of the streams. -/
def Streams.splitter (r : Streams) : OutputStream → Splitter
  | .stdout => r.out
  | .stderr => r.err

theorem bytesOf_cons_self (s : OutputStream) (piece : Bytes)
    (writes : List (OutputStream × Bytes)) :
    bytesOf s ((s, piece) :: writes) = piece ++ bytesOf s writes := by simp [bytesOf]

theorem bytesOf_cons_ne {s t : OutputStream} (h : s ≠ t) (piece : Bytes)
    (writes : List (OutputStream × Bytes)) :
    bytesOf s ((t, piece) :: writes) = bytesOf s writes := by simp [bytesOf, Ne.symm h]

/-- A piece gives lines of its own stream, and leaves what is known of the other one. -/
theorem Streams.feed_spec (r : Streams) (s : OutputStream) (piece : Bytes) :
    (r.feed s piece).1 = Streams.asLines s ((r.splitter s).feed piece).1 ∧
      (r.feed s piece).2.splitter s = ((r.splitter s).feed piece).2 ∧
      ∀ t ≠ s, (r.feed s piece).2.splitter t = r.splitter t := by
  cases s
  · exact ⟨rfl, rfl, fun t ht => by cases t <;> [exact absurd rfl ht; rfl]⟩
  · exact ⟨rfl, rfl, fun t ht => by cases t <;> [rfl; exact absurd rfl ht]⟩

theorem Streams.textsOf_lines {r : Streams} (hr : ∀ s, (r.splitter s).HasRoom)
    (writes : List (OutputStream × Bytes)) (s : OutputStream) :
    textsOf s (r.lines writes) =
      ((r.splitter s).owed (bytesOf s writes)).map decodeLossy := by
  induction writes generalizing r with
  | nil =>
    have hnil : bytesOf s [] = [] := rfl
    rw [Streams.lines, textsOf_append, hnil, Splitter.owed_nil]
    cases s
    · rw [textsOf_asLines_self, textsOf_asLines_ne (by decide), List.append_nil]; rfl
    · rw [textsOf_asLines_self, textsOf_asLines_ne (by decide), List.nil_append]; rfl
  | cons w writes ih =>
    obtain ⟨t, piece⟩ := w
    obtain ⟨hnow, hsame, hother⟩ := r.feed_spec t piece
    obtain ⟨hroom, howed⟩ := Splitter.feed_owed (hr t) piece (bytesOf t writes)
    have hrooms : ∀ u, ((r.feed t piece).2.splitter u).HasRoom := fun u => by
      by_cases hu : u = t
      · rw [hu, hsame]; exact hroom
      · rw [hother u hu]; exact hr u
    rw [Streams.lines, textsOf_append, ih hrooms, hnow]
    by_cases hs : s = t
    · subst hs
      rw [textsOf_asLines_self, hsame, bytesOf_cons_self, howed, List.map_append]
    · rw [textsOf_asLines_ne hs, hother s hs, bytesOf_cons_ne hs, List.nil_append]

/-- The lines of a run are, stream by stream, those of the whole streams. -/
theorem textsOf_linesOf (writes : List (OutputStream × Bytes)) (s : OutputStream) :
    textsOf s (linesOf writes) = lineTexts (bytesOf s writes) := by
  rw [linesOf, Streams.textsOf_lines (fun s => by cases s <;> exact Splitter.hasRoom_default)]
  cases s <;> rfl

/-- Of the lines observed, it matters only which ones each stream has. -/
theorem Outcome.ofRun_eq_ofStreams {lines : List OutputLine} {data : OutputStream → Bytes}
    (h : ∀ s, textsOf s lines = lineTexts (data s)) (tailLines : Nat) (code : Option Int) :
    ofRun tailLines code lines = .ofStreams tailLines code (data .stdout) (data .stderr) := by
  rw [ofRun, h, h, Tail.ofLines_joined, Tail.ofLines_joined, ofStreams]

theorem Outcome.ofRun_linesOf (tailLines : Nat) (code : Option Int)
    (writes : List (OutputStream × Bytes)) :
    Outcome.ofRun tailLines code (linesOf writes) =
      .ofStreams tailLines code (bytesOf .stdout writes) (bytesOf .stderr writes) :=
  ofRun_eq_ofStreams (textsOf_linesOf writes) tailLines code

/-- Whoever watches a program to an end that is learned, the outcome is the one of its lines. -/
theorem Invocation.outcome_follow_ended {σ : Type} {i : Invocation} {tailLines : Nat}
    {run : ChildRun} {code : Option Int} {observe : σ → OutputLine → OnHost σ} {s : σ} {h : Host}
    (hpipes : run.captured = true) (hended : run.ending = .ended code) :
    ((i.follow tailLines run observe s).run h).1.1 =
      .ofRun tailLines code (linesOf run.writes) := by
  unfold follow
  simp only [hpipes, hended, Bool.not_true, Bool.false_eq_true, if_false]
  split <;> rfl

/-! ## Steps -/

namespace Pipes

/-- What every step can do, and when. -/
theorem step?_cases {p q : Pipes} {a : PipeStep} (h : p.step? a = some q) :
    (∃ s l rest, a = .send s ∧ (p.lane s).unsent = l :: rest ∧ p.queue.length < queueCapacity ∧
      q = (p.setLane s { p.lane s with unsent := rest }).enqueue ⟨s, l⟩) ∨
    (∃ s, a = .leave s ∧ (p.lane s).isOpen = true ∧ (p.lane s).unsent = [] ∧
      q = p.setLane s { p.lane s with isOpen := false }) ∨
    (∃ l rest, a = .receive ∧ p.queue = l :: rest ∧
      q = (p.setLane l.stream
        { p.lane l.stream with tail := (p.lane l.stream).tail.push l.text }).observe l rest) := by
  cases a with
  | send s =>
    simp only [step?] at h
    split at h
    · simp at h
    · rename_i l rest hunsent
      split at h
      · rename_i hroom
        exact .inl ⟨s, l, rest, rfl, hunsent, hroom, (Option.some.inj h).symm⟩
      · simp at h
  | leave s =>
    simp only [step?] at h
    split at h
    · rename_i hleave
      simp only [Bool.and_eq_true, List.isEmpty_iff] at hleave
      exact .inr (.inl ⟨s, rfl, hleave.1, hleave.2, (Option.some.inj h).symm⟩)
    · simp at h
  | receive =>
    simp only [step?] at h
    split at h
    · simp at h
    · rename_i l rest hqueue
      exact .inr (.inr ⟨l, rest, rfl, hqueue, (Option.some.inj h).symm⟩)

/-- What holds in every state of a run of two streams with these texts. -/
structure Invariant (tailLines : Nat) (texts : OutputStream → List String) (p : Pipes) : Prop where
  /-- nothing is lost, doubled or overtaken on its way -/
  conserved : ∀ s, textsOf s p.observed ++ textsOf s p.queue ++ (p.lane s).unsent = texts s
  bounded : p.queue.length ≤ queueCapacity
  /-- only a reader that has sent everything leaves -/
  left : ∀ s, (p.lane s).isOpen = false → (p.lane s).unsent = []
  /-- the lines kept of a stream are the last of those observed -/
  kept : ∀ s, (p.lane s).tail = Tail.ofLines tailLines (textsOf s p.observed)

variable {tailLines : Nat} {texts : OutputStream → List String} {p q : Pipes}

theorem Invariant.send (hp : Invariant tailLines texts p) {s : OutputStream} {l : String}
    {rest : List String} (hunsent : (p.lane s).unsent = l :: rest)
    (hroom : p.queue.length < queueCapacity) :
    Invariant tailLines texts
      ((p.setLane s { p.lane s with unsent := rest }).enqueue ⟨s, l⟩) := by
  refine ⟨fun t => ?_, by simpa using Nat.succ_le_of_lt hroom, fun t ht => ?_, fun t => ?_⟩
  · have hc := hp.conserved t
    by_cases h : t = s
    · subst h
      rw [hunsent] at hc
      simpa [textsOf_append, textsOf_cons_self ⟨t, l⟩] using hc
    · simpa [lane_setLane_ne _ h, textsOf_append, textsOf_cons_ne (l := ⟨s, l⟩) h] using hc
  · by_cases h : t = s
    · subst h
      have hnil := hp.left t (by simpa using ht)
      simp [hunsent] at hnil
    · simpa [lane_setLane_ne _ h] using hp.left t (by simpa [lane_setLane_ne _ h] using ht)
  · by_cases h : t = s
    · subst h
      simpa using hp.kept t
    · simpa [lane_setLane_ne _ h] using hp.kept t

theorem Invariant.leave (hp : Invariant tailLines texts p) {s : OutputStream}
    (hunsent : (p.lane s).unsent = []) :
    Invariant tailLines texts (p.setLane s { p.lane s with isOpen := false }) := by
  refine ⟨fun t => ?_, by simpa using hp.bounded, fun t ht => ?_, fun t => ?_⟩
  · by_cases h : t = s
    · subst h
      simpa using hp.conserved t
    · simpa [lane_setLane_ne _ h] using hp.conserved t
  · by_cases h : t = s
    · subst h
      simpa using hunsent
    · rw [lane_setLane_ne _ h] at ht ⊢
      exact hp.left t ht
  · by_cases h : t = s
    · subst h
      simpa using hp.kept t
    · simpa [lane_setLane_ne _ h] using hp.kept t

theorem Invariant.receive (hp : Invariant tailLines texts p) {l : OutputLine}
    {rest : List OutputLine} (hqueue : p.queue = l :: rest) :
    Invariant tailLines texts
      ((p.setLane l.stream
        { p.lane l.stream with tail := (p.lane l.stream).tail.push l.text }).observe l rest) := by
  refine ⟨fun t => ?_, ?_, fun t ht => ?_, fun t => ?_⟩
  · have hc := hp.conserved t
    rw [hqueue] at hc
    by_cases h : t = l.stream
    · subst h
      simpa [textsOf_append, textsOf_cons_self] using hc
    · simpa [lane_setLane_ne _ h, textsOf_append, textsOf_cons_ne h] using hc
  · have hb := hp.bounded
    rw [hqueue, List.length_cons] at hb
    rw [queue_observe]
    omega
  · by_cases h : t = l.stream
    · subst h
      simpa using hp.left _ (by simpa using ht)
    · simpa [lane_setLane_ne _ h] using hp.left t (by simpa [lane_setLane_ne _ h] using ht)
  · by_cases h : t = l.stream
    · subst h
      simp [textsOf_append, textsOf_cons_self, Tail.ofLines_concat, hp.kept]
    · simpa [lane_setLane_ne _ h, textsOf_append, textsOf_cons_ne h] using hp.kept t

/-- **One step** keeps the invariant. -/
theorem Invariant.step (hp : Invariant tailLines texts p) {a : PipeStep}
    (h : p.step? a = some q) : Invariant tailLines texts q := by
  obtain ⟨s, l, rest, -, hunsent, hroom, rfl⟩ | ⟨s, -, -, hunsent, rfl⟩ |
    ⟨l, rest, -, hqueue, rfl⟩ := step?_cases h
  · exact hp.send hunsent hroom
  · exact hp.leave hunsent
  · exact hp.receive hqueue

theorem Invariant.steps {steps : List PipeStep} (hp : Invariant tailLines texts p)
    (h : p.steps? steps = some q) : Invariant tailLines texts q := by
  induction steps generalizing p with
  | nil => exact Option.some.inj h ▸ hp
  | cons a steps ih =>
    obtain ⟨r, hr, hrest⟩ := Option.bind_eq_some_iff.1 h
    exact ih (hp.step hr) hrest

theorem invariant_ofStreams (tailLines : Nat) (data : OutputStream → Bytes) :
    Invariant tailLines (fun s => lineTexts (data s))
      (ofStreams tailLines (data .stdout) (data .stderr)) := by
  refine ⟨fun s => ?_, Nat.zero_le _, fun s hs => ?_, fun s => ?_⟩
  · cases s <;> rfl
  · cases s <;> simp [ofStreams, lane] at hs
  · cases s <;> rfl

/-! ## The end of a run -/

theorem isOver_iff (p : Pipes) :
    p.isOver = true ↔ (∀ s, (p.lane s).isOpen = false) ∧ p.queue = [] := by
  simp only [isOver, Bool.and_eq_true, Bool.not_eq_true', List.isEmpty_iff]
  refine and_congr_left fun _ => ⟨fun h s => ?_, fun h => ⟨h .stdout, h .stderr⟩⟩
  cases s
  · exact h.1
  · exact h.2

/-- In a run that is over, everything has been observed. -/
theorem Invariant.observed_of_isOver (hp : Invariant tailLines texts p) (h : p.isOver = true)
    (s : OutputStream) : textsOf s p.observed = texts s := by
  obtain ⟨hleft, hqueue⟩ := p.isOver_iff.1 h
  have hc := hp.conserved s
  rwa [hqueue, textsOf_nil, hp.left s (hleft s), List.append_nil, List.append_nil] at hc

/-- The steps that a stream still asks of its reader and the observer. -/
def laneWork (l : Lane) : Nat := 2 * l.unsent.length + l.isOpen.toNat

/-- The steps that are left. -/
def work (p : Pipes) : Nat := laneWork p.out + laneWork p.err + p.queue.length

theorem work_setLane (p : Pipes) (s : OutputStream) (l : Lane) :
    (p.setLane s l).work + laneWork (p.lane s) = p.work + laneWork l := by
  cases s <;> simp only [work, setLane, lane] <;> omega

theorem work_step {a : PipeStep} (h : p.step? a = some q) : q.work + 1 = p.work := by
  obtain ⟨s, l, rest, -, hunsent, -, rfl⟩ | ⟨s, -, hopen, -, rfl⟩ | ⟨l, rest, -, hqueue, rfl⟩ :=
    step?_cases h
  · have hw := p.work_setLane s { p.lane s with unsent := rest }
    have henq : ∀ p : Pipes, (p.enqueue ⟨s, l⟩).work = p.work + 1 := fun p => by
      simp [work, enqueue]; omega
    have hlane : laneWork { p.lane s with unsent := rest } + 2 = laneWork (p.lane s) := by
      simp only [laneWork, hunsent, List.length_cons]; omega
    rw [henq]
    omega
  · have hw := p.work_setLane s { p.lane s with isOpen := false }
    have hlane : laneWork { p.lane s with isOpen := false } + 1 = laneWork (p.lane s) := by
      simp [laneWork, hopen]
    omega
  · set lane := { p.lane l.stream with tail := (p.lane l.stream).tail.push l.text } with hlane
    have hw := p.work_setLane l.stream lane
    have hobs : ∀ p : Pipes, p.queue = l :: rest → (p.observe l rest).work + 1 = p.work :=
      fun p hp => by simp [work, observe, hp]; omega
    have hsame : laneWork lane = laneWork (p.lane l.stream) := rfl
    rw [hobs _ (by simpa using hqueue)]
    omega

/-- As long as a run is not over, some step can be made, and then no more. -/
theorem Invariant.isOver_eq_false_iff (hp : Invariant tailLines texts p) :
    p.isOver = false ↔ ∃ a q, p.step? a = some q := by
  constructor
  · intro h
    cases hqueue : p.queue with
    | cons l rest => exact ⟨.receive, _, by rw [step?, hqueue]⟩
    | nil =>
      obtain ⟨s, hs⟩ : ∃ s, (p.lane s).isOpen = true := by
        by_contra hno
        have hall : ∀ s, (p.lane s).isOpen = false := by simpa using hno
        simp [p.isOver_iff.2 ⟨hall, hqueue⟩] at h
      cases hunsent : (p.lane s).unsent with
      | nil => exact ⟨.leave s, _, by rw [step?, hs, hunsent]; rfl⟩
      | cons l rest =>
        refine ⟨.send s, (p.setLane s { p.lane s with unsent := rest }).enqueue ⟨s, l⟩, ?_⟩
        rw [step?, hunsent]
        exact if_pos (by rw [hqueue]; decide)
  · rintro ⟨a, q, h⟩
    by_contra hover
    obtain ⟨hleft, hqueue⟩ := p.isOver_iff.1 (by simpa using hover)
    obtain ⟨s, l, rest, -, hunsent, -, -⟩ | ⟨s, -, hopen, -, -⟩ | ⟨l, rest, -, hq, -⟩ :=
      step?_cases h
    · simp [hp.left s (hleft s)] at hunsent
    · simp [hleft s] at hopen
    · simp [hqueue] at hq

theorem work_steps {steps : List PipeStep} (h : p.steps? steps = some q) :
    q.work + steps.length = p.work := by
  induction steps generalizing p with
  | nil => simp [Option.some.inj h]
  | cons a steps ih =>
    obtain ⟨r, hr, hrest⟩ := Option.bind_eq_some_iff.1 h
    have hwork := work_step hr
    have hlater := ih hrest
    rw [List.length_cons]
    omega

/-- **Lines do not depend on who acts when.** After any steps of the readers and the observer, the
lines of a stream are those observed, those in the queue and those not sent, in this order, and the
queue holds no more than it has room for. There is an outcome exactly when no step can be made any
more, which is so after at most two steps a line and one for each reader; by then every line has
been observed, and the outcome is that of the exit code and the two streams. It is also the outcome
that following a program gives whose streams are there to be read, whatever pieces its output came
in, if the wait for its end succeeds. -/
theorem outcome_of_steps (tailLines : Nat) (code : Option Int) (data : OutputStream → Bytes)
    (steps : List PipeStep) (p : Pipes)
    (h : (ofStreams tailLines (data .stdout) (data .stderr)).steps? steps = some p) :
    (∀ s, textsOf s p.observed ++ textsOf s p.queue ++ (p.lane s).unsent = lineTexts (data s)) ∧
      p.queue.length ≤ queueCapacity ∧
      (∀ o, p.outcome? code = some o →
        (∀ s, textsOf s p.observed = lineTexts (data s)) ∧
          o = .ofStreams tailLines code (data .stdout) (data .stderr)) ∧
      (p.outcome? code = none ↔ ∃ a q, p.step? a = some q) ∧
      steps.length ≤
        2 * (lineTexts (data .stdout)).length + 2 * (lineTexts (data .stderr)).length + 2 ∧
      ∀ (σ : Type) (i : Invocation) (run : ChildRun) (ended : Option Int)
        (observe : σ → OutputLine → OnHost σ) (x : σ) (host : Host),
        run.captured = true → run.ending = .ended ended →
          ((i.follow tailLines run observe x).run host).1.1 =
            .ofStreams tailLines ended (bytesOf .stdout run.writes) (bytesOf .stderr run.writes) := by
  have hp := (invariant_ofStreams tailLines data).steps h
  have hwork := work_steps h
  refine ⟨hp.conserved, hp.bounded, fun o ho => ?_, ?_, ?_,
    fun σ i run ended observe x host hpipes hended => ?_⟩
  · simp only [outcome?] at ho
    split at ho
    · rename_i hover
      have hall := hp.observed_of_isOver hover
      refine ⟨hall, ?_⟩
      have hout : p.out.tail = Tail.ofLines tailLines (lineTexts (data .stdout)) :=
        (hp.kept .stdout).trans (by rw [hall])
      have herr : p.err.tail = Tail.ofLines tailLines (lineTexts (data .stderr)) :=
        (hp.kept .stderr).trans (by rw [hall])
      rw [← Option.some.inj ho, hout, herr, Tail.ofLines_joined, Tail.ofLines_joined,
        Outcome.ofStreams]
    · simp at ho
  · rw [← hp.isOver_eq_false_iff]
    simp [outcome?]
  · simp only [work, laneWork, ofStreams, Bool.toNat_true, List.length_nil] at hwork
    omega
  · rw [Invocation.outcome_follow_ended hpipes hended, Outcome.ofRun_linesOf]

/-- A run in which the line of the error output overtakes that of the output. -/
theorem outcome_of_crossed_lines :
    ∃ p, (ofStreams 1 [97, 10] [98]).steps?
        [.send .stderr, .send .stdout, .leave .stdout, .receive, .leave .stderr, .receive] =
          some p ∧
      p.outcome? (some 0) = some (.ofStreams 1 (some 0) [97, 10] [98]) := by
  have h : (ofStreams 1 [97, 10] [98]).steps?
      [.send .stderr, .send .stdout, .leave .stdout, .receive, .leave .stderr, .receive] =
        some { out := ⟨[], false, ⟨1, ["a"]⟩⟩, err := ⟨[], false, ⟨1, ["b"]⟩⟩
               observed := [⟨.stderr, "b"⟩, ⟨.stdout, "a"⟩] } := by
    decide +kernel
  obtain ⟨-, -, hout, -⟩ := outcome_of_steps 1 (some 0)
    (fun | .stdout => [97, 10] | .stderr => [98]) _ _ h
  exact ⟨_, h, congrArg some (hout (.ofExit 0 "a" "b") (by decide)).2⟩

end Pipes

end ExportDesk
