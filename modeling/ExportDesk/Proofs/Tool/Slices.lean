import ExportDesk.Tool.Reading
import Mathlib.Tactic.Set

/-!
# Lines do not depend on slices

`readLines_eq`: whatever a reader shows on each turn, and however the stream ends, the lines are
those of the whole data, `wholeChunks`, each decoded on its own; without their ends they are the
data without its line ends.

A splitter between two turns stands for the chunks that it still owes of the rest of the data
(`Splitter.owed`). A turn gives what it hands on and leaves the rest owed (`Splitter.step_owed`),
so any number of turns does (`Splitter.readSteps_owed`).
-/

namespace ExportDesk

open Text

/-! ## The whole data -/

/-- Of the byte before, it matters only whether it is a carriage return. -/
theorem wholeChunksFrom_none {previous : Option UInt8} (h : previous ≠ some carriageReturn)
    (pending data : Bytes) :
    wholeChunksFrom pending previous data = wholeChunksFrom pending none data := by
  cases data with
  | nil => rfl
  | cons b bs =>
    have hp : (previous == some carriageReturn) = false := by simpa using h
    simp [wholeChunksFrom, hp]

theorem ne_return_of_not_endsChunk {b : UInt8} (h : endsChunk b = false) :
    some b ≠ some carriageReturn := by
  intro hb
  simp [Option.some.inj hb, endsChunk] at h

/-- A byte that ends nothing joins the pending run, if the run stays short of the limit. -/
theorem wholeChunksFrom_cons {b : UInt8} (hb : endsChunk b = false) {pending : Bytes}
    (h : pending.length + 1 < maxChunk) (previous : Option UInt8) (data : Bytes) :
    wholeChunksFrom pending previous (b :: data) =
      wholeChunksFrom (pending ++ [b]) none data := by
  have hends := hb
  simp only [endsChunk, Bool.or_eq_false_iff] at hends
  have hlen : (pending.length + 1 == maxChunk) = false := by
    rw [beq_eq_false_iff_ne]; omega
  rw [wholeChunksFrom, if_neg (by simp [hends.2]), if_neg (by simp [hends.1]),
    if_neg (by simp [hlen]), wholeChunksFrom_none (ne_return_of_not_endsChunk hb)]

/-- A byte that ends nothing but fills the pending run up ends the chunk. -/
theorem wholeChunksFrom_cons_full {b : UInt8} (hb : endsChunk b = false) {pending : Bytes}
    (h : pending.length + 1 = maxChunk) (previous : Option UInt8) (data : Bytes) :
    wholeChunksFrom pending previous (b :: data) =
      (pending ++ [b]) :: wholeChunksFrom [] none data := by
  have hends := hb
  simp only [endsChunk, Bool.or_eq_false_iff] at hends
  rw [wholeChunksFrom, if_neg (by simp [hends.2]), if_neg (by simp [hends.1]),
    if_pos (by simp [h]), wholeChunksFrom_none (ne_return_of_not_endsChunk hb)]

/-- The byte before matters no more once the run has grown. -/
def previousAfter (run : Bytes) (previous : Option UInt8) : Option UInt8 :=
  if run.isEmpty then previous else none

/-- A run of bytes that end nothing joins the pending run, if that stays short of the limit. -/
theorem wholeChunksFrom_run {run : Bytes} (hrun : ∀ b ∈ run, endsChunk b = false)
    {pending : Bytes} (h : pending.length + run.length < maxChunk) (previous : Option UInt8)
    (data : Bytes) :
    wholeChunksFrom pending previous (run ++ data) =
      wholeChunksFrom (pending ++ run) (previousAfter run previous) data := by
  induction run generalizing pending previous with
  | nil => simp [previousAfter]
  | cons b run ih =>
    have hb : endsChunk b = false := hrun b (by simp)
    simp only [List.length_cons] at h
    rw [List.cons_append, wholeChunksFrom_cons hb (by omega),
      ih (fun x hx => hrun x (by simp [hx])) (by simp; omega)]
    cases run <;> simp [previousAfter]

/-- A run of bytes that end nothing and fill the pending run up ends the chunk. -/
theorem wholeChunksFrom_run_full {run : Bytes} (hrun : ∀ b ∈ run, endsChunk b = false)
    (hne : run ≠ []) {pending : Bytes} (h : pending.length + run.length = maxChunk)
    (previous : Option UInt8) (data : Bytes) :
    wholeChunksFrom pending previous (run ++ data) =
      (pending ++ run) :: wholeChunksFrom [] none data := by
  obtain ⟨front, b, rfl⟩ : ∃ front b, run = front ++ [b] :=
    ⟨_, _, (List.dropLast_concat_getLast hne).symm⟩
  simp only [List.length_append, List.length_singleton] at h
  rw [List.append_assoc, wholeChunksFrom_run (fun x hx => hrun x (by simp [hx])) (by omega),
    List.singleton_append, wholeChunksFrom_cons_full (hrun b (by simp)) (by simp; omega),
    List.append_assoc]

/-- The chunks put together are the data without the bytes that end chunks. A pending run is lost
only at a line feed behind a carriage return, and there none is pending. -/
theorem flatten_wholeChunksFrom (data : Bytes) :
    ∀ (pending : Bytes) (previous : Option UInt8),
      (previous = some carriageReturn → pending = []) →
        (wholeChunksFrom pending previous data).flatten =
          pending ++ data.filter (!endsChunk ·) := by
  induction data with
  | nil => intro pending _ _; cases pending <;> simp [wholeChunksFrom]
  | cons b bs ih =>
    intro pending previous h
    by_cases hcr : b = carriageReturn
    · subst hcr
      have hends : endsChunk carriageReturn = true := rfl
      cases pending <;> simp [wholeChunksFrom, ih [] _ (fun _ => rfl), hends]
    · by_cases hlf : b = lineFeed
      · subst hlf
        have hends : endsChunk lineFeed = true := rfl
        by_cases hprev : previous = some carriageReturn
        · simp [wholeChunksFrom, hcr, hprev, h hprev, ih [] _ (fun _ => rfl), hends]
        · simp [wholeChunksFrom, hcr, hprev, ih [] _ (fun _ => rfl), hends]
      · have hends : endsChunk b = false := by simp [endsChunk, hcr, hlf]
        have hne : some b = some carriageReturn → pending ++ [b] = [] :=
          fun e => absurd e (ne_return_of_not_endsChunk hends)
        by_cases hfull : pending.length + 1 = maxChunk
        · simp [wholeChunksFrom, hcr, hlf, hfull, ih [] _ (fun _ => rfl), hends]
        · simp [wholeChunksFrom, hcr, hlf, hfull, ih _ _ hne, hends]

/-! ## One turn -/

theorem takeRun_isPrefix (room : Nat) (slice : Bytes) :
    slice = takeRun room slice ++ slice.drop (takeRun room slice).length := by
  fun_induction takeRun room slice with
  | case1 => rfl
  | case2 => rfl
  | case3 => rfl
  | case4 room b bs _ ih => simpa using ih

theorem length_takeRun_le (room : Nat) (slice : Bytes) : (takeRun room slice).length ≤ room := by
  fun_induction takeRun room slice with
  | case1 => simp
  | case2 => simp
  | case3 => simp
  | case4 room b bs _ ih => simpa using ih

theorem not_endsChunk_of_mem_takeRun {room : Nat} {slice : Bytes} :
    ∀ b ∈ takeRun room slice, endsChunk b = false := by
  fun_induction takeRun room slice with
  | case1 => simp
  | case2 => simp
  | case3 => simp
  | case4 room b bs hb ih => simpa [hb] using ih

/-- What stops a run before its room is used up is the end of the slice or of a chunk. -/
theorem endsChunk_of_takeRun_lt {room : Nat} {slice : Bytes}
    (h : (takeRun room slice).length < room) {b : UInt8}
    (hb : (slice.drop (takeRun room slice).length).head? = some b) : endsChunk b = true := by
  fun_induction takeRun room slice with
  | case1 => simp at h
  | case2 => simp at hb
  | case3 room c cs hc => simp_all
  | case4 room c cs _ ih => exact ih (by simpa using h) (by simpa using hb)

namespace Splitter

/-- The pending chunk is short of the limit. -/
def HasRoom (s : Splitter) : Prop := s.pending.size < maxChunk

theorem hasRoom_default : HasRoom {} := by simp [HasRoom, maxChunk]

/-- What a turn can do: a run `run` is followed by a byte that ends the chunk, or fills the chunk
up, or is all there is. -/
theorem step_cases {s : Splitter} (hs : s.HasRoom) (slice : Bytes) :
    ∃ run after, slice = run ++ after ∧ (∀ b ∈ run, endsChunk b = false) ∧
      ((∃ more, after = carriageReturn :: more ∧ s.pending.size + run.length < maxChunk ∧
          s.step slice = (run.length + 1,
            if s.pending.toList ++ run = [] then none else some (s.pending.toList ++ run),
            ⟨#[], true⟩)) ∨
        (∃ more, after = lineFeed :: more ∧ s.pending.size + run.length < maxChunk ∧
          s.step slice = (run.length + 1,
            if s.pending.toList ++ run = [] ∧ s.afterReturn then none
            else some (s.pending.toList ++ run),
            ⟨#[], false⟩)) ∨
        (s.pending.size + run.length = maxChunk ∧ run ≠ [] ∧
          s.step slice = (run.length, some (s.pending.toList ++ run), ⟨#[], false⟩)) ∨
        (after = [] ∧ s.pending.size + run.length < maxChunk ∧
          s.step slice = (run.length, none, ⟨s.pending ++ run.toArray, s.afterReturn⟩))) := by
  have hroom : s.pending.size < maxChunk := hs
  set run := takeRun (maxChunk - s.pending.size) slice with hrun
  have hle : run.length ≤ maxChunk - s.pending.size := length_takeRun_le _ _
  have hnil : ((s.pending ++ run.toArray).isEmpty = true) ↔ s.pending.toList ++ run = [] := by
    simp [← Array.toList_eq_nil_iff]
  refine ⟨run, slice.drop run.length, takeRun_isPrefix _ _, not_endsChunk_of_mem_takeRun, ?_⟩
  by_cases hlt : run.length < maxChunk - s.pending.size
  · cases hafter : slice.drop run.length with
    | nil =>
      refine .inr (.inr (.inr ⟨rfl, by omega, ?_⟩))
      have hsmall : ¬ maxChunk ≤ s.pending.size + run.length := by omega
      simp [step, ← hrun, hlt, hafter, hsmall]
    | cons b more =>
      have hb : endsChunk b = true := endsChunk_of_takeRun_lt hlt (by rw [← hrun, hafter]; rfl)
      by_cases hcr : b = carriageReturn
      · subst hcr
        refine .inl ⟨more, rfl, by omega, ?_⟩
        simp [step, ← hrun, hlt, hafter, hnil]
      · have hlf : b = lineFeed := by simpa [endsChunk, hcr] using hb
        subst hlf
        refine .inr (.inl ⟨more, rfl, by omega, ?_⟩)
        simp [step, ← hrun, hlt, hafter, hcr, hnil]
  · have hfull : s.pending.size + run.length = maxChunk := by omega
    have hne : run ≠ [] := by
      intro h
      simp [h] at hfull
      omega
    refine .inr (.inr (.inl ⟨hfull, hne, ?_⟩))
    simp [step, ← hrun, hlt, hfull]

/-- The byte right before the rest of a stream, as far as it matters. -/
def previous (s : Splitter) : Option UInt8 :=
  if s.pending.isEmpty && s.afterReturn then some carriageReturn else none

theorem previous_eq_return_iff (s : Splitter) :
    s.previous = some carriageReturn ↔ s.pending.toList = [] ∧ s.afterReturn = true := by
  simp [previous, ← Array.toList_eq_nil_iff]

/-- The chunks that the rest of a stream still gives. -/
def owed (s : Splitter) (rest : Bytes) : List Bytes :=
  wholeChunksFrom s.pending.toList s.previous rest

theorem owed_nil (s : Splitter) : s.owed [] = s.finish := by
  simp [owed, wholeChunksFrom, finish, ← Array.toList_eq_nil_iff]

/-- **One turn.** It uses up a part of the slice, keeps room in the pending chunk, and hands on the
first of the chunks that were owed. -/
theorem step_owed {s : Splitter} (hs : s.HasRoom) {slice : Bytes} (hne : slice ≠ [])
    (data : Bytes) :
    0 < (s.step slice).1 ∧ (s.step slice).1 ≤ slice.length ∧ (s.step slice).2.2.HasRoom ∧
      s.owed (slice ++ data) =
        (s.step slice).2.1.toList ++
          (s.step slice).2.2.owed (slice.drop (s.step slice).1 ++ data) := by
  obtain ⟨run, after, rfl, hrun, h⟩ := s.step_cases hs slice
  obtain ⟨more, rfl, hlt, h⟩ | ⟨more, rfl, hlt, h⟩ | ⟨hfull, hrne, h⟩ | ⟨rfl, hlt, h⟩ := h
  · -- a carriage return
    rw [h]
    refine ⟨by simp, by simp, hasRoom_default, ?_⟩
    have hdrop : (run ++ carriageReturn :: more).drop (run.length + 1) = more := by simp
    rw [owed, List.append_assoc, wholeChunksFrom_run hrun (by simpa using hlt), hdrop]
    simp only [List.cons_append, wholeChunksFrom, beq_self_eq_true, if_true, owed, previous]
    by_cases hc : s.pending.toList ++ run = [] <;> simp [hc]
  · -- a line feed
    rw [h]
    refine ⟨by simp, by simp, hasRoom_default, ?_⟩
    have hdrop : (run ++ lineFeed :: more).drop (run.length + 1) = more := by simp
    have hprev : previousAfter run s.previous = some carriageReturn ↔
        s.pending.toList ++ run = [] ∧ s.afterReturn = true := by
      cases run with
      | nil => simpa [previousAfter] using s.previous_eq_return_iff
      | cons b run => simp [previousAfter]
    rw [owed, List.append_assoc, wholeChunksFrom_run hrun (by simpa using hlt), hdrop,
      List.cons_append, wholeChunksFrom, if_neg (by decide), if_pos (by decide),
      wholeChunksFrom_none (by decide)]
    by_cases hc : s.pending.toList ++ run = [] ∧ s.afterReturn = true
    · rw [if_pos (beq_iff_eq.2 (hprev.2 hc)), if_pos hc]
      simp [owed, previous]
    · rw [if_neg (by simpa using mt hprev.1 hc), if_neg hc]
      simp [owed, previous]
  · -- the chunk is full
    rw [h]
    refine ⟨List.length_pos_iff.2 hrne, by simp, hasRoom_default, ?_⟩
    rw [owed, List.append_assoc, wholeChunksFrom_run_full hrun hrne (by simpa using hfull)]
    simp [owed, previous]
  · -- the slice is used up
    rw [h]
    simp only [List.append_nil] at hne ⊢
    refine ⟨List.length_pos_iff.2 hne, Nat.le_refl _, by simpa [HasRoom] using hlt, ?_⟩
    rw [owed, wholeChunksFrom_run hrun (by simpa using hlt)]
    cases run with
    | nil => exact absurd rfl hne
    | cons b run => simp [owed, previous, previousAfter, ← Array.toList_eq_nil_iff]

/-- One turn of a reader, whatever comes behind what is left of its stream. -/
theorem turn_owed {s : Splitter} (hs : s.HasRoom) {b : ByteSource} (hslice : b.slice ≠ [])
    (data : Bytes) :
    0 < (s.step b.slice).1 ∧ (s.step b.slice).1 ≤ b.slice.length ∧ (s.step b.slice).2.2.HasRoom ∧
      s.owed (b.rest ++ data) =
        (s.step b.slice).2.1.toList ++
          (s.step b.slice).2.2.owed ((b.consume (s.step b.slice).1).rest ++ data) := by
  have hrest : b.rest = b.slice ++ b.rest.drop (b.shown 0 + 1) :=
    (List.take_append_drop _ _).symm
  obtain ⟨hpos, hle, hroom, howed⟩ := step_owed hs hslice (b.rest.drop (b.shown 0 + 1) ++ data)
  have hdrop : b.slice.drop (s.step b.slice).1 ++ b.rest.drop (b.shown 0 + 1) =
      (b.consume (s.step b.slice).1).rest := by
    rw [ByteSource.consume, ← List.drop_append_of_le_length hle, ← hrest]
  rw [← List.append_assoc, ← hrest, ← List.append_assoc, hdrop] at howed
  exact ⟨hpos, hle, hroom, howed⟩

/-! ## Many turns -/

/-- **Any number of turns.** However much is shown on each, the turns hand on the first of the
chunks that were owed. -/
theorem readSteps_owed (fuel : Nat) {s : Splitter} (hs : s.HasRoom) (b : ByteSource)
    (hfuel : b.rest.length ≤ fuel) (data : Bytes) :
    (readSteps fuel s b).2.HasRoom ∧
      s.owed (b.rest ++ data) = (readSteps fuel s b).1 ++ (readSteps fuel s b).2.owed data := by
  induction fuel generalizing s b with
  | zero =>
    have hnil : b.rest = [] := List.eq_nil_of_length_eq_zero (by omega)
    simpa [readSteps, hnil] using hs
  | succ fuel ih =>
    by_cases hnil : b.rest = []
    · simpa [readSteps, ByteSource.slice, hnil] using hs
    · have hslice : b.slice ≠ [] := by simpa [ByteSource.slice] using hnil
      obtain ⟨hpos, -, hroom, howed⟩ := turn_owed hs hslice data
      obtain ⟨hlast, hall⟩ := ih hroom (b.consume (s.step b.slice).1) (by
        simp only [ByteSource.consume, List.length_drop]; omega)
      rw [readSteps, if_neg (by simpa using hslice)]
      refine ⟨hlast, ?_⟩
      rw [howed, hall, ← List.append_assoc]

/-- Taking a slice in is reading it with all of it shown. -/
theorem feedSteps_eq_readSteps (fuel : Nat) (s : Splitter) (b : ByteSource)
    (h : ∀ turn, b.rest.length ≤ b.shown turn) :
    feedSteps fuel s b.rest = readSteps fuel s b := by
  induction fuel generalizing s b with
  | zero => rfl
  | succ fuel ih =>
    have hslice : b.slice = b.rest :=
      List.take_of_length_le (Nat.le_succ_of_le (h 0))
    have hnext := fun s' => ih s' (b.consume (s.step b.rest).1) fun turn => by
      simp only [ByteSource.consume, List.length_drop]
      exact Nat.le_trans (Nat.sub_le _ _) (h (turn + 1))
    simp only [feedSteps, readSteps, hslice]
    split
    · rfl
    · rw [← hnext]; rfl

/-- A slice that is taken in gives the first of the chunks that were owed. -/
theorem feed_owed {s : Splitter} (hs : s.HasRoom) (slice data : Bytes) :
    (s.feed slice).2.HasRoom ∧
      s.owed (slice ++ data) = (s.feed slice).1 ++ (s.feed slice).2.owed data := by
  rw [feed, feedSteps_eq_readSteps slice.length s ⟨slice, fun _ => slice.length, .closed⟩
    fun _ => Nat.le_refl _]
  exact readSteps_owed _ hs ⟨slice, fun _ => slice.length, .closed⟩ (Nat.le_refl _) data

theorem run_owed {s : Splitter} (hs : s.HasRoom) (slices : List Bytes) :
    s.run slices = s.owed slices.flatten := by
  induction slices generalizing s with
  | nil => simp [run, owed_nil]
  | cons slice slices ih =>
    obtain ⟨hroom, howed⟩ := feed_owed hs slice slices.flatten
    rw [run, List.flatten_cons, howed, ← ih hroom]

end Splitter

theorem owed_default (data : Bytes) : Splitter.owed {} data = wholeChunks data := rfl

/-- The chunks of a stream do not depend on its slices. -/
theorem chunksOfSlices_eq_wholeChunks (slices : List Bytes) :
    chunksOfSlices slices = wholeChunks slices.flatten :=
  Splitter.run_owed Splitter.hasRoom_default slices

/-! ## A stream read to its end -/

/-- However the stream ends, nothing that was read before is lost. -/
theorem readLines_run (stream : OutputStream) (b : ByteSource) (host : Host) :
    ((readLines stream b).run host).1 = Streams.asLines stream (wholeChunks b.rest) := by
  obtain ⟨-, howed⟩ :=
    Splitter.readSteps_owed b.rest.length Splitter.hasRoom_default b (Nat.le_refl _) []
  rw [List.append_nil, owed_default, Splitter.owed_nil] at howed
  rw [howed]
  cases hend : b.ending with
  | closed => simp only [readLines, hend]; rfl
  | failed e => simp only [readLines, hend]; rfl

/-- **Lines do not depend on slices.** Whatever the reader shows on each turn, and whether the
stream is closed or fails in the end, its lines are the chunks of the whole data, each decoded on
its own; slices that are taken in one after the other give the same chunks. Put together, they are
the data without its line ends. -/
theorem readLines_eq (stream : OutputStream) (b : ByteSource) (host : Host) :
    ((readLines stream b).run host).1 = Streams.asLines stream (wholeChunks b.rest) ∧
      (∀ slices : List Bytes, chunksOfSlices slices = wholeChunks slices.flatten) ∧
      (wholeChunks b.rest).flatten = b.rest.filter (!endsChunk ·) := by
  refine ⟨readLines_run stream b host, ?_, ?_⟩
  · exact chunksOfSlices_eq_wholeChunks
  · exact flatten_wholeChunksFrom b.rest [] none (fun _ => rfl)

end ExportDesk
