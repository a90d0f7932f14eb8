import ExportDesk.Proofs.Text.Blank
import ExportDesk.Tool.Pipes
import Mathlib.Data.List.DropRight

/-!
# Tails hold the last lines

`Tail.ofLines_lines`: after any number of lines, a tail holds the last of them, as many as it has
room for. One more line keeps that true (`Tail.push_lines`). When a tail is cleared it begins again,
so that after any calls it is the tail of the lines since then (`Tail.performAll_eq_ofLines`), and
`Tail.performAll_ofCapacity` says what there is to see of it.
-/

namespace ExportDesk

theorem Tail.push_lines {t : Tail} {ls : List String} (hpos : 0 < t.capacity)
    (h : t.lines = ls.rtake t.capacity) (l : String) :
    (t.push l).lines = (ls ++ [l]).rtake t.capacity := by
  simp only [List.rtake, List.length_append, List.length_singleton] at h ⊢
  have hlen : t.lines.length = min t.capacity ls.length := by
    rw [h, List.length_drop]; omega
  by_cases hfull : t.capacity ≤ t.lines.length
  · have hdrop : ls.length + 1 - t.capacity = ls.length - t.capacity + 1 := by omega
    rw [Tail.push, if_pos hfull, hdrop, List.drop_append_of_le_length (by omega)]
    simp [h, List.drop_drop]
  · have hdrop : ls.length - t.capacity = 0 := by omega
    have hdrop' : ls.length + 1 - t.capacity = 0 := by omega
    rw [Tail.push, if_neg hfull, hdrop', List.drop_zero]
    simpa [hdrop] using h

@[simp] theorem Tail.push_capacity (t : Tail) (l : String) : (t.push l).capacity = t.capacity := by
  unfold Tail.push
  split <;> rfl

theorem Tail.ofLines_concat (capacity : Nat) (ls : List String) (l : String) :
    Tail.ofLines capacity (ls ++ [l]) = (Tail.ofLines capacity ls).push l := by
  simp [Tail.ofLines]

@[simp] theorem Tail.ofLines_capacity (capacity : Nat) (ls : List String) :
    (Tail.ofLines capacity ls).capacity = max capacity 1 := by
  induction ls using List.reverseRecOn with
  | nil => rfl
  | append_singleton ls l ih => rw [Tail.ofLines_concat, Tail.push_capacity, ih]

theorem Tail.clear_ofLines (capacity : Nat) (ls : List String) :
    (Tail.ofLines capacity ls).clear = Tail.ofLines capacity [] := by
  unfold Tail.clear
  rw [Tail.ofLines_capacity]
  rfl

/-- A tail holds the last of the lines it was given. -/
theorem Tail.ofLines_lines (capacity : Nat) (ls : List String) :
    (Tail.ofLines capacity ls).lines = ls.rtake (max capacity 1) := by
  induction ls using List.reverseRecOn with
  | nil => simp [Tail.ofLines, Tail.ofCapacity]
  | append_singleton ls l ih =>
    have hcap := Tail.ofLines_capacity capacity ls
    rw [Tail.ofLines_concat, ← hcap]
    exact Tail.push_lines (by rw [hcap]; omega) (by rw [hcap, ih]) l

/-! ## Calls of a tail -/

/-- What can be done to a tail. -/
inductive TailCall where
  | push (line : String)
  | clear
deriving DecidableEq, Repr

/-- The line that a call adds. -/
def TailCall.line? : TailCall → Option String
  | .push line => some line
  | .clear => none

/-- The lines that were pushed since the tail was cleared the last time. -/
def pushedSinceClear (calls : List TailCall) : List String :=
  (calls.rtakeWhile (· ≠ .clear)).filterMap TailCall.line?

theorem pushedSinceClear_push (calls : List TailCall) (line : String) :
    pushedSinceClear (calls ++ [.push line]) = pushedSinceClear calls ++ [line] := by
  unfold pushedSinceClear
  rw [List.rtakeWhile_concat_pos _ _ _ (by simp), List.filterMap_append]
  rfl

theorem pushedSinceClear_clear (calls : List TailCall) :
    pushedSinceClear (calls ++ [.clear]) = [] := by
  unfold pushedSinceClear
  rw [List.rtakeWhile_concat_neg _ _ _ (by decide)]
  rfl

namespace Tail

def perform (t : Tail) : TailCall → Tail
  | .push line => t.push line
  | .clear => t.clear

/-- Calls one after the other. -/
def performAll (t : Tail) (calls : List TailCall) : Tail := calls.foldl perform t

/-- One call. -/
theorem perform_ofLines (capacity : Nat) (calls : List TailCall) (call : TailCall) :
    (ofLines capacity (pushedSinceClear calls)).perform call =
      ofLines capacity (pushedSinceClear (calls ++ [call])) := by
  cases call with
  | push line =>
    rw [pushedSinceClear_push, ofLines_concat]
    rfl
  | clear =>
    rw [pushedSinceClear_clear]
    exact clear_ofLines capacity _

/-- **Any number of calls.** What was pushed before the last clearing has left no trace. -/
theorem performAll_eq_ofLines (capacity : Nat) (calls : List TailCall) :
    (ofCapacity capacity).performAll calls = ofLines capacity (pushedSinceClear calls) := by
  induction calls using List.reverseRecOn with
  | nil => rfl
  | append_singleton calls call ih =>
    rw [performAll, List.foldl_append]
    show ((ofCapacity capacity).performAll calls).perform call = _
    rw [ih, perform_ofLines]

theorem isBlank_joined (t : Tail) : Text.isBlank t.joined = t.isBlank :=
  Text.isBlank_intercalate (by decide) t.lines

/-- **What there is to see of a tail.** Whatever its capacity, after any calls it holds the last
lines that were pushed since it was cleared, one at least and no more than it has room for, the
oldest first. Joined they stand one below the other, and the tail is blank exactly if nothing shows
in that text. -/
theorem performAll_ofCapacity (capacity : Nat) (calls : List TailCall) :
    let t := (ofCapacity capacity).performAll calls
    let pushed := pushedSinceClear calls
    t.lines = pushed.rtake (max 1 capacity) ∧
      t.lines.length = min (max 1 capacity) pushed.length ∧
      t.joined = "\n".intercalate (pushed.rtake (max 1 capacity)) ∧
      (t.isBlank = true ↔ ∀ c ∈ t.joined.toList, Text.isBlankChar c = true) := by
  intro t pushed
  have hlines : t.lines = pushed.rtake (max 1 capacity) := by
    rw [Nat.max_comm, ← ofLines_lines]
    exact congrArg Tail.lines (performAll_eq_ofLines capacity calls)
  refine ⟨hlines, ?_, congrArg _ hlines, ?_⟩
  · rw [hlines, List.rtake, List.length_drop]
    omega
  · rw [← isBlank_joined]
    exact List.all_eq_true

end Tail

end ExportDesk
