import ExportDesk.Text.Lines
import Mathlib.Data.List.Basic

/-!
# Lines put together again

`join_lines`: a text without carriage returns whose last line is ended is what its lines make, each
with a line feed behind it.
-/

namespace ExportDesk.Text

/-- The characters are empty, or a line end is the last of them. -/
def EndsLine (cs : List Char) : Prop := ∀ c ∈ cs.getLast?, c = '\n'

theorem EndsLine.append {cs ds : List Char} (hcs : EndsLine cs) (hds : EndsLine ds) :
    EndsLine (cs ++ ds) := by
  intro c hc
  cases ds with
  | nil =>
    rw [List.append_nil] at hc
    exact hcs c hc
  | cons d ds =>
    rw [List.getLast?_append_of_ne_nil _ (List.cons_ne_nil d ds)] at hc
    exact hds c hc

theorem endsLine_flatMap {α : Type} {f : α → List Char} {xs : List α}
    (h : ∀ x ∈ xs, EndsLine (f x)) : EndsLine (xs.flatMap f) := by
  induction xs with
  | nil => exact nofun
  | cons x xs ih =>
    rw [List.flatMap_cons]
    exact (h x List.mem_cons_self).append (ih fun y hy => h y (List.mem_cons_of_mem _ hy))

theorem endedLine_of_not_mem {line : List Char} (h : '\r' ∉ line) :
    endedLine line = line.reverse := by
  unfold endedLine
  split
  · exact absurd List.mem_cons_self h
  · rfl

/-- The lines of the rest of a text, with the beginning of the first line seen already. -/
theorem flatMap_linesFrom {line cs : List Char} (hline : '\r' ∉ line) (hcs : '\r' ∉ cs)
    (hend : EndsLine cs) (hopen : cs = [] → line = []) :
    (linesFrom line cs).flatMap (· ++ ['\n']) = line.reverse ++ cs := by
  induction cs generalizing line with
  | nil =>
    obtain rfl := hopen rfl
    rfl
  | cons c cs ih =>
    obtain ⟨hc, hcs⟩ := not_or.1 (mt List.mem_cons.2 hcs)
    have hlater : EndsLine cs := by
      intro d hd
      cases cs with
      | nil => cases hd
      | cons e cs => exact hend d (by rwa [List.getLast?_cons_cons])
    rw [linesFrom]
    split
    next hfeed =>
      rw [List.flatMap_cons, endedLine_of_not_mem hline, ih List.not_mem_nil hcs hlater fun _ => rfl,
        hfeed]
      simp
    next hfeed =>
      rw [ih ?_ hcs hlater ?_]
      · simp
      · rw [List.mem_cons, not_or]
        exact ⟨hc, hline⟩
      · rintro rfl
        exact absurd (hend c rfl) hfeed

/-- **Lines make the text** that they are of, if it holds no carriage return and ends its last
line. -/
theorem join_lines {s : String} (hreturn : '\r' ∉ s.toList) (hend : EndsLine s.toList) :
    String.join ((lines s).map (· ++ "\n")) = s := by
  have hlines : (linesFrom [] s.toList).flatMap (· ++ ['\n']) = s.toList :=
    flatMap_linesFrom List.not_mem_nil hreturn hend fun _ => rfl
  apply String.toList_inj.1
  rw [String.toList_join, lines, List.map_map, List.flatMap_map]
  refine .trans (List.flatMap_congr fun l _ => ?_) hlines
  simp

/-- A carriage return before a line end is not kept. -/
example : lines "a\r\nb\n\nc" = ["a", "b", "", "c"] := by decide

end ExportDesk.Text
