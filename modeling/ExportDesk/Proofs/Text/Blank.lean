import ExportDesk.Text.Blank
import Mathlib.Data.List.DropRight

/-!
# Texts without the blanks at their ends

`isTrimOf_trim`: trimming a text cuts blanks from both of its ends, and all of them. What is left
shows something exactly if the text does (`IsTrimOf.isBlank_eq`). What ends in something that shows
is trimmed only in front of that (`trimChars_append`).
-/

namespace ExportDesk.Text

/-- Blank characters are neither digits nor letters nor signs. -/
theorem toNat_of_isBlankChar {c : Char} (h : isBlankChar c = true) :
    c.toNat ≤ 32 ∨ 133 ≤ c.toNat := by
  simp only [isBlankChar, blankRanges, List.any_cons, List.any_nil, Bool.or_eq_true,
    Bool.and_eq_true, decide_eq_true_eq, Bool.false_eq_true, or_false] at h
  omega

/-- What is left of a text without some characters at its end does not end in one of them. -/
theorem not_of_getLast?_rdropWhile {p : Char → Bool} {cs : List Char} {c : Char}
    (h : (cs.rdropWhile p).getLast? = some c) : p c = false := by
  have hne : cs.rdropWhile p ≠ [] := by
    intro hnil
    rw [hnil] at h
    cases h
  rw [List.getLast?_eq_some_getLast hne] at h
  have hlast := List.rdropWhile_last_not p cs hne
  rw [Option.some.inj h] at hlast
  exact Bool.eq_false_iff.2 hlast

/-- What is left of a text when the blanks at both of its ends are gone. -/
structure IsTrimOf (core text : String) : Prop where
  ends : ∃ before after, text.toList = before ++ core.toList ++ after ∧
    isBlankChars before = true ∧ isBlankChars after = true
  first : ∀ c, core.toList.head? = some c → isBlankChar c = false
  last : ∀ c, core.toList.getLast? = some c → isBlankChar c = false

theorem isBlankChars_append (cs ds : List Char) :
    isBlankChars (cs ++ ds) = (isBlankChars cs && isBlankChars ds) := List.all_append

theorem isBlank_append (s t : String) : isBlank (s ++ t) = (isBlank s && isBlank t) := by
  unfold isBlank
  rw [String.toList_append, isBlankChars_append]

/-- A text put together with blanks in between shows something exactly if one of its parts does. -/
theorem isBlank_intercalate {between : String} (h : isBlank between = true) (texts : List String) :
    isBlank (between.intercalate texts) = texts.all isBlank := by
  induction texts with
  | nil =>
    rw [String.intercalate_nil]
    rfl
  | cons text texts ih =>
    cases texts with
    | nil => rw [String.intercalate_singleton, List.all_cons, List.all_nil, Bool.and_true]
    | cons next texts =>
      rw [String.intercalate_cons_cons, isBlank_append, isBlank_append, h, Bool.and_true, ih,
        List.all_cons (l := next :: texts)]

/-- Cutting from the right leaves the first character, if it leaves any. -/
theorem head?_of_trimRight {cs : List Char} {c : Char} (h : (trimRight cs).head? = some c) :
    cs.head? = some c := by
  obtain ⟨after, hafter⟩ := List.rdropWhile_prefix isBlankChar (l := cs)
  obtain ⟨rest, hrest⟩ := List.head?_eq_some_iff.1 h
  have hcs : trimRight cs ++ after = cs := hafter
  rw [← hcs, hrest]
  rfl

theorem isTrimOf_trim (s : String) : IsTrimOf (trim s) s := by
  have hcore : (trim s).toList = trimRight (trimLeft s.toList) := String.toList_ofList
  refine ⟨⟨s.toList.takeWhile isBlankChar, (trimLeft s.toList).rtakeWhile isBlankChar, ?_, ?_, ?_⟩,
    fun c hc => ?_, fun c hc => ?_⟩
  · rw [hcore, List.append_assoc]
    have hright : trimRight (trimLeft s.toList) ++ (trimLeft s.toList).rtakeWhile isBlankChar =
        trimLeft s.toList := List.rdropWhile_append_rtakeWhile
    rw [hright]
    exact List.takeWhile_append_dropWhile.symm
  · exact List.all_eq_true.2 fun c hc => List.mem_takeWhile_imp hc
  · exact List.all_eq_true.2 fun c hc => List.mem_rtakeWhile_imp hc
  · rw [hcore] at hc
    have hfirst := List.head?_dropWhile_not isBlankChar s.toList
    rw [show s.toList.dropWhile isBlankChar = trimLeft s.toList from rfl,
      head?_of_trimRight hc] at hfirst
    simpa using hfirst
  · rw [hcore] at hc
    exact not_of_getLast?_rdropWhile hc

/-- What is left of a text shows something exactly if the text does. -/
theorem IsTrimOf.isBlank_eq {core text : String} (h : IsTrimOf core text) :
    isBlank core = isBlank text := by
  obtain ⟨before, after, htext, hbefore, hafter⟩ := h.ends
  unfold isBlank
  rw [htext, isBlankChars_append, isBlankChars_append, hbefore, hafter, Bool.true_and,
    Bool.and_true]

/-! ## Trimming a text put together -/

theorem trimLeft_of_isBlankChars {cs : List Char} (h : isBlankChars cs = true) : trimLeft cs = [] :=
  (trimLeft_eq_nil_iff cs).2 h

theorem trimLeft_append_of_head {w : List Char} (h : ∀ c ∈ w.head?, isBlankChar c = false)
    (front : List Char) : trimLeft (front ++ w) = trimLeft front ++ w := by
  have hw : w.dropWhile isBlankChar = w := by
    cases w with
    | nil => rfl
    | cons c w => exact List.dropWhile_cons_of_neg (Bool.eq_false_iff.1 (h c rfl))
  unfold trimLeft
  rw [List.dropWhile_append, hw]
  split
  next hnil => rw [List.isEmpty_iff.1 hnil, List.nil_append]
  next => rfl

theorem trimRight_append_of_blank {back : List Char} (h : isBlankChars back = true)
    (cs : List Char) : trimRight (cs ++ back) = trimRight cs := by
  unfold trimRight
  rw [List.reverse_append, List.dropWhile_append_of_pos]
  exact fun c hc => List.all_eq_true.1 h c (List.mem_reverse.1 hc)

theorem trimRight_eq_self {cs : List Char} (h : ∀ c ∈ cs.getLast?, isBlankChar c = false) :
    trimRight cs = cs :=
  List.rdropWhile_eq_self_iff.2 fun hne =>
    Bool.eq_false_iff.1 (h _ (List.getLast?_eq_some_getLast hne))

/-- What shows at both of its ends is left as it is, and so is what stands in front of it but for
its leading blanks. -/
theorem trimChars_append {w back : List Char} (hne : w ≠ [])
    (hfirst : ∀ c ∈ w.head?, isBlankChar c = false)
    (hlast : ∀ c ∈ w.getLast?, isBlankChar c = false) (hback : isBlankChars back = true)
    (front : List Char) : trimChars (front ++ w ++ back) = trimLeft front ++ w := by
  have hleft : trimLeft (front ++ w ++ back) = trimLeft front ++ w ++ back := by
    rw [List.append_assoc, trimLeft_append_of_head, List.append_assoc]
    rwa [List.head?_append_of_ne_nil _ hne]
  unfold trimChars
  rw [hleft, trimRight_append_of_blank hback, trimRight_eq_self]
  rwa [List.getLast?_append_of_ne_nil _ hne]

/-- There is only one text that is left of a text. -/
theorem IsTrimOf.eq_trim {core text : String} (h : IsTrimOf core text) : core = trim text := by
  obtain ⟨before, after, htext, hbefore, hafter⟩ := h.ends
  have hchars : trimChars text.toList = core.toList := by
    rw [htext]
    by_cases hcore : core.toList = []
    · have hblank : isBlankChars (before ++ after) = true := by
        rw [isBlankChars_append, hbefore, hafter, Bool.and_true]
      rw [hcore, List.append_nil, trimChars, trimLeft_of_isBlankChars hblank]
      rfl
    · rw [trimChars_append hcore h.first h.last hafter, trimLeft_of_isBlankChars hbefore,
        List.nil_append]
  rw [trim, hchars, String.ofList_toList]

end ExportDesk.Text
