import ExportDesk.Number.Field
import ExportDesk.Proofs.Number.Literals
import Mathlib.Data.List.Infix

/-!
# Fields as they are typed

`readFields_padded`: a field that holds a number literal stands for the literal's number, with or
without one of its units behind it, and whatever blanks are around either. At most one unit is taken
off, so that a text with two of them stands for the field's default.

No blank is a character of a literal, and no unit has only characters of literals
(`Literal.isLiteralChar_of_read`). No two units can end the same text. So a text with a unit at its
end reads as what is before the unit (`Field.Units.readNumber?_append`).
-/

namespace ExportDesk

open Text

/-! ## Units -/

namespace Field

open Literal

/-- Units of which at most one can end a text. They show, and none can be a part of a literal. -/
structure Units (units : List String) : Prop where
  apart : ∀ u ∈ units, ∀ v ∈ units, u.toList <:+ v.toList → u = v
  shown : ∀ u ∈ units, ∀ c ∈ u.toList, isBlankChar c = false
  foreign : ∀ u ∈ units, ∃ c ∈ u.toList, isLiteralChar c = false

theorem units_loudness : Units loudnessUnits where
  apart := by decide
  shown := by simp [loudnessUnits, isBlankChar, blankRanges]
  foreign := by simp [loudnessUnits, isLiteralChar]

theorem units_margin : Units marginUnits where
  apart := by decide
  shown := by simp [marginUnits, isBlankChar, blankRanges]
  foreign := by simp [marginUnits, isLiteralChar]

theorem dropUnit?_eq_some_iff {unit text rest : List Char} :
    dropUnit? unit text = some rest ↔ text = rest ++ unit := by
  unfold dropUnit?
  split
  next h =>
    obtain ⟨front, rfl⟩ := List.isSuffixOf_iff_suffix.1 h
    rw [List.length_append, Nat.add_sub_cancel, List.take_left, Option.some_inj,
      List.append_left_inj]
  next h =>
    refine ⟨nofun, ?_⟩
    rintro rfl
    exact absurd (List.isSuffixOf_iff_suffix.2 (List.suffix_append _ _)) h

namespace Units

variable {units : List String} {u : String} {x : Binary64}

/-- The unit at the end of a text is the one that is taken off. -/
theorem dropUnits_append (h : Units units) (hu : u ∈ units) (text : List Char) :
    dropUnits units (text ++ u.toList) = trimRight text := by
  have hfound : units.findSome? (fun v => dropUnit? v.toList (text ++ u.toList)) = some text := by
    cases hfound : units.findSome? fun v => dropUnit? v.toList (text ++ u.toList) with
    | none =>
      have hnone := List.findSome?_eq_none_iff.1 hfound u hu
      rw [dropUnit?_eq_some_iff.2 rfl] at hnone
      cases hnone
    | some rest =>
      obtain ⟨v, hv, hrest⟩ := List.exists_of_findSome?_eq_some hfound
      rw [dropUnit?_eq_some_iff] at hrest
      have hsame : u = v := by
        obtain hsuffix | hsuffix := List.suffix_or_suffix_of_suffix
          (List.suffix_append text u.toList) (hrest ▸ List.suffix_append rest v.toList)
        · exact h.apart u hu v hv hsuffix
        · exact (h.apart v hv u hu hsuffix).symm
      rw [← hsame, List.append_left_inj] at hrest
      rw [hrest]
  unfold dropUnits
  rw [hfound]

/-- No literal ends in a unit. -/
theorem read_append (h : Units units) (hu : u ∈ units) (text : List Char) :
    Literal.read (text ++ u.toList) = none := by
  obtain ⟨c, hc, hforeign⟩ := h.foreign u hu
  refine Option.eq_none_iff_forall_ne_some.2 fun x hx => ?_
  rw [isLiteralChar_of_read hx (List.mem_append_right _ hc)] at hforeign
  cases hforeign

theorem dropUnits_literal (h : Units units) {s : List Char} (hs : Literal.read s = some x) :
    dropUnits units s = s := by
  have hnone : units.findSome? (fun v => dropUnit? v.toList s) = none := by
    refine List.findSome?_eq_none_iff.2 fun v hv => Option.eq_none_iff_forall_ne_some.2 ?_
    intro rest hrest
    rw [dropUnit?_eq_some_iff.1 hrest, h.read_append hv] at hs
    cases hs
  unfold dropUnits
  rw [hnone]

theorem trimChars_append (h : Units units) (hu : u ∈ units) {back : List Char}
    (hback : isBlankChars back = true) (front : List Char) :
    trimChars (front ++ u.toList ++ back) = trimLeft front ++ u.toList := by
  obtain ⟨c, hc, -⟩ := h.foreign u hu
  have hne : u.toList ≠ [] := List.ne_nil_of_mem hc
  exact Text.trimChars_append hne (fun c hc => h.shown u hu c (List.mem_of_head? hc))
    (fun c hc => h.shown u hu c (List.mem_of_getLast? hc)) hback front

/-- **A text with a unit at its end** reads as what is before the unit. -/
theorem dropUnits_trim (h : Units units) (hu : u ∈ units) {text back : String}
    (hback : isBlank back = true) :
    dropUnits units (trimChars (text ++ u ++ back).toList) = trimChars text.toList := by
  rw [String.toList_append, String.toList_append, h.trimChars_append hu hback,
    h.dropUnits_append hu]
  rfl

/-- **A text with two units at its end** reads as nothing. -/
theorem readNumber?_twice (h : Units units) {v : String} (hu : u ∈ units) (hv : v ∈ units)
    {between back : String} (hbetween : isBlank between = true) (hback : isBlank back = true)
    (text : String) : readNumber? units (text ++ u ++ between ++ v ++ back) = none := by
  unfold readNumber?
  rw [h.dropUnits_trim hv hback, String.toList_append, String.toList_append,
    h.trimChars_append hu hbetween, h.read_append hu]
  rfl

/-- A literal between blanks is what trimming leaves of them. -/
theorem trimChars_literal {s front back : List Char} (hs : Literal.read s = some x)
    (hfront : isBlankChars front = true) (hback : isBlankChars back = true) :
    trimChars (front ++ s ++ back) = s := by
  have hne : s ≠ [] := by
    rintro rfl
    cases hs
  have hshown {c : Char} (hc : c ∈ s) : isBlankChar c = false :=
    isBlankChar_of_isLiteralChar (isLiteralChar_of_read hs hc)
  rw [Text.trimChars_append hne (fun c hc => hshown (List.mem_of_head? hc))
    (fun c hc => hshown (List.mem_of_getLast? hc)) hback, trimLeft_of_isBlankChars hfront,
    List.nil_append]

/-- **A literal with blanks around it**, and with one unit behind it or none, is what is left of the
text. -/
theorem dropUnits_padded (h : Units units) {s a b c : String} (hs : Literal.read s.toList = some x)
    (ha : isBlank a = true) (hb : isBlank b = true) (hc : isBlank c = true)
    (hu : u = "" ∨ u ∈ units) :
    dropUnits units (trimChars (a ++ s ++ b ++ u ++ c).toList) = s.toList := by
  obtain rfl | hu := hu
  · have hbc : isBlankChars (b.toList ++ c.toList) = true := by
      rw [isBlankChars_append]
      exact Bool.and_eq_true_iff.2 ⟨hb, hc⟩
    rw [String.append_empty, String.toList_append, String.toList_append, String.toList_append,
      List.append_assoc, trimChars_literal hs ha hbc, h.dropUnits_literal hs]
  · rw [h.dropUnits_trim hu hc, String.toList_append, String.toList_append,
      trimChars_literal hs ha hb]

theorem readNumber?_padded (h : Units units) {s a b c : String}
    (hs : Literal.read s.toList = some x) (hx : x.isFinite = true) (ha : isBlank a = true)
    (hb : isBlank b = true) (hc : isBlank c = true) (hu : u = "" ∨ u ∈ units) :
    readNumber? units (a ++ s ++ b ++ u ++ c) = some x := by
  unfold readNumber?
  rw [h.dropUnits_padded hs ha hb hc hu, hs, Option.filter_some, if_pos hx]

end Units

/-! ## What is asked for -/

/-- The number that is asked for, sound or not: the stored one where nothing was typed, and else
that of the literal that was typed, with blanks around it and with one of the units behind it or
none. A text that is not of this form asks for no number. -/
inductive Asks (units : List String) : Option String → Binary64 → Binary64 → Prop where
  | stored (x : Binary64) : Asks units none x x
  | typed {s a b u c : String} {stored x : Binary64} (literal : Literal.read s.toList = some x)
    (before : isBlank a = true) (between : isBlank b = true) (after : isBlank c = true)
    (unit : u = "" ∨ u ∈ units) : Asks units (some (a ++ s ++ b ++ u ++ c)) stored x

/-- What is left of a text without a unit has the unit and some blanks behind it. -/
theorem eq_of_dropUnits (units : List String) (text : List Char) :
    ∃ b u : String, text = dropUnits units text ++ b.toList ++ u.toList ∧ isBlank b = true ∧
      (u = "" ∨ u ∈ units) := by
  unfold dropUnits
  cases hfound : units.findSome? fun u => dropUnit? u.toList text with
  | none => exact ⟨"", "", by simp, rfl, .inl rfl⟩
  | some rest =>
    obtain ⟨u, hu, hrest⟩ := List.exists_of_findSome?_eq_some hfound
    refine ⟨String.ofList (rest.rtakeWhile isBlankChar), u, ?_, ?_, .inr hu⟩
    · have hright : trimRight rest ++ rest.rtakeWhile isBlankChar = rest :=
        List.rdropWhile_append_rtakeWhile
      rw [String.toList_ofList, hright]
      exact dropUnit?_eq_some_iff.1 hrest
    · unfold isBlank
      rw [String.toList_ofList]
      exact List.all_eq_true.2 fun c hc => List.mem_rtakeWhile_imp hc

/-- What is asked for is what is read once blanks and a unit have been taken off. -/
theorem Units.asks_typed_iff {units : List String} (h : Units units) {text : String}
    {stored x : Binary64} : Asks units (some text) stored x ↔
      Literal.read (dropUnits units (trimChars text.toList)) = some x := by
  constructor
  · rintro (_ | ⟨hs, ha, hb, hc, hu⟩)
    rw [h.dropUnits_padded hs ha hb hc hu, hs]
  · intro hread
    obtain ⟨⟨before, after, htext, hbefore, hafter⟩, -, -⟩ := isTrimOf_trim text
    obtain ⟨b, u, hcore, hb, hu⟩ := eq_of_dropUnits units (trimChars text.toList)
    have hparts : text = String.ofList before ++
        String.ofList (dropUnits units (trimChars text.toList)) ++ b ++ u ++
          String.ofList after := by
      refine String.toList_injective ?_
      have htrim : (trim text).toList = trimChars text.toList := String.toList_ofList
      rw [htrim, hcore] at htext
      simpa [List.append_assoc] using htext
    rw [hparts]
    exact .typed (by rwa [String.toList_ofList]) (by simpa [isBlank] using hbefore) hb
      (by simpa [isBlank] using hafter) hu

end Field

/-! ## Loudness and margin -/

/-- **A literal in a field.** With any blanks in front of it, behind it and behind its unit, and
with any of the field's units or none, a loudness field stands for the literal's number if that is
finite, and a margin field for the number if it is positive and for zero otherwise. Any text with a
second unit behind a first one stands for the default of the field. -/
theorem readFields_padded {s a b c : String} {x : Binary64} (hs : Literal.read s.toList = some x)
    (hx : x.isFinite = true) (ha : isBlank a = true) (hb : isBlank b = true)
    (hc : isBlank c = true) :
    (∀ u, u = "" ∨ u ∈ Field.loudnessUnits → readLoudness (a ++ s ++ b ++ u ++ c) = x) ∧
      (∀ u, u = "" ∨ u ∈ Field.marginUnits →
        readMargin (a ++ s ++ b ++ u ++ c) = if x.isPositive then x else Binary64.zero false) ∧
      (∀ text, ∀ u ∈ Field.loudnessUnits, ∀ v ∈ Field.loudnessUnits,
        readLoudness (text ++ u ++ b ++ v ++ c) = defaultLoudness) ∧
      ∀ text, ∀ u ∈ Field.marginUnits, ∀ v ∈ Field.marginUnits,
        readMargin (text ++ u ++ b ++ v ++ c) = defaultMargin := by
  refine ⟨fun u hu => ?_, fun u hu => ?_, fun text u hu v hv => ?_, fun text u hu v hv => ?_⟩
  · unfold readLoudness
    rw [Field.units_loudness.readNumber?_padded hs hx ha hb hc hu]
    rfl
  · unfold readMargin
    rw [Field.units_margin.readNumber?_padded hs hx ha hb hc hu, Option.filter_some]
    split <;> rfl
  · unfold readLoudness
    rw [Field.units_loudness.readNumber?_twice hu hv hb hc]
    rfl
  · unfold readMargin
    rw [Field.units_margin.readNumber?_twice hu hv hb hc]
    rfl

/-- A literal that is no plain decimal, between blanks that are not ASCII. -/
theorem readFields_padded_exponent :
    let x := Binary64.ofDecimal true 245 (-1)
    Literal.read "-.245e+02".toList = some x ∧ x.isFinite = true ∧
      readLoudness ("\u3000" ++ "-.245e+02" ++ "\u00A0\t" ++ "dB" ++ "\n") = x ∧
      readMargin ("\u3000" ++ "-.245e+02" ++ "\u00A0\t" ++ "sec" ++ "\n") = Binary64.zero false ∧
      readLoudness ("-.245e+02" ++ "db" ++ "\u00A0\t" ++ "dB" ++ "\n") = defaultLoudness := by
  intro x
  have hs : Literal.read "-.245e+02".toList = some x := by decide +kernel
  have hx : x.isFinite = true := by decide +kernel
  obtain ⟨hloudness, hmargin, htwice, -⟩ := readFields_padded (a := "\u3000") (b := "\u00A0\t")
    (c := "\n") hs hx (by decide) (by decide) (by decide)
  exact ⟨hs, hx, hloudness "dB" (.inr (by decide)), hmargin "sec" (.inr (by decide)),
    htwice "-.245e+02" "db" (by decide) "dB" (by decide)⟩

end ExportDesk
