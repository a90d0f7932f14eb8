import ExportDesk.Number.Literal
import ExportDesk.Proofs.Text.Blank

/-!
# What literals are made of

`isLiteralChar_of_read`: a text that reads as a number is made of digits, signs, points and the
letters of exponents and words. None of these is a blank.
-/

namespace ExportDesk.Literal

open Text

/-- The characters that literals are made of. -/
def isLiteralChar (c : Char) : Bool :=
  c.isDigit || c ∈ ['+', '-', '.'] || c.toLower ∈ ['a', 'e', 'f', 'i', 'n', 't', 'y']

/-- What is no capital letter stays as it is. -/
theorem toLower_eq_self {c : Char} (h : c.toNat < 65 ∨ 90 < c.toNat) : c.toLower = c := by
  refine dif_neg ?_
  rintro ⟨hA, hZ⟩
  have hA' : 65 ≤ c.toNat := hA
  have hZ' : c.toNat ≤ 90 := hZ
  omega

/-- A blank is no digit, no sign, no point and no letter. -/
theorem isBlankChar_of_isLiteralChar {c : Char} (h : isLiteralChar c = true) :
    isBlankChar c = false := by
  refine Bool.eq_false_iff.2 fun hblank => ?_
  have hrange := toNat_of_isBlankChar hblank
  have hdigit : c.isDigit = false := Bool.eq_false_iff.2 fun hd => by
    have : 48 ≤ c.toNat ∧ c.toNat ≤ 57 := Char.isDigit_iff_toNat.1 hd
    omega
  rw [isLiteralChar, hdigit, toLower_eq_self (by omega), Bool.false_or, Bool.or_eq_true,
    decide_eq_true_eq, decide_eq_true_eq, ← List.mem_append] at h
  have hall : ∀ d ∈ ['+', '-', '.'] ++ ['a', 'e', 'f', 'i', 'n', 't', 'y'],
      ¬ (d.toNat ≤ 32 ∨ 133 ≤ d.toNat) := by simp
  exact hall c h hrange

theorem isLiteralChar_of_isDigit {c : Char} (h : c.isDigit = true) : isLiteralChar c = true := by
  rw [isLiteralChar, h]
  rfl

theorem splitSign_spec (cs : List Char) :
    ∃ sign, cs = sign ++ (splitSign cs).2 ∧ ∀ c ∈ sign, isLiteralChar c = true := by
  unfold splitSign
  split
  · exact ⟨['+'], rfl, List.forall_mem_singleton.2 (by decide)⟩
  · exact ⟨['-'], rfl, List.forall_mem_singleton.2 (by decide)⟩
  · exact ⟨[], rfl, nofun⟩

/-- The words are made of a few letters. -/
theorem toLower_of_readWord {negative : Bool} {cs : List Char} {x : Binary64}
    (h : readWord negative cs = some x) {c : Char} (hc : c ∈ cs) :
    c.toLower ∈ ['a', 'e', 'f', 'i', 'n', 't', 'y'] := by
  have hword : String.ofList (cs.map Char.toLower) ∈ ["inf", "infinity", "nan"] := by
    unfold readWord at h
    simp only at h
    split at h
    next hinf =>
      obtain hinf | hinf := Bool.or_eq_true_iff.1 hinf <;> simp [beq_iff_eq.1 hinf]
    next =>
      split at h
      next hnan => simp [beq_iff_eq.1 hnan]
      next => cases h
  have hletters : ∀ word ∈ ["inf", "infinity", "nan"], ∀ d ∈ word.toList,
      d ∈ ['a', 'e', 'f', 'i', 'n', 't', 'y'] := by simp
  refine hletters _ hword _ ?_
  rw [String.toList_ofList]
  exact List.mem_map_of_mem hc

theorem isLiteralChar_of_readWord {negative : Bool} {cs : List Char} {x : Binary64}
    (h : readWord negative cs = some x) {c : Char} (hc : c ∈ cs) : isLiteralChar c = true := by
  rw [isLiteralChar, decide_eq_true (toLower_of_readWord h hc), Bool.or_true]

/-- A text that begins with a digit is no word. -/
theorem readWord_of_isDigit {c : Char} (hc : c.isDigit = true) (negative : Bool)
    (cs : List Char) : readWord negative (c :: cs) = none := by
  refine Option.eq_none_iff_forall_ne_some.2 fun x hx => ?_
  have hrange : 48 ≤ c.toNat ∧ c.toNat ≤ 57 := Char.isDigit_iff_toNat.1 hc
  have hletter := toLower_of_readWord hx List.mem_cons_self
  rw [toLower_eq_self (.inl (by omega))] at hletter
  have hnone : ∀ d ∈ ['a', 'e', 'f', 'i', 'n', 't', 'y'], d.isDigit = false := by simp
  rw [hnone c hletter] at hc
  cases hc

theorem isLiteralChar_of_readExponent {cs : List Char} {e : Int}
    (h : readExponent cs = some e) {c : Char} (hc : c ∈ cs) : isLiteralChar c = true := by
  cases cs with
  | nil => cases hc
  | cons d ds =>
    rw [readExponent] at h
    split at h
    next hletter =>
      obtain ⟨sign, hds, hsign⟩ := splitSign_spec ds
      have hdigits : ∀ c ∈ (splitSign ds).2, c.isDigit = true := by
        simp only at h
        split at h
        next => cases h
        next hall =>
          simp only [Bool.or_eq_true, Bool.not_eq_true', not_or, Bool.not_eq_false] at hall
          exact List.all_eq_true.1 hall.2
      obtain rfl | hc := List.mem_cons.1 hc
      · obtain hletter | hletter := Bool.or_eq_true_iff.1 hletter <;>
          (rw [beq_iff_eq.1 hletter]; decide)
      · rw [hds] at hc
        obtain hc | hc := List.mem_append.1 hc
        · exact hsign c hc
        · exact isLiteralChar_of_isDigit (hdigits c hc)
    next => cases h

theorem splitFraction_spec (cs : List Char) :
    ∃ point, cs = point ++ (splitFraction cs).1 ++ (splitFraction cs).2 ∧
      ∀ c ∈ point ++ (splitFraction cs).1, isLiteralChar c = true := by
  unfold splitFraction
  split
  next cs =>
    refine ⟨['.'], ?_, fun c hc => ?_⟩
    · rw [List.append_assoc, splitDigits_append]
      rfl
    · obtain hc | hc := List.mem_append.1 hc
      · rw [List.mem_singleton.1 hc]
        decide
      · exact isLiteralChar_of_isDigit (List.mem_takeWhile_imp hc)
  next => exact ⟨[], rfl, nofun⟩

theorem isLiteralChar_of_readNumber {negative : Bool} {cs : List Char} {x : Binary64}
    (h : readNumber negative cs = some x) {c : Char} (hc : c ∈ cs) : isLiteralChar c = true := by
  obtain ⟨point, hrest, hpoint⟩ := splitFraction_spec (splitDigits cs).2
  have hexponent : ∃ e, readExponent (splitFraction (splitDigits cs).2).2 = some e := by
    unfold readNumber at h
    simp only at h
    split at h
    next => cases h
    next =>
      obtain ⟨e, he, -⟩ := Option.bind_eq_some_iff.1 h
      exact ⟨e, he⟩
  obtain ⟨e, he⟩ := hexponent
  rw [← splitDigits_append cs, hrest] at hc
  obtain hc | hc := List.mem_append.1 hc
  · exact isLiteralChar_of_isDigit (List.mem_takeWhile_imp hc)
  · obtain hc | hc := List.mem_append.1 hc
    · exact hpoint c hc
    · exact isLiteralChar_of_readExponent he hc

/-- **What literals are made of.** -/
theorem isLiteralChar_of_read {cs : List Char} {x : Binary64} (h : read cs = some x) {c : Char}
    (hc : c ∈ cs) : isLiteralChar c = true := by
  obtain ⟨sign, hcs, hsign⟩ := splitSign_spec cs
  rw [hcs] at hc
  obtain hc | hc := List.mem_append.1 hc
  · exact hsign c hc
  · simp only [read, Option.orElse_eq_orElse, Option.orElse_eq_or, Option.or_eq_some_iff] at h
    obtain hword | ⟨-, hnumber⟩ := h
    · exact isLiteralChar_of_readWord hword hc
    · exact isLiteralChar_of_readNumber hnumber hc

end ExportDesk.Literal
