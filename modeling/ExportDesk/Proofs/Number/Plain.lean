import ExportDesk.Proofs.Number.Literals
import ExportDesk.Proofs.Toml.Scalars

/-!
# Numbers on a command line

`isNumeral_plain`: a finite number is written there with digits alone, and a point among them if it
is no whole number. It begins with a minus exactly if its sign is set, and what is written reads
back as the very number.
-/

namespace ExportDesk.NumberLayout

open Literal Toml.Scalar

/-- Digits, and behind a point more of them if there is a point. -/
inductive IsDecimal : List Char → Prop
  | whole {ds : List Char} (hne : ds ≠ []) (hdigits : ∀ c ∈ ds, c.isDigit = true) : IsDecimal ds
  | fraction {ds fs : List Char} (hne : ds ≠ []) (hdigits : ∀ c ∈ ds, c.isDigit = true)
      (hne' : fs ≠ []) (hdigits' : ∀ c ∈ fs, c.isDigit = true) : IsDecimal (ds ++ '.' :: fs)

/-- A text that stands for a number, as a decimal behind the number's sign. -/
structure IsNumeral (x : Binary64) (text : String) : Prop where
  decimal : ∃ body, IsDecimal body ∧ text.toList = signed x.sign body
  reads : Literal.read text.toList = some x

theorem IsDecimal.isPlainChar {cs : List Char} (h : IsDecimal cs) :
    ∀ c ∈ cs, isPlainChar c = true := by
  cases h with
  | whole _ hdigits => exact fun c hc => isPlainChar_of_isDigit (hdigits c hc)
  | fraction _ hdigits _ hdigits' => exact isPlainChar_point hdigits hdigits'

theorem IsDecimal.exists_cons {cs : List Char} (h : IsDecimal cs) :
    ∃ c rest, cs = c :: rest ∧ c.isDigit = true := by
  cases h with
  | whole hne hdigits =>
    obtain ⟨c, rest, rfl⟩ := List.exists_cons_of_ne_nil hne
    exact ⟨c, rest, rfl, hdigits c List.mem_cons_self⟩
  | fraction hne hdigits _ _ =>
    obtain ⟨c, rest, rfl⟩ := List.exists_cons_of_ne_nil hne
    exact ⟨c, _, rfl, hdigits c List.mem_cons_self⟩

/-- **A minus stands in front of the numbers whose sign is set**, and is in the text of no other. -/
theorem IsNumeral.minus_mem_iff {x : Binary64} {text : String} (h : IsNumeral x text) :
    '-' ∈ text.toList ↔ x.sign = true := by
  obtain ⟨body, hbody, htext⟩ := h.decimal
  have hnone : '-' ∉ body := not_mem_plain hbody.isPlainChar (by decide)
  rw [htext]
  cases x.sign with
  | true => exact iff_of_true List.mem_cons_self rfl
  | false => exact iff_of_false hnone Bool.false_ne_true

/-- A signed decimal reads as one made of digits. -/
theorem read_signed {body : List Char} (h : IsDecimal body) (negative : Bool) :
    Literal.read (signed negative body) = readNumber negative body := by
  obtain ⟨c, rest, hbody, hc⟩ := h.exists_cons
  have hword : readWord negative body = none := hbody ▸ readWord_of_isDigit hc negative rest
  unfold Literal.read
  rw [splitSign_signed h.isPlainChar]
  simp only [hword]
  rfl

theorem readNumber_digits {ds : List Char} (hne : ds ≠ []) (hdigits : ∀ c ∈ ds, c.isDigit = true)
    (negative : Bool) :
    readNumber negative ds = some (Binary64.ofDecimal negative (digitsValue ds) 0) := by
  have hsplit : splitDigits ds = (ds, []) := by
    unfold splitDigits
    rw [List.takeWhile_eq_self_iff.2 hdigits, List.dropWhile_eq_nil_iff.2 hdigits]
  unfold readNumber
  simp only [hsplit, splitFraction, List.append_nil]
  rw [List.isEmpty_eq_false_iff.2 hne]
  rfl

/-- What is written for a finite number, its sign aside. -/
theorem writeAbs_plain {x : Binary64} (hx : x.isFinite = true) :
    IsDecimal (plain.writeAbs x) ∧ readNumber x.sign (plain.writeAbs x) = some x := by
  obtain ⟨whole, fraction, hparts, -, hwrite | ⟨hwrite, rfl⟩⟩ := exists_parts hx
  · rw [hwrite]
    exact ⟨.fraction hparts.whole_ne hparts.wholeDigits hparts.fraction_ne hparts.fractionDigits,
      readNumber_parts hparts⟩
  · have hvalue := hparts.value
    have hshift := Binary64.ofDecimal_shift x.sign (digitsValue whole) 1 0
    rw [show whole ++ ['0'] = whole ++ List.replicate 1 '0' from rfl,
      digitsValue_append_zeros] at hvalue
    rw [hwrite, readNumber_digits hparts.whole_ne hparts.wholeDigits, ← hshift]
    exact ⟨.whole hparts.whole_ne hparts.wholeDigits, congrArg some hvalue⟩

/-- **What is written for a finite number stands for it.** -/
theorem isNumeral_plain {x : Binary64} (hx : x.isFinite = true) : IsNumeral x (plain.write x) := by
  obtain ⟨hdecimal, hread⟩ := writeAbs_plain hx
  have hwrite : (plain.write x).toList = signed x.sign (plain.writeAbs x) := write_finite hx
  refine ⟨⟨_, hdecimal, hwrite⟩, ?_⟩
  rw [hwrite, read_signed hdecimal, hread]

end ExportDesk.NumberLayout
