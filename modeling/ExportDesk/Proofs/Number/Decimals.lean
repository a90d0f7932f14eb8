import ExportDesk.Number.Layout
import ExportDesk.Number.Literal
import ExportDesk.Proofs.Number.Rounding
import Mathlib.Data.List.Basic

/-!
# The shortest decimal reads back

`ofDecimal_eq` says that the cut-offs for huge and tiny exponents change nothing, so that a decimal
may be written with more zeros (`ofDecimal_shift`). What follows for finite numbers is that the
digits chosen for one read back as that number (`magnitude_shortest`), and so do the digits around
the decimal point of its text (`exists_parts`).
-/

namespace ExportDesk

open Nat

namespace Binary64

/-! ## Sign and magnitude -/

theorem toNat_ofMagnitude {m : Nat} (hm : m < power 2 63) (negative : Bool) :
    (ofMagnitude negative m).bits.toNat = if negative then m + power 2 63 else m := by
  have hm' : m < 9223372036854775808 := hm
  have hp : power 2 63 = 9223372036854775808 := rfl
  show (UInt64.ofNat _).toNat = _
  rw [UInt64.toNat_ofNat', hp]
  cases negative <;> simp only [Bool.false_eq_true, if_false, if_true] <;> omega

theorem magnitude_ofMagnitude {m : Nat} (hm : m < power 2 63) (negative : Bool) :
    (ofMagnitude negative m).magnitude = m := by
  have hm' : m < 9223372036854775808 := hm
  have hp : power 2 63 = 9223372036854775808 := rfl
  unfold magnitude
  rw [toNat_ofMagnitude hm, hp]
  cases negative <;> simp only [Bool.false_eq_true, if_false, if_true] <;> omega

theorem ofMagnitude_self (x : Binary64) : ofMagnitude x.sign x.magnitude = x := by
  have hlt : x.bits.toNat < 18446744073709551616 := x.bits.toNat_lt
  have hp : power 2 63 = 9223372036854775808 := rfl
  have hbits : (if x.sign then x.magnitude + power 2 63 else x.magnitude) = x.bits.toNat := by
    unfold sign magnitude
    rw [hp]
    by_cases h : 9223372036854775808 ≤ x.bits.toNat
    · rw [decide_eq_true h, if_pos rfl]
      omega
    · rw [decide_eq_false h, if_neg Bool.false_ne_true]
      omega
  show (⟨UInt64.ofNat _⟩ : Binary64) = x
  rw [hbits, UInt64.ofNat_toNat]

theorem infinityMagnitude_lt : infinityMagnitude < power 2 63 := by decide

/-! ## Decimals -/

theorem power_two_le_power_ten (n : Nat) : power 2 (3 * n) ≤ power 10 n := by
  have h : power 2 (3 * n) = 8 ^ n := Nat.pow_mul 2 3 n
  rw [h]
  exact Nat.pow_le_pow_left (by decide) n

theorem power_mono {m n : Nat} (h : m ≤ n) : power 2 m ≤ power 2 n :=
  Nat.pow_le_pow_right (by decide) h

theorem power_ten_pos (n : Nat) : 0 < power 10 n := Nat.pow_pos (by decide)

theorem power_ten_add (m n : Nat) : power 10 (m + n) = power 10 m * power 10 n := Nat.pow_add ..

/-- **The cut-offs change nothing.** -/
theorem ofDecimal_eq (negative : Bool) (digits : Nat) (e : Int) :
    ofDecimal negative digits e = ofMagnitude negative
      (magnitudeOfRatio (digits * power 10 e.toNat) (power 10 (-e).toNat)) := by
  unfold ofDecimal
  by_cases h0 : digits = 0
  · subst h0
    rw [if_pos (beq_iff_eq.2 rfl), Nat.zero_mul]
    rfl
  have hdigits : 1 ≤ digits := by omega
  rw [if_neg (by simpa using h0)]
  by_cases hhuge : 400 < e
  · have hone : power 10 (-e).toNat = 1 := by
      rw [show (-e).toNat = 0 by omega]
      rfl
    have hle : 1 * power 2 1024 ≤ digits * power 10 e.toNat := by
      calc 1 * power 2 1024 = power 2 1024 := Nat.one_mul _
        _ ≤ power 2 (3 * e.toNat) := power_mono (by omega)
        _ ≤ power 10 e.toNat := power_two_le_power_ten _
        _ ≤ digits * power 10 e.toNat := Nat.le_mul_of_pos_left _ hdigits
    rw [if_pos hhuge, hone, magnitudeOfRatio_huge Nat.one_pos hle]
    rfl
  rw [if_neg hhuge]
  by_cases htiny : e + (Nat.log2 digits : Int) < -1200
  · have hlt : digits * power 10 e.toNat * power 2 1075 < power 10 (-e).toNat := by
      rw [show e.toNat = 0 by omega, power_zero, Nat.mul_one]
      calc digits * power 2 1075 < power 2 (digits.log2 + 1) * power 2 1075 :=
            Nat.mul_lt_mul_of_pos_right Nat.lt_log2_self (power_pos _)
        _ = power 2 (digits.log2 + 1 + 1075) := (power_add _ _).symm
        _ ≤ power 2 (3 * (-e).toNat) := power_mono (by omega)
        _ ≤ power 10 (-e).toNat := power_two_le_power_ten _
    rw [if_pos htiny, magnitudeOfRatio_tiny hlt]
    rfl
  rw [if_neg htiny]
  by_cases hpos : 0 ≤ e
  · rw [if_pos hpos, show (-e).toNat = 0 by omega]
    rfl
  · rw [if_neg hpos, show e.toNat = 0 by omega, power_zero, Nat.mul_one]
    rfl

/-- More zeros among the digits and a smaller exponent write the same number. -/
theorem ofDecimal_shift (negative : Bool) (digits k : Nat) (e : Int) :
    ofDecimal negative (digits * power 10 k) (e - k) = ofDecimal negative digits e := by
  rw [ofDecimal_eq, ofDecimal_eq]
  congr 1
  refine magnitudeOfRatio_congr (power_ten_pos _) (power_ten_pos _) ?_
  rw [Nat.mul_assoc, Nat.mul_assoc, Nat.mul_assoc, ← power_ten_add, ← power_ten_add,
    ← power_ten_add]
  congr 2
  omega

theorem magnitude_ofDecimal (negative : Bool) (digits : Nat) (e : Int) :
    (ofDecimal negative digits e).magnitude =
      magnitudeOfRatio (digits * power 10 e.toNat) (power 10 (-e).toNat) := by
  rw [ofDecimal_eq]
  refine magnitude_ofMagnitude (Nat.lt_of_le_of_lt (magnitudeOfRatio_le _ _) ?_) negative
  exact infinityMagnitude_lt

end Binary64

open Binary64

theorem Decimal.magnitude_stripZeros (fuel : Nat) (d : Decimal) :
    (d.stripZeros fuel).magnitude = d.magnitude := by
  induction fuel generalizing d with
  | zero => rfl
  | succ fuel ih =>
    unfold stripZeros
    split
    next h =>
      have hdigits : d.digits / 10 * power 10 1 = d.digits :=
        Nat.div_mul_cancel (Nat.dvd_of_mod_eq_zero h.2)
      have hshift := ofDecimal_shift false (d.digits / 10) 1 (d.exponent + 1)
      rw [hdigits, Nat.cast_one, Int.add_sub_cancel] at hshift
      rw [ih]
      unfold magnitude
      rw [hshift]
    · rfl

namespace Binary64

theorem ratio_den (x : Binary64) : ∃ j, x.ratio.2 = power 2 j := by
  unfold ratio
  split
  · exact ⟨0, rfl⟩
  · exact ⟨_, rfl⟩

theorem magnitude_exactDecimal {x : Binary64} (hx : x.isFinite = true) :
    x.exactDecimal.magnitude = x.magnitude := by
  obtain ⟨j, hj⟩ := x.ratio_den
  have hlog : Nat.log2 (power 2 j) = j := Nat.log2_two_pow
  unfold exactDecimal Decimal.magnitude
  rw [magnitude_ofDecimal, ← magnitudeOfRatio_ratio hx, hj, hlog]
  refine magnitudeOfRatio_congr (power_ten_pos _) (power_pos _) ?_
  have hten : power 10 j = power 5 j * power 2 j := Nat.mul_pow 5 2 j
  rw [show (-(j : Int)).toNat = 0 by omega, show (-(-(j : Int))).toNat = j by omega, power_zero,
    hten]
  ring

theorem magnitude_onGrid {x : Binary64} {point : Int} {n : Nat} {d : Decimal}
    (h : x.onGrid point n = some d) : d.magnitude = x.magnitude := by
  unfold onGrid at h
  simp only at h
  split at h
  next hlow =>
    cases h
    exact beq_iff_eq.1 hlow
  · split at h
    next hhigh =>
      cases h
      exact beq_iff_eq.1 hhigh
    · cases h

/-- **The shortest decimal reads back.** -/
theorem magnitude_shortest {x : Binary64} (hx : x.isFinite = true) :
    x.shortest.magnitude = x.magnitude := by
  unfold shortest
  split
  next h0 => exact (beq_iff_eq.1 h0).symm
  · rw [Decimal.magnitude_stripZeros]
    generalize pointPosition x.ratio.1 x.ratio.2 = point
    cases hfound : (List.range' 1 17).findSome? (x.onGrid point) with
    | none => exact magnitude_exactDecimal hx
    | some d =>
      obtain ⟨n, -, hn⟩ := List.exists_of_findSome?_eq_some hfound
      exact magnitude_onGrid hn

theorem digits_shortest_ne_zero {x : Binary64} (hx : x.isFinite = true) (h0 : x.isZero = false) :
    x.shortest.digits ≠ 0 := by
  intro hd
  have h := magnitude_shortest hx
  unfold Decimal.magnitude at h
  rw [magnitude_ofDecimal, hd, Nat.zero_mul] at h
  have : x.magnitude ≠ 0 := by simpa [isZero] using h0
  exact this h.symm

/-- The digits with a sign are the number. -/
theorem ofDecimal_shortest {x : Binary64} (hx : x.isFinite = true) :
    ofDecimal x.sign x.shortest.digits x.shortest.exponent = x := by
  have h := magnitude_shortest hx
  unfold Decimal.magnitude at h
  rw [magnitude_ofDecimal] at h
  rw [ofDecimal_eq, h, ofMagnitude_self]

end Binary64

/-! ## Digits around a point -/

namespace NumberLayout

open Literal

theorem digitsValue_eq (cs : List Char) : digitsValue cs = Nat.ofDigitChars 10 cs 0 := rfl

theorem isDigit_digitChars {n : Nat} {c : Char} (h : c ∈ digitChars n) : c.isDigit = true :=
  Nat.isDigit_of_mem_toDigits (by decide) (by decide) h

theorem digitChars_ne_nil (n : Nat) : digitChars n ≠ [] := Nat.toDigits_ne_nil

theorem digitsValue_digitChars (n : Nat) : digitsValue (digitChars n) = n :=
  Nat.ofDigitChars_ten_toDigits

theorem digitsValue_zeros_append (k : Nat) (cs : List Char) :
    digitsValue (List.replicate k '0' ++ cs) = digitsValue cs := by
  rw [digitsValue_eq, Nat.ofDigitChars_append, Nat.ofDigitChars_replicate_zero, Nat.mul_zero]
  rfl

theorem digitsValue_append_zeros (cs : List Char) (k : Nat) :
    digitsValue (cs ++ List.replicate k '0') = digitsValue cs * power 10 k := by
  rw [digitsValue_eq, Nat.ofDigitChars_append, Nat.ofDigitChars_replicate_zero, Nat.mul_comm]
  rfl

/-- A whole number other than zero has no leading zero. -/
theorem digitChars_head {n : Nat} (hn : n ≠ 0) : (digitChars n).head? ≠ some '0' := by
  induction n using Nat.strong_induction_on with
  | _ n ih =>
    unfold digitChars at ih ⊢
    rw [Nat.toDigits_eq_if (by decide)]
    split
    next hlt =>
      intro h
      have h0 : Nat.digitChar n = '0' := Option.some.inj h
      have : ∀ m < 10, Nat.digitChar m = '0' → m = 0 := by decide
      exact hn (this n hlt h0)
    · rw [List.head?_append_of_ne_nil _ Nat.toDigits_ne_nil]
      exact ih (n / 10) (by omega) (by omega)

/-- The digits on either side of the decimal point of a number's text. -/
structure Parts (x : Binary64) (whole fraction : List Char) : Prop where
  whole_ne : whole ≠ []
  fraction_ne : fraction ≠ []
  wholeDigits : ∀ c ∈ whole, c.isDigit = true
  fractionDigits : ∀ c ∈ fraction, c.isDigit = true
  lead : whole = ['0'] ∨ whole.head? ≠ some '0'
  value : Binary64.ofDecimal x.sign (digitsValue (whole ++ fraction)) (0 - fraction.length) = x

theorem isDigit_zeros {k : Nat} {c : Char} (h : c ∈ List.replicate k '0') : c.isDigit = true := by
  rw [List.eq_of_mem_replicate h]
  decide

/-- A number's digits without the decimal point, which stands `e` places behind their end. -/
structure Digits (x : Binary64) (ds : List Char) (e : Int) : Prop where
  pos : 0 < ds.length
  digits : ∀ c ∈ ds, c.isDigit = true
  lead : ds.head? ≠ some '0'
  value : Binary64.ofDecimal x.sign (digitsValue ds) e = x

theorem digits_shortest {x : Binary64} (hx : x.isFinite = true) (h0 : x.isZero = false) :
    Digits x (digitChars x.shortest.digits) x.shortest.exponent where
  pos := List.length_pos_iff.2 (digitChars_ne_nil _)
  digits := fun _ h => isDigit_digitChars h
  lead := digitChars_head (Binary64.digits_shortest_ne_zero hx h0)
  value := by rw [digitsValue_digitChars, Binary64.ofDecimal_shortest hx]

namespace Digits

variable {x : Binary64} {ds : List Char} {e : Int} {k : Nat}

/-- The point stands before the digits. -/
theorem parts_before (h : Digits x ds e) (hk : (ds.length : Int) + e = -k) :
    Parts x ['0'] (List.replicate k '0' ++ ds) where
  whole_ne := by decide
  fraction_ne := List.append_ne_nil_of_right_ne_nil _ (List.length_pos_iff.1 h.pos)
  wholeDigits := List.all_eq_true.1 (by decide)
  fractionDigits := by
    intro c hc
    exact (List.mem_append.1 hc).elim isDigit_zeros (h.digits c)
  lead := .inl rfl
  value := by
    have hzeros : ['0'] ++ (List.replicate k '0' ++ ds) = List.replicate (k + 1) '0' ++ ds := by
      rw [List.replicate_succ]
      rfl
    rw [hzeros, digitsValue_zeros_append, List.length_append, List.length_replicate]
    rw [show (0 : Int) - ((k + ds.length : Nat) : Int) = e by omega]
    exact h.value

/-- The point stands between the digits. -/
theorem parts_between (h : Digits x ds e) (hk : (ds.length : Int) + e = k) (hpos : 0 < k)
    (hlt : k < ds.length) : Parts x (ds.take k) (ds.drop k) where
  whole_ne := by
    rw [← List.length_pos_iff, List.length_take]
    omega
  fraction_ne := by
    rw [← List.length_pos_iff, List.length_drop]
    omega
  wholeDigits := fun c hc => h.digits c (List.mem_of_mem_take hc)
  fractionDigits := fun c hc => h.digits c (List.mem_of_mem_drop hc)
  lead := by
    right
    rw [List.head?_take, if_neg (by omega)]
    exact h.lead
  value := by
    rw [List.take_append_drop, List.length_drop]
    rw [show (0 : Int) - ((ds.length - k : Nat) : Int) = e by omega]
    exact h.value

/-- The point stands behind the digits. -/
theorem parts_behind (h : Digits x ds e) (hk : e = k) :
    Parts x (ds ++ List.replicate k '0') ['0'] where
  whole_ne := List.append_ne_nil_of_left_ne_nil (List.length_pos_iff.1 h.pos) _
  fraction_ne := by decide
  wholeDigits := by
    intro c hc
    exact (List.mem_append.1 hc).elim (h.digits c) isDigit_zeros
  fractionDigits := List.all_eq_true.1 (by decide)
  lead := by
    right
    rw [List.head?_append_of_ne_nil _ (List.length_pos_iff.1 h.pos)]
    exact h.lead
  value := by
    have hzeros : ds ++ List.replicate k '0' ++ ['0'] = ds ++ List.replicate (k + 1) '0' := by
      rw [List.replicate_succ', List.append_assoc]
    have hshift := Binary64.ofDecimal_shift x.sign (digitsValue ds) (k + 1) e
    rw [show e - ((k + 1 : Nat) : Int) = 0 - (['0'].length : Int) by simp; omega] at hshift
    rw [hzeros, digitsValue_append_zeros, hshift]
    exact h.value

/-- Wherever the point goes, there are digits on either side of it. Only a zero right behind it may
be left out, and the point with it. -/
theorem exists_parts (h : Digits x ds e) :
    ∃ whole fraction, Parts x whole fraction ∧
      setPoint true ds (ds.length + e) = whole ++ '.' :: fraction ∧
      (setPoint false ds (ds.length + e) = whole ++ '.' :: fraction ∨
        setPoint false ds (ds.length + e) = whole ∧ fraction = ['0']) := by
  unfold setPoint
  by_cases hbefore : (ds.length : Int) + e ≤ 0
  · rw [if_pos hbefore, if_pos hbefore]
    exact ⟨_, _, h.parts_before (by omega), rfl, .inl rfl⟩
  rw [if_neg hbefore, if_neg hbefore]
  by_cases hbetween : (ds.length : Int) + e < ds.length
  · rw [if_pos hbetween, if_pos hbetween]
    exact ⟨_, _, h.parts_between (by omega) (by omega) (by omega), rfl, .inl rfl⟩
  · rw [if_neg hbetween, if_neg hbetween, if_pos rfl, if_neg Bool.false_ne_true, List.append_nil]
    exact ⟨_, _, h.parts_behind (by omega), rfl, .inr ⟨rfl, rfl⟩⟩

end Digits

/-- The text of a number in the settings file and on a command line. -/
theorem exists_parts {x : Binary64} (hx : x.isFinite = true) :
    ∃ whole fraction, Parts x whole fraction ∧
      settings.writeAbs x = whole ++ '.' :: fraction ∧
      (plain.writeAbs x = whole ++ '.' :: fraction ∨
        plain.writeAbs x = whole ∧ fraction = ['0']) := by
  unfold writeAbs
  cases h0 : x.isZero with
  | true =>
    have hmagnitude : x.magnitude = 0 := by simpa [Binary64.isZero] using h0
    refine ⟨['0'], ['0'], ⟨by decide, by decide, List.all_eq_true.1 (by decide),
      List.all_eq_true.1 (by decide), .inl rfl, ?_⟩, rfl, .inr ⟨rfl, rfl⟩⟩
    show Binary64.ofMagnitude x.sign 0 = x
    rw [← hmagnitude, Binary64.ofMagnitude_self]
  | false => exact (digits_shortest hx h0).exists_parts

end NumberLayout

end ExportDesk
