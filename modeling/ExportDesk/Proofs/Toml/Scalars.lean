import ExportDesk.Proofs.Number.Decimals
import ExportDesk.Settings.Toml
import Mathlib.Data.List.TakeWhile

/-!
# Bare scalars read back

`means_number`, `means_count` and `means_truth`: what is written for a number, a count and a truth
value stands for that value. It reads as the value wherever no further character of a scalar
follows (`Means.read_append`).
-/

namespace ExportDesk.Toml.Scalar

open Literal NumberLayout

/-! ## Runs of scalar characters -/

/-- A text before which a scalar ends. -/
def EndsScalar (rest : List Char) : Prop := ∀ c ∈ rest.head?, isScalarChar c = false

theorem takeWhile_append_of_all {p : Char → Bool} {w rest : List Char} (hw : ∀ c ∈ w, p c = true)
    (hrest : ∀ c ∈ rest.head?, p c = false) : (w ++ rest).takeWhile p = w := by
  rw [List.takeWhile_append_of_pos hw]
  cases rest with
  | nil => rw [List.takeWhile_nil, List.append_nil]
  | cons c cs =>
    have hc : ¬ p c = true := by simpa using hrest c rfl
    rw [List.takeWhile_cons_of_neg hc, List.append_nil]

theorem dropWhile_append_of_all {p : Char → Bool} {w rest : List Char} (hw : ∀ c ∈ w, p c = true)
    (hrest : ∀ c ∈ rest.head?, p c = false) : (w ++ rest).dropWhile p = rest := by
  rw [List.dropWhile_append_of_pos hw]
  cases rest with
  | nil => rfl
  | cons c cs =>
    have hc : ¬ p c = true := by simpa using hrest c rfl
    rw [List.dropWhile_cons_of_neg hc]

theorem split_append {w rest : List Char} (hw : ∀ c ∈ w, isScalarChar c = true)
    (hrest : EndsScalar rest) (hdate : afterDate? w ≠ some []) : split (w ++ rest) = (w, rest) := by
  unfold split
  rw [takeWhile_append_of_all hw hrest, dropWhile_append_of_all hw hrest]
  simp only
  rw [if_neg (by simpa using hdate)]

/-- A run of characters that stands for a value; it is no date, which could take in a time. -/
structure Means (w : List Char) (d : Datum) : Prop where
  ne_nil : w ≠ []
  chars : ∀ c ∈ w, isScalarChar c = true
  noDate : afterDate? w ≠ some []
  meaning : classify w = some d

theorem Means.read_append {w rest : List Char} {d : Datum} (h : Means w d)
    (hrest : EndsScalar rest) : read (w ++ rest) = some (d, rest) := by
  unfold read
  rw [split_append h.chars hrest h.noDate, h.meaning]
  rfl

/-! ## No moments -/

theorem after?_of_not_mem {c : Char} {cs : List Char} (h : c ∉ cs) : after? c cs = none := by
  cases cs with
  | nil => rfl
  | cons d cs =>
    have hd : ¬ (d == c) = true := by
      rw [beq_iff_eq]
      rintro rfl
      exact h List.mem_cons_self
    show (if (d == c) = true then some cs else none) = none
    rw [if_neg hd]

theorem fixedDigits?_cons {c : Char} (hc : c.isDigit = false) (n : Nat) (cs : List Char) :
    fixedDigits? (n + 1) (c :: cs) = none := by
  unfold fixedDigits?
  simp [hc]

theorem mem_of_fixedDigits? {n v : Nat} {cs rest : List Char}
    (h : fixedDigits? n cs = some (v, rest)) {c : Char} (hc : c ∈ rest) : c ∈ cs := by
  unfold fixedDigits? at h
  simp only at h
  split at h
  · cases h
    exact List.mem_of_mem_drop hc
  · cases h

theorem afterDate?_of_not_mem {cs : List Char} (h : '-' ∉ cs) : afterDate? cs = none := by
  unfold afterDate?
  cases hy : fixedDigits? 4 cs with
  | none => rfl
  | some r =>
    have hno : '-' ∉ r.2 := fun hc => h (mem_of_fixedDigits? hy hc)
    show ((after? '-' r.2).bind _) = none
    rw [after?_of_not_mem hno]
    rfl

theorem afterTime?_of_not_mem {cs : List Char} (h : ':' ∉ cs) : afterTime? cs = none := by
  unfold afterTime?
  cases hy : fixedDigits? 2 cs with
  | none => rfl
  | some r =>
    have hno : ':' ∉ r.2 := fun hc => h (mem_of_fixedDigits? hy hc)
    show ((after? ':' r.2).bind _) = none
    rw [after?_of_not_mem hno]
    rfl

/-- The characters of a number written without exponent, its sign aside. -/
def isPlainChar (c : Char) : Bool := c.isDigit || c == '.'

/-- A sign, if there is one, before plain characters. -/
def signed (negative : Bool) (body : List Char) : List Char :=
  if negative then '-' :: body else body

theorem not_mem_plain {body : List Char} (h : ∀ c ∈ body, isPlainChar c = true) {c : Char}
    (hc : isPlainChar c = false) : c ∉ body := by
  intro hmem
  rw [h c hmem] at hc
  cases hc

theorem not_mem_signed {negative : Bool} {body : List Char}
    (h : ∀ c ∈ body, isPlainChar c = true) {c : Char} (hc : isPlainChar c = false)
    (hminus : c ≠ '-') : c ∉ signed negative body := by
  unfold signed
  split
  · intro hmem
    obtain rfl | hmem := List.mem_cons.1 hmem
    · exact hminus rfl
    · exact not_mem_plain h hc hmem
  · exact not_mem_plain h hc

theorem afterDate?_signed {body : List Char} (h : ∀ c ∈ body, isPlainChar c = true)
    (negative : Bool) : afterDate? (signed negative body) = none := by
  unfold signed
  split
  · unfold afterDate?
    rw [fixedDigits?_cons (by decide)]
    rfl
  · exact afterDate?_of_not_mem (not_mem_plain h (by decide))

theorem isMoment_signed {body : List Char} (h : ∀ c ∈ body, isPlainChar c = true)
    (negative : Bool) : isMoment (signed negative body) = false := by
  unfold isMoment
  rw [afterDate?_signed h, afterTime?_of_not_mem (not_mem_signed h (by decide) (by decide))]
  rfl

theorem isScalarChar_signed {body : List Char} (h : ∀ c ∈ body, isPlainChar c = true)
    {negative : Bool} {c : Char} (hc : c ∈ signed negative body) : isScalarChar c = true := by
  have hplain : isPlainChar c = true ∨ c = '-' := by
    unfold signed at hc
    split at hc
    · exact (List.mem_cons.1 hc).symm.imp_left (h c)
    · exact .inl (h c hc)
  unfold isScalarChar
  obtain hc | rfl := hplain
  · unfold isPlainChar at hc
    obtain hd | hd := Bool.or_eq_true_iff.1 hc
    · simp [Char.isAlphanum, hd]
    · simp [beq_iff_eq.1 hd]
  · decide

theorem splitSign_signed {body : List Char} (h : ∀ c ∈ body, isPlainChar c = true)
    (negative : Bool) : splitSign (signed negative body) = (negative, body) := by
  cases negative with
  | true => rfl
  | false =>
    show splitSign body = (false, body)
    unfold splitSign
    split
    · exact absurd List.mem_cons_self (not_mem_plain h (by decide))
    · exact absurd List.mem_cons_self (not_mem_plain h (by decide))
    · rfl

/-- What a sign and plain characters can mean: a whole number or a fraction. -/
theorem classify_signed {body : List Char} (h : ∀ c ∈ body, isPlainChar c = true)
    (negative : Bool) :
    classify (signed negative body) =
      if isWhole body then
        some (.whole (if negative then -(groupedValue 10 digitValue body : Int)
          else groupedValue 10 digitValue body))
      else fraction? negative body := by
  have hne {w : List Char} {c : Char} (hc : c ∈ w) (hplain : isPlainChar c = false)
      (hminus : c ≠ '-') : ¬ (signed negative body == w) = true := by
    rw [beq_iff_eq]
    rintro rfl
    exact not_mem_signed h hplain hminus hc
  have hne' {w : List Char} {c : Char} (hc : c ∈ w) (hplain : isPlainChar c = false) :
      ¬ (body == w) = true := by
    rw [beq_iff_eq]
    rintro rfl
    exact not_mem_plain h hplain hc
  have hsecond {c d : Char} {ds : List Char} (hplain : isPlainChar d = false) (hminus : d ≠ '-') :
      signed negative body ≠ c :: d :: ds := by
    have hno : d ∉ signed negative body := not_mem_signed h hplain hminus
    intro heq
    rw [heq] at hno
    exact hno (List.mem_cons_of_mem _ List.mem_cons_self)
  unfold classify
  rw [if_neg (hne (c := 't') (by decide) (by decide) (by decide)),
    if_neg (hne (c := 'f') (by decide) (by decide) (by decide)), isMoment_signed h,
    if_neg Bool.false_ne_true]
  split
  next heq => exact absurd heq (hsecond (by decide) (by decide))
  next heq => exact absurd heq (hsecond (by decide) (by decide))
  next heq => exact absurd heq (hsecond (by decide) (by decide))
  · rw [splitSign_signed h]
    simp only
    rw [if_neg (hne' (c := 'i') (by decide) (by decide)),
      if_neg (hne' (c := 'n') (by decide) (by decide))]

/-! ## Grouped digits -/

theorem ne_underscore_of_isDigit {c : Char} (h : c.isDigit = true) : c ≠ '_' := by
  rintro rfl
  exact absurd h (by decide)

theorem isGrouped_of_digits {cs : List Char} (hne : cs ≠ [])
    (h : ∀ c ∈ cs, c.isDigit = true) : isGrouped Char.isDigit cs = true := by
  induction cs with
  | nil => exact absurd rfl hne
  | cons c cs ih =>
    have hc := h c List.mem_cons_self
    cases cs with
    | nil => exact hc
    | cons d cs =>
      have hd := h d (List.mem_cons_of_mem _ List.mem_cons_self)
      rw [isGrouped, hc, ih (List.cons_ne_nil _ _) fun e he => h e (List.mem_cons_of_mem _ he)]
      · rfl
      · exact List.cons_ne_nil _ _
      · intro ds heq
        exact ne_underscore_of_isDigit hd (List.cons.inj heq).1

theorem mem_of_isGrouped {cs : List Char} (h : isGrouped Char.isDigit cs = true) {c : Char}
    (hc : c ∈ cs) : c.isDigit = true ∨ c = '_' := by
  fun_induction isGrouped Char.isDigit cs with
  | case1 => cases hc
  | case2 d =>
    obtain rfl := List.mem_singleton.1 hc
    exact .inl h
  | case3 d cs ih =>
    rw [Bool.and_eq_true] at h
    obtain rfl | hc := List.mem_cons.1 hc
    · exact .inl h.1
    · obtain rfl | hc := List.mem_cons.1 hc
      · exact .inr rfl
      · exact ih h.2 hc
  | case4 d cs _ _ ih =>
    rw [Bool.and_eq_true] at h
    obtain rfl | hc := List.mem_cons.1 hc
    · exact .inl h.1
    · exact ih h.2 hc

theorem isWhole_of_digits {cs : List Char} (hne : cs ≠ []) (h : ∀ c ∈ cs, c.isDigit = true)
    (hlead : cs = ['0'] ∨ cs.head? ≠ some '0') : isWhole cs = true := by
  unfold isWhole
  split
  · rfl
  next hnot =>
    obtain heq | hhead := hlead
    · exact absurd (List.cons.inj heq).2 hnot
    · exact absurd rfl hhead
  · exact isGrouped_of_digits hne h

theorem isWhole_of_point {cs : List Char} (h : '.' ∈ cs) : isWhole cs = false := by
  unfold isWhole
  split
  · exact absurd h (by decide)
  · rfl
  · rw [Bool.eq_false_iff]
    intro hgrouped
    exact absurd (mem_of_isGrouped hgrouped h) (by decide)

theorem filter_underscore {cs : List Char} (h : ∀ c ∈ cs, isPlainChar c = true) :
    cs.filter (· != '_') = cs := by
  rw [List.filter_eq_self]
  intro c hc
  rw [bne_iff_ne]
  rintro rfl
  exact absurd (h _ hc) (by decide)

theorem groupedValue_digits {cs : List Char} (h : ∀ c ∈ cs, c.isDigit = true) :
    groupedValue 10 digitValue cs = digitsValue cs := by
  unfold groupedValue digitsValue
  rw [filter_underscore fun c hc => by rw [isPlainChar, h c hc]; rfl]
  refine List.foldl_ext _ _ 0 fun n c hc => ?_
  unfold digitValue
  rw [if_pos (h c hc)]

/-! ## Numbers -/

theorem isPlainChar_of_isDigit {c : Char} (h : c.isDigit = true) : isPlainChar c = true := by
  unfold isPlainChar
  rw [h]
  rfl

/-- Digits on both sides of a point. -/
theorem isPlainChar_point {whole fraction : List Char} (hwhole : ∀ c ∈ whole, c.isDigit = true)
    (hfraction : ∀ c ∈ fraction, c.isDigit = true) :
    ∀ c ∈ whole ++ '.' :: fraction, isPlainChar c = true := by
  intro c hc
  obtain hc | hc := List.mem_append.1 hc
  · exact isPlainChar_of_isDigit (hwhole c hc)
  · obtain rfl | hc := List.mem_cons.1 hc
    · decide
    · exact isPlainChar_of_isDigit (hfraction c hc)

section

variable {x : Binary64} {whole fraction : List Char}

theorem isPlainChar_parts (h : Parts x whole fraction) :
    ∀ c ∈ whole ++ '.' :: fraction, isPlainChar c = true :=
  isPlainChar_point h.wholeDigits h.fractionDigits

theorem isFraction_parts (h : Parts x whole fraction) :
    isFraction (whole ++ '.' :: fraction) = true := by
  have hwhole : ∀ c ∈ whole, (c.isDigit || c == '_') = true := by
    intro c hc
    rw [h.wholeDigits c hc]
    rfl
  have hfraction : ∀ c ∈ fraction, (c.isDigit || c == '_') = true := by
    intro c hc
    rw [h.fractionDigits c hc]
    rfl
  have htake : fraction.takeWhile (fun c => c.isDigit || c == '_') = fraction :=
    List.takeWhile_eq_self_iff.2 hfraction
  have hdrop : fraction.dropWhile (fun c => c.isDigit || c == '_') = [] :=
    List.dropWhile_eq_nil_iff.2 hfraction
  have hpoint : ∀ c ∈ ('.' :: fraction).head?, (c.isDigit || c == '_') = false := by
    rintro c ⟨rfl⟩
    decide
  unfold isFraction
  simp only
  rw [takeWhile_append_of_all hwhole hpoint, dropWhile_append_of_all hwhole hpoint]
  simp only
  rw [isWhole_of_digits h.whole_ne h.wholeDigits h.lead, htake, hdrop,
    isGrouped_of_digits h.fraction_ne h.fractionDigits]
  rfl

theorem readNumber_parts (h : Parts x whole fraction) :
    readNumber x.sign (whole ++ '.' :: fraction) = some x := by
  have hpoint : ∀ c ∈ ('.' :: fraction).head?, c.isDigit = false := by
    rintro c ⟨rfl⟩
    decide
  have hsplit : splitDigits (whole ++ '.' :: fraction) = (whole, '.' :: fraction) := by
    unfold splitDigits
    rw [takeWhile_append_of_all h.wholeDigits hpoint,
      dropWhile_append_of_all h.wholeDigits hpoint]
  have hrest : splitFraction ('.' :: fraction) = (fraction, []) := by
    show splitDigits fraction = _
    unfold splitDigits
    rw [List.takeWhile_eq_self_iff.2 h.fractionDigits,
      List.dropWhile_eq_nil_iff.2 h.fractionDigits]
  have hne : whole.isEmpty = false := by
    rw [List.isEmpty_eq_false_iff]
    exact h.whole_ne
  unfold readNumber
  rw [hsplit]
  simp only
  rw [hrest]
  simp only
  rw [hne, Bool.false_and, if_neg Bool.false_ne_true]
  show some (Binary64.ofDecimal x.sign _ _) = some x
  rw [h.value]

theorem classify_parts (hx : x.isFinite = true) (h : Parts x whole fraction) :
    classify (signed x.sign (whole ++ '.' :: fraction)) = some (.number x) := by
  have hplain := isPlainChar_parts h
  have hpoint : '.' ∈ whole ++ '.' :: fraction := List.mem_append_right _ List.mem_cons_self
  rw [classify_signed hplain, isWhole_of_point hpoint, if_neg Bool.false_ne_true]
  unfold fraction?
  rw [if_pos (isFraction_parts h), filter_underscore hplain, readNumber_parts h]
  show (if x.isFinite then some (Datum.number x) else none) = _
  rw [if_pos hx]

end

/-- The number that the text of a number stands for: the sign of what is no number is not kept. -/
def plainNumber (x : Binary64) : Binary64 := if x.isNaN then Binary64.nan else x

theorem write_finite {l : NumberLayout} {x : Binary64} (hx : x.isFinite = true) :
    (l.write x).toList = signed x.sign (l.writeAbs x) := by
  have hlt : x.magnitude < Binary64.infinityMagnitude := by simpa [Binary64.isFinite] using hx
  have hnan : x.isNaN = false := by
    unfold Binary64.isNaN
    rw [decide_eq_false (by omega)]
  have hinf : x.isInfinite = false := by
    unfold Binary64.isInfinite
    rw [beq_eq_false_iff_ne]
    omega
  unfold write signed
  rw [hnan, if_neg Bool.false_ne_true, hinf, if_neg Bool.false_ne_true, String.toList_append,
    String.toList_ofList]
  cases x.sign <;> rfl

theorem write_infinite {x : Binary64} (hx : x.isInfinite = true) :
    (settings.write x).toList = signed x.sign ['i', 'n', 'f'] := by
  have heq : x.magnitude = Binary64.infinityMagnitude := beq_iff_eq.1 hx
  have hnan : x.isNaN = false := by
    unfold Binary64.isNaN
    rw [decide_eq_false (by omega)]
  unfold write signed
  rw [hnan, if_neg Bool.false_ne_true, hx]
  simp only [if_true]
  rw [if_neg (by decide), String.toList_append]
  cases x.sign <;> rfl

theorem means_signed {body : List Char} {d : Datum} {negative : Bool} (hne : body ≠ [])
    (h : ∀ c ∈ body, isPlainChar c = true) (hd : classify (signed negative body) = some d) :
    Means (signed negative body) d := by
  refine ⟨?_, fun c hc => isScalarChar_signed h hc, ?_, hd⟩
  · unfold signed
    split
    · exact List.cons_ne_nil _ _
    · exact hne
  · rw [afterDate?_signed h]
    exact (Option.some_ne_none _).symm

/-- **What is written for a number stands for it.** -/
theorem means_number (x : Binary64) :
    Means (settings.write (plainNumber x)).toList (.number (plainNumber x)) := by
  unfold plainNumber
  cases hnan : x.isNaN with
  | true =>
    rw [if_pos rfl]
    exact ⟨by decide, List.all_eq_true.1 (by decide), by decide, by rfl⟩
  | false =>
    rw [if_neg Bool.false_ne_true]
    have hle : x.magnitude ≤ Binary64.infinityMagnitude := by
      simpa [Binary64.isNaN] using hnan
    obtain hlt | heq := Nat.lt_or_eq_of_le hle
    · have hx : x.isFinite = true := decide_eq_true hlt
      obtain ⟨whole, fraction, hparts, hwrite, -⟩ := exists_parts hx
      rw [write_finite hx, hwrite]
      refine means_signed ?_ (isPlainChar_parts hparts) (classify_parts hx hparts)
      exact List.append_ne_nil_of_left_ne_nil hparts.whole_ne _
    · have hx : x.isInfinite = true := beq_iff_eq.2 heq
      have hself : Binary64.infinity x.sign = x := by
        unfold Binary64.infinity
        rw [← heq, Binary64.ofMagnitude_self]
      have hinf (negative : Bool) : Means (signed negative ['i', 'n', 'f'])
          (.number (Binary64.infinity negative)) := by
        cases negative <;> exact ⟨by decide, List.all_eq_true.1 (by decide), by decide, by rfl⟩
      have h := hinf x.sign
      rwa [hself, ← write_infinite hx] at h

/-- **What is written for a count stands for it.** -/
theorem means_count (n : Nat) : Means (toString n).toList (.whole n) := by
  have hwrite : (toString n).toList = signed false (digitChars n) := Nat.toList_repr
  have hdigits : ∀ c ∈ digitChars n, c.isDigit = true := fun c hc => isDigit_digitChars hc
  have hlead : digitChars n = ['0'] ∨ (digitChars n).head? ≠ some '0' := by
    by_cases h0 : n = 0
    · subst h0
      exact .inl (Nat.toDigits_zero 10)
    · exact .inr (digitChars_head h0)
  have hplain : ∀ c ∈ digitChars n, isPlainChar c = true :=
    fun c hc => isPlainChar_of_isDigit (hdigits c hc)
  rw [hwrite]
  refine means_signed (digitChars_ne_nil n) hplain ?_
  rw [classify_signed hplain, isWhole_of_digits (digitChars_ne_nil n) hdigits hlead,
    groupedValue_digits hdigits, digitsValue_digitChars]
  rfl

/-- **What is written for a truth value stands for it.** -/
theorem means_truth (b : Bool) : Means (if b then "true" else "false").toList (.truth b) := by
  cases b <;> exact ⟨by decide, List.all_eq_true.1 (by decide), by decide, by rfl⟩

end ExportDesk.Toml.Scalar
