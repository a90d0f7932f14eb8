import ExportDesk.Proofs.Toml.Blanks

/-!
# What a reader takes, it takes again

Each reader takes a beginning of the text, and takes the same beginning whatever follows it there,
as long as the beginning could not go on: a string must not be followed by another mark
(`read_taken`), a scalar not by a character that may stand in one (`Scalar.read_taken`).
-/

namespace ExportDesk.Toml

namespace Quoted

/-! ## Strings on one line -/

theorem shortEscape?_letters {c d : Char} (h : shortEscape? c = some d) :
    c ≠ 'u' ∧ c ≠ 'U' ∧ c ≠ 'x' := by
  refine ⟨?_, ?_, ?_⟩ <;> (rintro rfl; simp [shortEscape?] at h)

theorem readBasic_taken {cs s rest : List Char} (h : readBasic cs = some (s, rest)) :
    ∃ w, cs = w ++ rest ∧ ∀ rest', readBasic (w ++ rest') = some (s, rest') := by
  fun_induction readBasic cs generalizing s with
  | case1 => cases h
  | case2 cs =>
    cases h
    exact ⟨['"'], rfl, fun _ => rfl⟩
  | case3 a b c d cs ih =>
    obtain ⟨e, he, h⟩ := Option.bind_eq_some_iff.1 h
    obtain ⟨s, hr, rfl⟩ := Reader.push_eq_some h
    obtain ⟨w, rfl, hw⟩ := ih hr
    refine ⟨'\\' :: 'u' :: a :: b :: c :: d :: w, rfl, fun rest' => ?_⟩
    simp only [List.cons_append]
    rw [readBasic, he, hw]
    rfl
  | case4 a b c d e f g k cs ih =>
    obtain ⟨x, hx, h⟩ := Option.bind_eq_some_iff.1 h
    obtain ⟨s, hr, rfl⟩ := Reader.push_eq_some h
    obtain ⟨w, rfl, hw⟩ := ih hr
    refine ⟨'\\' :: 'U' :: a :: b :: c :: d :: e :: f :: g :: k :: w, rfl, fun rest' => ?_⟩
    simp only [List.cons_append]
    rw [readBasic, hx, hw]
    rfl
  | case5 a b cs ih =>
    obtain ⟨e, he, h⟩ := Option.bind_eq_some_iff.1 h
    obtain ⟨s, hr, rfl⟩ := Reader.push_eq_some h
    obtain ⟨w, rfl, hw⟩ := ih hr
    refine ⟨'\\' :: 'x' :: a :: b :: w, rfl, fun rest' => ?_⟩
    simp only [List.cons_append]
    rw [readBasic, he, hw]
    rfl
  | case6 c cs _ _ _ ih =>
    obtain ⟨e, he, h⟩ := Option.bind_eq_some_iff.1 h
    obtain ⟨s, hr, rfl⟩ := Reader.push_eq_some h
    obtain ⟨w, rfl, hw⟩ := ih hr
    obtain ⟨hu, hU, hx⟩ := shortEscape?_letters he
    refine ⟨'\\' :: c :: w, rfl, fun rest' => ?_⟩
    simp only [List.cons_append]
    rw [readBasic, he, hw]
    · rfl
    all_goals simp [hu, hU, hx]
  | case7 => cases h
  | case8 c cs hquote _ _ _ hbackslash hplain ih =>
    obtain ⟨s, hr, rfl⟩ := Reader.push_eq_some h
    obtain ⟨w, rfl, hw⟩ := ih hr
    have hb : c ≠ '\\' := by
      rintro rfl
      cases hcs : w ++ rest with
      | nil =>
        rw [hcs] at hr
        cases hr
      | cons d ds => exact hbackslash d ds rfl hcs
    refine ⟨c :: w, rfl, fun rest' => ?_⟩
    rw [List.cons_append, readBasic, if_neg hplain, hw]
    · rfl
    · exact hquote
    all_goals simp [hb]

theorem readLiteral_taken {cs s rest : List Char} (h : readLiteral cs = some (s, rest)) :
    ∃ w, cs = w ++ rest ∧ ∀ rest', readLiteral (w ++ rest') = some (s, rest') := by
  fun_induction readLiteral cs generalizing s with
  | case1 => cases h
  | case2 c cs hmark =>
    cases h
    refine ⟨[c], rfl, fun rest' => ?_⟩
    rw [List.singleton_append, readLiteral, if_pos hmark]
  | case3 => cases h
  | case4 c cs hmark hplain ih =>
    obtain ⟨s, hr, rfl⟩ := Reader.push_eq_some h
    obtain ⟨w, rfl, hw⟩ := ih hr
    refine ⟨c :: w, rfl, fun rest' => ?_⟩
    rw [List.cons_append, readLiteral, if_neg hmark, if_neg hplain, hw]
    rfl

/-- A string on one line is read the same whatever follows it. -/
theorem readOneLine_taken {cs s rest : List Char} (h : readOneLine cs = some (s, rest)) :
    ∃ c w, cs = c :: w ++ rest ∧ (c = '"' ∨ c = '\'') ∧
      ∀ rest', readOneLine (c :: w ++ rest') = some (s, rest') := by
  unfold readOneLine at h
  split at h
  · obtain ⟨w, rfl, hw⟩ := readBasic_taken h
    exact ⟨'"', w, rfl, .inl rfl, hw⟩
  · obtain ⟨w, rfl, hw⟩ := readLiteral_taken h
    exact ⟨'\'', w, rfl, .inr rfl, hw⟩
  · cases h

/-! ## Strings on several lines

What is read ends with the three closing marks, so whatever the reader looks ahead for stands
before their end. -/

theorem lineEndsHere_append (v rest rest' : List Char) :
    lineEndsHere (v ++ '"' :: rest) = lineEndsHere (v ++ '"' :: rest') := by
  induction v with
  | nil => rfl
  | cons c v ih =>
    unfold lineEndsHere at ih ⊢
    by_cases hgap : (c == ' ' || c == '\t') = true
    · simp only [List.cons_append, List.dropWhile_cons, hgap, if_true]
      exact ih
    · simp only [List.cons_append, List.dropWhile_cons, hgap]
      by_cases hr : c = '\r'
      · subst hr
        cases v with
        | nil => rfl
        | cons d v => by_cases hd : d = '\n' <;> simp [hd]
      · by_cases hn : c = '\n' <;> simp [hn, hr]

theorem ne_letters_of_lineEndsHere {c : Char} {cs : List Char}
    (h : lineEndsHere (c :: cs) = true) : c ≠ 'u' ∧ c ≠ 'U' ∧ c ≠ 'x' := by
  refine ⟨?_, ?_, ?_⟩ <;> (rintro rfl; simp [lineEndsHere] at h)

/-- A backslash at the end of a line joins the text to what comes next. -/
theorem readMultilineBasic_join {joining : Bool} {c : Char} {cs : List Char}
    (h : lineEndsHere (c :: cs) = true) (hr : c ≠ '\r') :
    readMultilineBasic joining ('\\' :: c :: cs) = readMultilineBasic true cs := by
  obtain ⟨hu, hU, hx⟩ := ne_letters_of_lineEndsHere h
  cases cs with
  | nil =>
    rw [readMultilineBasic.eq_10, if_pos h, if_neg (by simpa using hr)]
    all_goals simp
  | cons d cs =>
    rw [readMultilineBasic.eq_9, if_pos h, if_neg (by simpa using hr)]
    all_goals simp [hu, hU, hx]

theorem isPrefixOf_append {a b c : Char} (d : Char) (v rest rest' : List Char) :
    [a, b] <+: v ++ c :: d :: rest ↔ [a, b] <+: v ++ c :: d :: rest' := by
  cases v with
  | nil => simp
  | cons e v => cases v <;> simp

theorem readMultilineBasic_taken {joining : Bool} {cs s rest : List Char}
    (h : readMultilineBasic joining cs = some (s, rest)) :
    ∃ v, cs = v ++ '"' :: '"' :: '"' :: rest ∧ ∀ rest', rest'.head? ≠ some '"' →
      readMultilineBasic joining (v ++ '"' :: '"' :: '"' :: rest') = some (s, rest') := by
  fun_induction readMultilineBasic joining cs generalizing s with
  | case1 => cases h
  | case2 =>
    cases h
    exact ⟨['"', '"'], rfl, fun rest' _ => by simp [readMultilineBasic]⟩
  | case3 =>
    cases h
    refine ⟨['"'], rfl, fun rest' hrest => ?_⟩
    simp only [List.cons_append, List.nil_append]
    rw [readMultilineBasic]
    rintro cs' rfl
    exact hrest rfl
  | case4 =>
    cases h
    refine ⟨[], rfl, fun rest' hrest => ?_⟩
    rw [List.nil_append, readMultilineBasic]
    · rintro cs' rfl
      exact hrest rfl
    · rintro cs' rfl
      exact hrest rfl
  | case5 cs ih =>
    obtain ⟨v, rfl, hv⟩ := ih h
    refine ⟨'\r' :: '\n' :: v, rfl, fun rest' hrest => ?_⟩
    simp only [List.cons_append]
    rw [readMultilineBasic, if_pos rfl, hv rest' hrest]
  | case6 joining cs hjoining ih =>
    obtain ⟨u, hu, rfl⟩ := Reader.push_eq_some h
    obtain ⟨s, hr, rfl⟩ := Reader.push_eq_some hu
    obtain ⟨v, rfl, hv⟩ := ih hr
    refine ⟨'\r' :: '\n' :: v, rfl, fun rest' hrest => ?_⟩
    simp only [List.cons_append]
    rw [readMultilineBasic, if_neg hjoining, hv rest' hrest]
    rfl
  | case7 joining a b c d cs ih =>
    obtain ⟨e, he, h⟩ := Option.bind_eq_some_iff.1 h
    obtain ⟨s, hr, rfl⟩ := Reader.push_eq_some h
    obtain ⟨v, rfl, hv⟩ := ih hr
    refine ⟨'\\' :: 'u' :: a :: b :: c :: d :: v, rfl, fun rest' hrest => ?_⟩
    simp only [List.cons_append]
    rw [readMultilineBasic, he, hv rest' hrest]
    rfl
  | case8 joining a b c d e f g k cs ih =>
    obtain ⟨x, hx, h⟩ := Option.bind_eq_some_iff.1 h
    obtain ⟨s, hr, rfl⟩ := Reader.push_eq_some h
    obtain ⟨v, rfl, hv⟩ := ih hr
    refine ⟨'\\' :: 'U' :: a :: b :: c :: d :: e :: f :: g :: k :: v, rfl,
      fun rest' hrest => ?_⟩
    simp only [List.cons_append]
    rw [readMultilineBasic, hx, hv rest' hrest]
    rfl
  | case9 joining a b cs ih =>
    obtain ⟨e, he, h⟩ := Option.bind_eq_some_iff.1 h
    obtain ⟨s, hr, rfl⟩ := Reader.push_eq_some h
    obtain ⟨v, rfl, hv⟩ := ih hr
    refine ⟨'\\' :: 'x' :: a :: b :: v, rfl, fun rest' hrest => ?_⟩
    simp only [List.cons_append]
    rw [readMultilineBasic, he, hv rest' hrest]
    rfl
  | case10 joining c hc d cs _ _ _ hends ih =>
    obtain ⟨v, rfl, hv⟩ := ih h
    obtain rfl := beq_iff_eq.1 hc
    refine ⟨'\\' :: '\r' :: d :: v, rfl, fun rest' hrest => ?_⟩
    have hends' := hends
    rw [← List.cons_append, ← List.cons_append, lineEndsHere_append _ _ ('"' :: '"' :: rest')]
      at hends'
    simp only [List.cons_append] at hends' ⊢
    rw [readMultilineBasic, if_pos hends', if_pos hc, hv rest' hrest]
    all_goals simp
  | case11 => cases h
  | case12 joining c cs _ _ _ hends hc ih =>
    obtain ⟨v, rfl, hv⟩ := ih h
    refine ⟨'\\' :: c :: v, rfl, fun rest' hrest => ?_⟩
    rw [← List.cons_append, lineEndsHere_append _ _ ('"' :: '"' :: rest')] at hends
    simp only [List.cons_append] at hends ⊢
    rw [readMultilineBasic_join hends (by simpa using hc), hv rest' hrest]
  | case13 joining c cs _ _ _ hends ih =>
    obtain ⟨e, he, h⟩ := Option.bind_eq_some_iff.1 h
    obtain ⟨s, hr, rfl⟩ := Reader.push_eq_some h
    obtain ⟨v, rfl, hv⟩ := ih hr
    refine ⟨'\\' :: c :: v, rfl, fun rest' hrest => ?_⟩
    simp only [List.cons_append]
    rw [readMultilineBasic_short _ he, hv rest' hrest]
    rfl
  | case14 joining c cs _ _ _ _ _ _ _ _ hjoin ih =>
    obtain ⟨v, rfl, hv⟩ := ih h
    have hjoins := Bool.and_eq_true_iff.1 hjoin
    refine ⟨c :: v, rfl, fun rest' hrest => ?_⟩
    obtain (rfl | rfl) | rfl : (c = ' ' ∨ c = '\t') ∨ c = '\n' := by simpa using hjoins.2
    all_goals
      rw [List.cons_append, readMultilineBasic, if_pos hjoin, hv rest' hrest]
      all_goals simp
  | case15 => cases h
  | case16 joining c cs _ _ hq3 _ _ _ _ hbackslash hjoin hcontrol ih =>
    obtain ⟨s, hr, rfl⟩ := Reader.push_eq_some h
    obtain ⟨v, rfl, hv⟩ := ih hr
    refine ⟨c :: v, rfl, fun rest' hrest => ?_⟩
    have hb : c ≠ '\\' := by
      rintro rfl
      cases v with
      | nil => exact hbackslash _ _ rfl rfl
      | cons d v => exact hbackslash _ _ rfl rfl
    have hreturn : c ≠ '\r' := Reader.ne_return_of_isControl hcontrol
    have hthree (cs : List Char) (hc : c = '"') :
        v ++ '"' :: '"' :: '"' :: rest' ≠ '"' :: '"' :: cs := by
      intro heq
      obtain ⟨t, ht⟩ := (isPrefixOf_append '"' v ('"' :: rest') ('"' :: rest)).1 ⟨cs, heq.symm⟩
      exact hq3 t hc ht.symm
    rw [List.cons_append, readMultilineBasic, if_neg hjoin, if_neg hcontrol, hv rest' hrest]
    · rfl
    · exact fun cs hc => hthree _ hc
    · exact fun cs hc => hthree _ hc
    · exact fun cs hc => hthree _ hc
    · exact fun _ hc => absurd hc hreturn
    all_goals simp [hb]

theorem readMultilineLiteral_taken {cs s rest : List Char}
    (h : readMultilineLiteral cs = some (s, rest)) :
    ∃ v, cs = v ++ '\'' :: '\'' :: '\'' :: rest ∧ ∀ rest', rest'.head? ≠ some '\'' →
      readMultilineLiteral (v ++ '\'' :: '\'' :: '\'' :: rest') = some (s, rest') := by
  fun_induction readMultilineLiteral cs generalizing s with
  | case1 => cases h
  | case2 =>
    cases h
    exact ⟨['\'', '\''], rfl, fun rest' _ => by simp [readMultilineLiteral]⟩
  | case3 =>
    cases h
    refine ⟨['\''], rfl, fun rest' hrest => ?_⟩
    simp only [List.cons_append, List.nil_append]
    rw [readMultilineLiteral]
    rintro cs' rfl
    exact hrest rfl
  | case4 =>
    cases h
    refine ⟨[], rfl, fun rest' hrest => ?_⟩
    rw [List.nil_append, readMultilineLiteral]
    · rintro cs' rfl
      exact hrest rfl
    · rintro cs' rfl
      exact hrest rfl
  | case5 cs ih =>
    obtain ⟨u, hu, rfl⟩ := Reader.push_eq_some h
    obtain ⟨s, hr, rfl⟩ := Reader.push_eq_some hu
    obtain ⟨v, rfl, hv⟩ := ih hr
    refine ⟨'\r' :: '\n' :: v, rfl, fun rest' hrest => ?_⟩
    simp only [List.cons_append]
    rw [readMultilineLiteral, hv rest' hrest]
    rfl
  | case6 => cases h
  | case7 c cs _ _ hq3 _ hcontrol ih =>
    obtain ⟨s, hr, rfl⟩ := Reader.push_eq_some h
    obtain ⟨v, rfl, hv⟩ := ih hr
    refine ⟨c :: v, rfl, fun rest' hrest => ?_⟩
    rw [List.cons_append, readMultilineLiteral_step (by simpa using hcontrol), hv rest' hrest]
    · rfl
    · intro hc hprefix
      obtain ⟨t, ht⟩ := (isPrefixOf_append '\'' v ('\'' :: rest') ('\'' :: rest)).1 hprefix
      exact hq3 t hc ht.symm

/-! ## Strings in any of the ways -/

/-- The line end that opens a text of several lines does not depend on what follows the text. -/
theorem dropLineEnd_taken {c : Char} (hn : c ≠ '\n') (hr : c ≠ '\r') {cs v rest : List Char}
    (h : dropLineEnd cs = v ++ c :: rest) :
    ∃ u, cs = u ++ c :: rest ∧ ∀ rest', dropLineEnd (u ++ c :: rest') = v ++ c :: rest' := by
  unfold dropLineEnd at h
  split at h
  · exact ⟨'\n' :: v, by rw [h, List.cons_append], fun _ => rfl⟩
  · exact ⟨'\r' :: '\n' :: v, by rw [h, List.cons_append, List.cons_append], fun _ => rfl⟩
  next hline hreturn =>
    refine ⟨v, h, fun rest' => ?_⟩
    match v with
    | [] => exact dropLineEnd_of_head (by simpa using hn) (by simpa using hr)
    | [d] =>
      have hd : d ≠ '\n' := by
        rintro rfl
        exact hline _ h
      simp [dropLineEnd, hd, hn]
    | d :: e :: v =>
      have hd : d ≠ '\n' := by
        rintro rfl
        exact hline _ h
      have he : d = '\r' → e ≠ '\n' := by
        rintro rfl rfl
        exact hreturn _ h
      by_cases hdr : d = '\r'
      · simp [dropLineEnd, hdr, he hdr]
      · simp [dropLineEnd, hd, hdr]

/-- Whether two marks come first is settled by what was read, and by the first mark after a single
character. -/
theorem not_twoMarks_append {mark : Char} {w rest rest' : List Char} (hw : w ≠ [])
    (hmark : ¬ [mark, mark] <+: w ++ rest) (hrest : rest'.head? ≠ some mark) :
    ¬ [mark, mark] <+: w ++ rest' := by
  cases w with
  | nil => exact absurd rfl hw
  | cons d w =>
    cases w with
    | nil =>
      rintro ⟨t, ht⟩
      obtain rfl := (List.cons.inj ht).2
      exact hrest rfl
    | cons e w => simpa using hmark

/-- **A string is read the same** unless a further mark follows it. -/
theorem read_taken {cs s rest : List Char} (h : read cs = some (s, rest)) :
    ∃ c w, cs = c :: w ++ rest ∧ (c = '"' ∨ c = '\'') ∧
      ∀ rest', EndsString rest' → read (c :: w ++ rest') = some (s, rest') := by
  unfold read at h
  split at h
  next cs =>
    obtain ⟨v, hdrop, hv⟩ := readMultilineBasic_taken h
    obtain ⟨u, rfl, hu⟩ := dropLineEnd_taken (by decide) (by decide) hdrop
    refine ⟨'"', '"' :: '"' :: (u ++ ['"', '"', '"']), by simp, .inl rfl, fun rest' hrest => ?_⟩
    have hread := hv rest' hrest.1
    rw [← hu] at hread
    simpa [read] using hread
  next cs =>
    obtain ⟨v, hdrop, hv⟩ := readMultilineLiteral_taken h
    obtain ⟨u, rfl, hu⟩ := dropLineEnd_taken (by decide) (by decide) hdrop
    refine ⟨'\'', '\'' :: '\'' :: (u ++ ['\'', '\'', '\'']), by simp, .inr rfl,
      fun rest' hrest => ?_⟩
    have hread := hv rest' hrest.2
    rw [← hu] at hread
    simpa [read] using hread
  next hthree hthree' =>
    split at h
    next cs =>
      obtain ⟨w, rfl, hw⟩ := readBasic_taken h
      refine ⟨'"', w, rfl, .inl rfl, fun rest' hrest => ?_⟩
      have hne : w ≠ [] := by
        rintro rfl
        cases hw []
      have hmark : ¬ ['"', '"'] <+: w ++ rest := by
        rintro ⟨t, ht⟩
        exact hthree t (by rw [← ht]; rfl)
      rw [List.cons_append, read_quote (not_twoMarks_append hne hmark hrest.1), hw]
    next cs =>
      obtain ⟨w, rfl, hw⟩ := readLiteral_taken h
      refine ⟨'\'', w, rfl, .inr rfl, fun rest' hrest => ?_⟩
      have hne : w ≠ [] := by
        rintro rfl
        cases hw []
      have hmark : ¬ ['\'', '\''] <+: w ++ rest := by
        rintro ⟨t, ht⟩
        exact hthree' t (by rw [← ht]; rfl)
      rw [List.cons_append, read_apostrophe (not_twoMarks_append hne hmark hrest.2), hw]
    · cases h

end Quoted

namespace Scalar

/-! ## Bare scalars -/

/-- The text cannot be part of a scalar before it: neither its first character, nor, after one
blank, a digit, which could begin the time of a date. -/
structure EndsMoment (rest : List Char) : Prop where
  ends : EndsScalar rest
  time : ∀ c more, rest = ' ' :: c :: more → c.isDigit = false

/-- A run of characters of a kind is found again before anything that does not go on with it. -/
theorem run_append {p : Char → Bool} (cs : List Char) {rest : List Char}
    (hrest : ∀ c ∈ rest.head?, p c = false) :
    (cs.takeWhile p ++ rest).takeWhile p = cs.takeWhile p ∧
      (cs.takeWhile p ++ rest).dropWhile p = rest :=
  have hall : ∀ c ∈ cs.takeWhile p, p c = true := fun _ hc => List.mem_takeWhile_imp hc
  ⟨takeWhile_append_of_all hall hrest, dropWhile_append_of_all hall hrest⟩

theorem isScalarChar_of_isDigit {c : Char} (h : c.isDigit = true) : isScalarChar c = true := by
  simp [isScalarChar, Char.isAlphanum, h]

/-- A date before a blank and a digit takes in the run that follows. -/
theorem split_date {cs more : List Char} {c : Char}
    (hdate : afterDate? (cs.takeWhile isScalarChar) = some [])
    (hrest : cs.dropWhile isScalarChar = ' ' :: c :: more) (hc : c.isDigit = true) :
    split cs = (cs.takeWhile isScalarChar ++ ' ' :: (c :: more).takeWhile isScalarChar,
      (c :: more).dropWhile isScalarChar) := by
  unfold split
  simp only
  rw [hrest, hdate, if_pos (by decide)]
  simp only
  rw [if_pos hc]

/-- Any other scalar is a single run. -/
theorem split_run {cs : List Char}
    (h : ∀ c more, afterDate? (cs.takeWhile isScalarChar) = some [] →
      cs.dropWhile isScalarChar = ' ' :: c :: more → c.isDigit = false) :
    split cs = (cs.takeWhile isScalarChar, cs.dropWhile isScalarChar) := by
  unfold split
  simp only
  split
  next hdate =>
    split
    next c more hrest =>
      rw [if_neg (by simpa using h c more (beq_iff_eq.1 hdate) hrest), hrest]
    · rfl
  · rfl

/-- What is split off begins with a character of a scalar, and is split off again. -/
theorem split_taken (cs : List Char) :
    cs = (split cs).1 ++ (split cs).2 ∧ (∀ c ∈ (split cs).1.head?, isScalarChar c = true) ∧
      ∀ rest', EndsMoment rest' → split ((split cs).1 ++ rest') = ((split cs).1, rest') := by
  have hcs : cs = cs.takeWhile isScalarChar ++ cs.dropWhile isScalarChar :=
    (List.takeWhile_append_dropWhile).symm
  have hhead : ∀ c ∈ (cs.takeWhile isScalarChar).head?, isScalarChar c = true :=
    fun c hc => List.mem_takeWhile_imp (List.mem_of_mem_head? hc)
  by_cases htime : ∃ c more, afterDate? (cs.takeWhile isScalarChar) = some [] ∧
      cs.dropWhile isScalarChar = ' ' :: c :: more ∧ c.isDigit = true
  · obtain ⟨c, more, hdate, hdrop, hc⟩ := htime
    have hsplit := split_date hdate hdrop hc
    rw [hsplit]
    refine ⟨?_, ?_, fun rest' hrest => ?_⟩
    · rw [List.append_assoc, List.cons_append, List.takeWhile_append_dropWhile, ← hdrop]
      exact hcs
    · intro e he
      refine hhead e ?_
      cases hfirst : cs.takeWhile isScalarChar with
      | nil =>
        rw [hfirst] at hdate
        exact absurd hdate (by decide)
      | cons d first =>
        rw [hfirst] at he
        exact he
    · have hdigit := isScalarChar_of_isDigit hc
      obtain ⟨htake₂, hdrop₂⟩ := run_append (c :: more) hrest.ends
      rw [List.takeWhile_cons_of_pos hdigit] at htake₂ hdrop₂ ⊢
      have hblank : ∀ e ∈ (' ' :: c :: (more.takeWhile isScalarChar ++ rest')).head?,
          isScalarChar e = false := by
        rintro _ ⟨rfl⟩
        decide
      obtain ⟨htake, hdrop₁⟩ := run_append cs hblank
      rw [List.append_assoc]
      simp only [List.cons_append] at htake₂ hdrop₂ ⊢
      rw [split_date (by rw [htake]; exact hdate) hdrop₁ hc, htake, htake₂, hdrop₂]
  · have hsplit : split cs = (cs.takeWhile isScalarChar, cs.dropWhile isScalarChar) := by
      refine split_run fun c more hdate hdrop => ?_
      rw [Bool.eq_false_iff]
      exact fun hc => htime ⟨c, more, hdate, hdrop, hc⟩
    rw [hsplit]
    refine ⟨hcs, hhead, fun rest' hrest => ?_⟩
    obtain ⟨htake, hdrop⟩ := run_append cs hrest.ends
    rw [split_run, htake, hdrop]
    intro c more _ heq
    rw [hdrop] at heq
    exact hrest.time c more heq

theorem read_taken {cs rest : List Char} {d : Datum} (h : read cs = some (d, rest)) :
    ∃ c w, cs = c :: w ++ rest ∧ isScalarChar c = true ∧
      ∀ rest', EndsMoment rest' → read (c :: w ++ rest') = some (d, rest') := by
  obtain ⟨d, hclassify, heq⟩ := Option.map_eq_some_iff.1 h
  cases heq
  obtain ⟨hcs, hhead, hsplit⟩ := split_taken cs
  cases hw : (split cs).1 with
  | nil =>
    have hnone : classify [] = none := rfl
    rw [hw, hnone] at hclassify
    cases hclassify
  | cons c w =>
    rw [hw] at hcs hhead hclassify hsplit
    refine ⟨c, w, hcs, hhead c rfl, fun rest' hrest => ?_⟩
    unfold read
    rw [hsplit rest' hrest, hclassify]
    rfl

end Scalar

end ExportDesk.Toml
