import ExportDesk.Toml.Quoted

/-!
# A written string reads back

`read_write`: whatever characters a string holds, what is written for it reads back as the string,
and what follows is left. Each of the four styles is read by its own reader; `chooseStyle` sees to
it that a style is taken only for strings it can hold.
-/

namespace ExportDesk.Toml.Quoted

/-! ## Escapes -/

/-- The digits of a control character lead back to it. -/
theorem codePoint?_control {c : Char} (h : isControl c = true) :
    codePoint? ['0', '0', hexDigit (c.toNat / 16), hexDigit (c.toNat % 16)] = some c := by
  have hsmall : c.toNat < 128 := by
    simp only [isControl, Bool.or_eq_true, Bool.and_eq_true, decide_eq_true_eq, beq_iff_eq] at h
    omega
  have hall : ∀ n < 128, codePoint? ['0', '0', hexDigit (n / 16), hexDigit (n % 16)] =
      some (Char.ofNat n) := by decide
  rw [hall _ hsmall, Char.ofNat_toNat]

/-- A character stands for itself between quotes. -/
def isPlain (c : Char) : Bool := c != '"' && c != '\\' && c != '\n' && !isControl c

theorem isPlain_iff {c : Char} :
    isPlain c = true ↔ c ≠ '"' ∧ c ≠ '\\' ∧ c ≠ '\n' ∧ isControl c = false := by
  simp [isPlain, and_assoc]

theorem readBasic_plain {c : Char} (h : isPlain c = true) (t : List Char) :
    readBasic (c :: t) = push c (readBasic t) := by
  obtain ⟨hq, hb, hn, hc⟩ := isPlain_iff.1 h
  rw [readBasic]
  · rw [if_neg (by simp [hn, hc])]
  all_goals simp_all

theorem eq_of_toNat {c : Char} {n : Nat} (h : c.toNat = n) : c = Char.ofNat n := by
  rw [← h, Char.ofNat_toNat]

theorem readBasic_escapeChar (run : Nat) (c : Char) (t : List Char) :
    readBasic (escapeChar false run c ++ t) = push c (readBasic t) := by
  unfold escapeChar
  split
  · rename_i h
    obtain rfl := beq_iff_eq.1 h
    rw [if_pos (by simp)]
    rfl
  split
  · rename_i h
    obtain rfl := beq_iff_eq.1 h
    rfl
  split
  · rename_i h
    obtain rfl := beq_iff_eq.1 h
    rfl
  split
  · rename_i h
    obtain rfl := beq_iff_eq.1 h
    rfl
  split
  · rename_i h
    obtain rfl := beq_iff_eq.1 h
    rfl
  split
  · rename_i h
    obtain rfl := eq_of_toNat (beq_iff_eq.1 h)
    rfl
  split
  · rename_i h
    obtain rfl := eq_of_toNat (beq_iff_eq.1 h)
    rfl
  split
  · rename_i h
    simp only [List.cons_append, List.nil_append]
    rw [readBasic, codePoint?_control h]
    rfl
  · refine readBasic_plain (isPlain_iff.2 ?_) t
    simp_all

theorem readBasic_escape (run : Nat) (cs rest : List Char) :
    readBasic (escape false run cs ++ '"' :: rest) = some (cs, rest) := by
  induction cs generalizing run with
  | nil => rfl
  | cons c cs ih =>
    rw [escape, List.append_assoc, readBasic_escapeChar, ih]
    rfl

/-! ## Between apostrophes -/

theorem readLiteral_append {cs : List Char} (rest : List Char)
    (h : ∀ c ∈ cs, c ≠ '\'' ∧ c ≠ '\n' ∧ isControl c = false) :
    readLiteral (cs ++ '\'' :: rest) = some (cs, rest) := by
  induction cs with
  | nil => rfl
  | cons c cs ih =>
    obtain ⟨hq, hn, hc⟩ := h c List.mem_cons_self
    rw [List.cons_append, readLiteral, if_neg (by simpa using hq), if_neg (by simp [hn, hc]),
      ih fun d hd => h d (List.mem_cons_of_mem c hd)]
    rfl

/-! ## On several lines

Up to two quotes may stand before the closing three. A run of quotes inside the text is never
longer than two, so three in a row are the closing ones with what stands before them. -/

/-- The text does not go on with a mark that could belong to a string. -/
def EndsString (rest : List Char) : Prop := rest.head? ≠ some '"' ∧ rest.head? ≠ some '\''

theorem readMultilineBasic_plain {c : Char} (hc : isPlain c = true ∨ c = '\n')
    (t : List Char) :
    readMultilineBasic false (c :: t) = push c (readMultilineBasic false t) := by
  have hctl : isControl c = false := by
    rcases hc with hc | rfl
    · exact (isPlain_iff.1 hc).2.2.2
    · decide
  have hr : c ≠ '\r' := by
    rintro rfl
    exact absurd hctl (by decide)
  have hq : c ≠ '"' := by
    rcases hc with hc | rfl
    · exact (isPlain_iff.1 hc).1
    · decide
  have hb : c ≠ '\\' := by
    rcases hc with hc | rfl
    · exact (isPlain_iff.1 hc).2.1
    · decide
  rw [readMultilineBasic]
  · simp [hctl]
  all_goals simp_all

/-- A quote that is not one of three stands for itself. -/
theorem readMultilineBasic_quote {t : List Char} (h : ¬ ['"', '"'] <+: t) :
    readMultilineBasic false ('"' :: t) = push '"' (readMultilineBasic false t) := by
  have hthree (cs : List Char) : t ≠ '"' :: '"' :: cs := by
    rintro rfl
    exact h ⟨cs, rfl⟩
  rw [readMultilineBasic]
  · simp [isControl]
  · simp [hthree]
  · simp [hthree]
  · simp [hthree]
  all_goals simp

/-- A short escape that is not followed by a line end. -/
theorem readMultilineBasic_short {joining : Bool} {d c : Char} (t : List Char)
    (hd : shortEscape? d = some c) :
    readMultilineBasic joining ('\\' :: d :: t) = push c (readMultilineBasic false t) := by
  have hblank : d ≠ ' ' ∧ d ≠ '\t' ∧ d ≠ '\n' ∧ d ≠ '\r' := by
    refine ⟨?_, ?_, ?_, ?_⟩ <;> (rintro rfl; simp [shortEscape?] at hd)
  have hline : lineEndsHere (d :: t) = false := by
    unfold lineEndsHere
    rw [List.dropWhile_cons_of_neg (by simp [hblank])]
    simp [hblank]
  have hu : d ≠ 'u' ∧ d ≠ 'U' ∧ d ≠ 'x' := by
    refine ⟨?_, ?_, ?_⟩ <;> (rintro rfl; simp [shortEscape?] at hd)
  cases t with
  | nil =>
    rw [readMultilineBasic.eq_10]
    · rw [if_neg (by simp [hline]), hd]
      rfl
    all_goals simp
  | cons e t =>
    rw [readMultilineBasic.eq_9]
    · rw [if_neg (by simp [hline]), hd]
      rfl
    all_goals simp [hu]

/-- A character with a backslash is read back wherever it stands. -/
theorem readMultilineBasic_escapeChar {run : Nat} {c : Char} (t : List Char)
    (h : c = '"' → 2 ≤ run) :
    readMultilineBasic false (escapeChar true run c ++ t) =
      push c (readMultilineBasic false t) := by
  unfold escapeChar
  split
  · rename_i hc
    obtain rfl := beq_iff_eq.1 hc
    have := h rfl
    rw [if_pos (by simp; omega)]
    exact readMultilineBasic_short t rfl
  split
  · rename_i hc
    obtain rfl := beq_iff_eq.1 hc
    exact readMultilineBasic_short t rfl
  split
  · rename_i hc
    obtain rfl := beq_iff_eq.1 hc
    exact readMultilineBasic_short t rfl
  split
  · rename_i hc
    obtain rfl := beq_iff_eq.1 hc
    exact readMultilineBasic_plain (.inr rfl) t
  split
  · rename_i hc
    obtain rfl := beq_iff_eq.1 hc
    exact readMultilineBasic_short t rfl
  split
  · rename_i hc
    obtain rfl := eq_of_toNat (beq_iff_eq.1 hc)
    exact readMultilineBasic_short t rfl
  split
  · rename_i hc
    obtain rfl := eq_of_toNat (beq_iff_eq.1 hc)
    exact readMultilineBasic_short t rfl
  split
  · rename_i hc
    simp only [List.cons_append, List.nil_append]
    rw [readMultilineBasic, codePoint?_control hc]
    rfl
  · refine readMultilineBasic_plain (.inl (isPlain_iff.2 ?_)) t
    simp_all

/-- A character that is not taken for a closing quote starts with something else. -/
theorem escapeChar_head {run : Nat} {c : Char} (h : c = '"' → 2 ≤ run) (t : List Char) :
    (escapeChar true run c ++ t).head? ≠ some '"' := by
  unfold escapeChar
  split
  · rename_i hc
    have := h (beq_iff_eq.1 hc)
    rw [if_pos (by simp; omega)]
    simp
  · rename_i hc
    repeat' split
    all_goals simp_all

theorem readMultilineBasic_escape {run : Nat} {cs rest : List Char} (hrest : EndsString rest)
    (hrun : run ≤ 2) :
    readMultilineBasic false (escape true run cs ++ '"' :: '"' :: '"' :: rest) =
      some (cs, rest) := by
  have hone (cs' : List Char) : rest ≠ '"' :: cs' := by
    rintro rfl
    exact hrest.1 rfl
  induction cs generalizing run with
  | nil =>
    show readMultilineBasic false ('"' :: '"' :: '"' :: rest) = _
    rw [readMultilineBasic.eq_4]
    all_goals simp [hone]
  | cons c cs ih =>
    by_cases hq : c = '"' ∧ run < 2
    · obtain ⟨rfl, hlt⟩ := hq
      have hstep : escape true run ('"' :: cs) = '"' :: escape true (run + 1) cs := by
        have hle : ¬ 2 < run + 1 := by omega
        simp [escape, escapeChar, runAfter, hle]
      rw [hstep, List.cons_append]
      -- three in a row only where the text ends
      cases cs with
      | nil =>
        show readMultilineBasic false ('"' :: '"' :: '"' :: '"' :: rest) = _
        rw [readMultilineBasic.eq_3]
        simp [hone]
      | cons d cs =>
        by_cases hd : d = '"' ∧ run = 0
        · obtain ⟨rfl, rfl⟩ := hd
          cases cs with
          | nil =>
            show readMultilineBasic false ('"' :: '"' :: '"' :: '"' :: '"' :: rest) = _
            rw [readMultilineBasic.eq_2]
          | cons e cs =>
            rw [readMultilineBasic_quote, ih (by omega)]
            · rfl
            · rintro ⟨r, hr⟩
              have hhead : (escapeChar true 2 e ++ (escape true (runAfter true 2 e) cs ++
                  '"' :: '"' :: '"' :: rest)).head? = some '"' := by
                have : escape true 1 ('"' :: e :: cs) =
                    '"' :: (escapeChar true 2 e ++ escape true (runAfter true 2 e) cs) := rfl
                rw [Nat.zero_add, this] at hr
                simp only [List.cons_append, List.nil_append, List.cons.injEq, true_and,
                  List.append_assoc] at hr
                rw [← hr]
                rfl
              exact escapeChar_head (fun _ => Nat.le_refl 2) _ hhead
        · rw [readMultilineBasic_quote, ih (by omega)]
          · rfl
          · rintro ⟨r, hr⟩
            have hrun : d = '"' → 2 ≤ run + 1 := by
              intro h
              have : run ≠ 0 := fun h0 => hd ⟨h, h0⟩
              omega
            rw [escape, List.append_assoc] at hr
            exact escapeChar_head hrun _ (by rw [← hr]; rfl)
    · rw [escape, List.append_assoc, readMultilineBasic_escapeChar _ fun h => ?_, ih]
      · rfl
      · simp only [runAfter, if_true]
        split
        · rename_i h
          simp only [Bool.and_eq_true, Bool.not_eq_true', decide_eq_false_iff_not] at h
          omega
        · omega
      · have : ¬ run < 2 := fun h2 => hq ⟨h, h2⟩
        omega

/-! ### Between three apostrophes -/

theorem le_longestRun (c : Char) (now : Nat) (cs : List Char) : now ≤ longestRun c now cs := by
  induction cs generalizing now with
  | nil => exact Nat.le_refl now
  | cons d cs ih =>
    unfold longestRun
    split
    · exact Nat.le_trans (Nat.le_succ now) (ih (now + 1))
    · exact Nat.le_max_left _ _

theorem readMultilineLiteral_step {c : Char} {t : List Char} (hc : isControl c = false)
    (h : c = '\'' → ¬ ['\'', '\''] <+: t) :
    readMultilineLiteral (c :: t) = push c (readMultilineLiteral t) := by
  have hr : c ≠ '\r' := by
    rintro rfl
    exact absurd hc (by decide)
  have hthree (cs : List Char) (hq : c = '\'') : t ≠ '\'' :: '\'' :: cs := by
    rintro rfl
    exact h hq ⟨cs, rfl⟩
  rw [readMultilineLiteral]
  · simp [hc]
  · intro cs hq
    exact hthree _ hq
  · intro cs hq
    exact hthree _ hq
  · intro cs hq
    exact hthree _ hq
  · intro cs hcr
    exact absurd hcr hr

theorem readMultilineLiteral_append {now : Nat} {cs rest : List Char}
    (hrest : EndsString rest) (hnow : longestRun '\'' now cs ≤ 2)
    (hcs : ∀ c ∈ cs, isControl c = false) :
    readMultilineLiteral (cs ++ '\'' :: '\'' :: '\'' :: rest) = some (cs, rest) := by
  have hone (cs' : List Char) : rest ≠ '\'' :: cs' := by
    rintro rfl
    exact hrest.2 rfl
  induction cs generalizing now with
  | nil =>
    show readMultilineLiteral ('\'' :: '\'' :: '\'' :: rest) = _
    rw [readMultilineLiteral.eq_4]
    all_goals simp [hone]
  | cons c cs ih =>
    have hctl := hcs c List.mem_cons_self
    have hcs' : ∀ d ∈ cs, isControl d = false := fun d hd => hcs d (List.mem_cons_of_mem c hd)
    by_cases hq : c = '\''
    · subst hq
      have hnow' : longestRun '\'' (now + 1) cs ≤ 2 := by simpa [longestRun] using hnow
      cases cs with
      | nil =>
        show readMultilineLiteral ('\'' :: '\'' :: '\'' :: '\'' :: rest) = _
        rw [readMultilineLiteral.eq_3]
        simp [hone]
      | cons d cs =>
        by_cases hd : d = '\''
        · subst hd
          have hnow'' : longestRun '\'' (now + 2) cs ≤ 2 := by simpa [longestRun] using hnow'
          cases cs with
          | nil =>
            show readMultilineLiteral ('\'' :: '\'' :: '\'' :: '\'' :: '\'' :: rest) = _
            rw [readMultilineLiteral.eq_2]
          | cons e cs =>
            have he : e ≠ '\'' := by
              rintro rfl
              have hmore : longestRun '\'' (now + 3) cs ≤ 2 := by
                simpa [longestRun] using hnow''
              have := le_longestRun '\'' (now + 3) cs
              omega
            rw [List.cons_append, readMultilineLiteral_step hctl, ih hnow' hcs']
            · rfl
            · rintro - ⟨r, hr⟩
              simp only [List.cons_append, List.nil_append, List.cons.injEq, true_and] at hr
              exact he hr.1.symm
        · rw [List.cons_append, readMultilineLiteral_step hctl, ih hnow' hcs']
          · rfl
          · rintro - ⟨r, hr⟩
            simp only [List.cons_append, List.nil_append, List.cons.injEq] at hr
            exact hd hr.1.symm
    · have hnow' : longestRun '\'' 0 cs ≤ 2 := by
        rw [longestRun, if_neg (by simpa using hq)] at hnow
        omega
      rw [List.cons_append, readMultilineLiteral_step hctl fun h => absurd h hq, ih hnow' hcs']
      rfl

/-! ## In any style -/

theorem longestRun_eq_zero {c : Char} {cs : List Char} (h : longestRun c 0 cs = 0) : c ∉ cs := by
  induction cs with
  | nil => exact List.not_mem_nil
  | cons d cs ih =>
    rw [longestRun] at h
    split at h
    · have := le_longestRun c (0 + 1) cs
      omega
    next hd =>
      rw [List.mem_cons, not_or]
      exact ⟨fun heq => hd (by simp [heq]), ih (by omega)⟩

/-- Apostrophes stand around a text that has none and no line end. -/
theorem of_chooseStyle_literal {cs : List Char} (h : chooseStyle cs = .literal) :
    cs ≠ [] ∧ ∀ c ∈ cs, c ≠ '\'' ∧ c ≠ '\n' ∧ isControl c = false := by
  refine ⟨by rintro rfl; exact absurd h (by decide), ?_⟩
  intro c hc
  unfold chooseStyle at h
  simp only at h
  split at h
  · cases h
  split at h
  next hlit =>
    simp only [Bool.and_eq_true, Bool.not_eq_true', List.any_eq_false, beq_iff_eq] at hlit
    obtain ⟨⟨hctl, happ⟩, hline⟩ := hlit
    refine ⟨?_, ?_, by simpa using hctl c hc⟩
    · rintro rfl
      exact longestRun_eq_zero happ hc
    · rintro rfl
      simp [hc] at hline
  · repeat' split at h
    all_goals cases h

/-- Three apostrophes stand around a text that has no three in a row. -/
theorem of_chooseStyle_multilineLiteral {cs : List Char}
    (h : chooseStyle cs = .multilineLiteral) :
    longestRun '\'' 0 cs ≤ 2 ∧ ∀ c ∈ cs, isControl c = false := by
  unfold chooseStyle at h
  simp only at h
  split at h
  · cases h
  split at h
  · cases h
  split at h
  · cases h
  split at h
  next hlit =>
    simp only [Bool.and_eq_true, Bool.not_eq_true', List.any_eq_false, decide_eq_true_eq] at hlit
    exact ⟨hlit.2, fun c hc => by simpa using hlit.1 c hc⟩
  · split at h <;> cases h

theorem dropLineEnd_of_head {cs : List Char} (hn : cs.head? ≠ some '\n')
    (hr : cs.head? ≠ some '\r') : dropLineEnd cs = cs := by
  unfold dropLineEnd
  split
  · exact absurd rfl hn
  · exact absurd rfl hr
  · rfl

/-- The line end that opens a text of several lines is dropped again. -/
theorem dropLineEnd_line {cs body : List Char}
    (hbody : '\n' ∉ cs → body.head? ≠ some '\n' ∧ body.head? ≠ some '\r') :
    dropLineEnd ((if cs.contains '\n' then ['\n'] else []) ++ body) = body := by
  by_cases hline : '\n' ∈ cs
  · rw [if_pos (by simpa using hline)]
    rfl
  · rw [if_neg (by simpa using hline), List.nil_append]
    exact dropLineEnd_of_head (hbody hline).1 (hbody hline).2

theorem escapeChar_head_of_ne {run : Nat} {c : Char} (hn : c ≠ '\n') (t : List Char) :
    (escapeChar true run c ++ t).head? ≠ some '\n' ∧
      (escapeChar true run c ++ t).head? ≠ some '\r' := by
  unfold escapeChar
  by_cases hr : c = '\r'
  · subst hr
    exact ⟨by simp, by simp⟩
  · repeat' split
    all_goals simp_all

theorem read_quote {cs : List Char} (h : ¬ ['"', '"'] <+: cs) :
    read ('"' :: cs) = readBasic cs := by
  rw [read]
  · intro cs' heq
    cases heq
    exact h ⟨cs', rfl⟩
  · simp

theorem read_apostrophe {cs : List Char} (h : ¬ ['\'', '\''] <+: cs) :
    read ('\'' :: cs) = readLiteral cs := by
  rw [read]
  · simp
  · intro cs' heq
    cases heq
    exact h ⟨cs', rfl⟩

theorem escapeChar_false_head (run : Nat) (c : Char) (t : List Char) :
    (escapeChar false run c ++ t).head? ≠ some '"' := by
  unfold escapeChar
  split
  · rw [if_pos (by simp)]
    simp
  · repeat' split
    all_goals simp_all

/-- **A written string reads back.** -/
theorem read_write (s : String) {rest : List Char} (hrest : EndsString rest) :
    read ((write s).toList ++ rest) = some (s.toList, rest) := by
  unfold write
  generalize s.toList = cs
  simp only [String.toList_ofList]
  cases hstyle : chooseStyle cs with
  | basic =>
    show read ('"' :: (escape false 0 cs ++ ['"']) ++ rest) = _
    rw [List.cons_append, List.append_assoc, List.singleton_append, read_quote,
      readBasic_escape]
    rintro ⟨r, hr⟩
    cases cs with
    | nil =>
      refine hrest.1 ?_
      have htail : rest = '"' :: r := by simpa [escape] using hr.symm
      rw [htail]
      rfl
    | cons c cs =>
      rw [escape, List.append_assoc] at hr
      exact escapeChar_false_head 0 c _ (by rw [← hr]; rfl)
  | literal =>
    obtain ⟨hne, hcs⟩ := of_chooseStyle_literal hstyle
    show read ('\'' :: (cs ++ ['\'']) ++ rest) = _
    rw [List.cons_append, List.append_assoc, List.singleton_append, read_apostrophe,
      readLiteral_append rest hcs]
    rintro ⟨r, hr⟩
    cases cs with
    | nil => exact hne rfl
    | cons c cs =>
      simp only [List.cons_append, List.nil_append, List.cons.injEq] at hr
      exact (hcs c List.mem_cons_self).1 hr.1.symm
  | multilineBasic =>
    simp only [List.append_assoc, List.cons_append, List.nil_append]
    rw [read, dropLineEnd_line]
    · exact readMultilineBasic_escape hrest (Nat.zero_le 2)
    · intro hline
      cases cs with
      | nil => exact ⟨by simp [escape], by simp [escape]⟩
      | cons c cs =>
        rw [escape, List.append_assoc]
        exact escapeChar_head_of_ne (fun h => hline (h ▸ List.mem_cons_self)) _
  | multilineLiteral =>
    obtain ⟨hrun, hcs⟩ := of_chooseStyle_multilineLiteral hstyle
    simp only [List.append_assoc, List.cons_append, List.nil_append]
    rw [read, dropLineEnd_line]
    · exact readMultilineLiteral_append hrest hrun hcs
    · intro hline
      cases cs with
      | nil => exact ⟨by simp, by simp⟩
      | cons c cs =>
        have hc := hcs c List.mem_cons_self
        simp only [List.cons_append, List.head?_cons, ne_eq, Option.some.injEq]
        refine ⟨?_, ?_⟩
        · rintro rfl
          exact hline List.mem_cons_self
        · rintro rfl
          exact absurd hc (by decide)

end ExportDesk.Toml.Quoted
