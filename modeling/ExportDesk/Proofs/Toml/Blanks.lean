import ExportDesk.Proofs.Toml.Values

/-!
# Blanks, line ends and comments

What the readers of trivia take from a text, they take again when the carriage returns are gone and
something else follows: `isBlankLines_of_trivia` and `trivia_of_isBlankLines` for what stands
between statements, `isRemark_of_lineEnd` and `lineEnd_of_isRemark` for the end of a line.
-/

namespace ExportDesk.Toml.Reader

theorem push_eq_some {c : Char} {r : Option (List Char × List Char)} {t rest : List Char}
    (h : Quoted.push c r = some (t, rest)) : ∃ t', r = some (t', rest) ∧ t = c :: t' := by
  obtain ⟨⟨t', rest'⟩, hr, heq⟩ := Option.map_eq_some_iff.1 h
  cases heq
  exact ⟨t', hr, rfl⟩

/-! ## Between statements -/

/-- Is the text made of blanks, line ends and comments, each comment with its line end? -/
def isBlankLines (inComment : Bool) : List Char → Bool
  | [] => !inComment
  | c :: cs =>
    if c == '\n' then isBlankLines false cs
    else if inComment then !Quoted.isControl c && isBlankLines true cs
    else if isGap c then isBlankLines false cs
    else c == '#' && isBlankLines true cs

theorem isBlankLines_line (inComment : Bool) (cs : List Char) :
    isBlankLines inComment ('\n' :: cs) = isBlankLines false cs := by
  rw [isBlankLines, if_pos (by decide)]

theorem trivia_of_isBlankLines {inComment : Bool} {lead rest : List Char}
    (h : isBlankLines inComment lead = true) (hrest : trivia false rest = some ([], rest)) :
    trivia inComment (lead ++ rest) = some (lead, rest) := by
  induction lead generalizing inComment with
  | nil =>
    obtain rfl : inComment = false := by simpa [isBlankLines] using h
    exact hrest
  | cons c cs ih =>
    by_cases hn : c = '\n'
    · subst hn
      have hcs : trivia false (cs ++ rest) = some (cs, rest) :=
        ih (by rwa [isBlankLines_line] at h)
      rw [List.cons_append, trivia, hcs]
      rfl
    have hr : c ≠ '\r' := by
      rintro rfl
      rw [isBlankLines, if_neg (by decide)] at h
      cases inComment with
      | true => simp [Quoted.isControl] at h
      | false => simp [isGap] at h
    rw [isBlankLines, if_neg (by simpa using hn)] at h
    rw [List.cons_append, trivia]
    · cases inComment with
      | true =>
        rw [if_pos rfl, Bool.and_eq_true, Bool.not_eq_true'] at h
        rw [if_pos rfl, h.1, if_neg Bool.false_ne_true, ih h.2]
        rfl
      | false =>
        rw [if_neg Bool.false_ne_true] at h ⊢
        split at h
        next hgap => rw [if_pos hgap, ih h]; rfl
        next hgap =>
          rw [Bool.and_eq_true] at h
          rw [if_neg hgap, if_pos h.1, ih h.2]
          rfl
    · exact hn
    · intro _ heq
      exact absurd heq hr

theorem no_return_of_isBlankLines {inComment : Bool} {lead : List Char}
    (h : isBlankLines inComment lead = true) : '\r' ∉ lead := by
  induction lead generalizing inComment with
  | nil => exact List.not_mem_nil
  | cons c cs ih =>
    intro hmem
    obtain rfl | hmem := List.mem_cons.1 hmem
    · cases inComment with
      | true => simp [isBlankLines, Quoted.isControl] at h
      | false => simp [isBlankLines, isGap] at h
    · unfold isBlankLines at h
      split at h
      · exact ih h hmem
      split at h
      · exact ih (Bool.and_eq_true_iff.1 h).2 hmem
      split at h
      · exact ih h hmem
      · exact ih (Bool.and_eq_true_iff.1 h).2 hmem

theorem plainEnds_cons {c : Char} (hc : c ≠ '\r') (cs : List Char) :
    plainEnds (c :: cs) = c :: plainEnds cs :=
  List.filter_cons_of_pos (by simpa using hc)

theorem plainEnds_return (cs : List Char) : plainEnds ('\r' :: cs) = plainEnds cs :=
  List.filter_cons_of_neg (by simp)

theorem plainEnds_of_not_mem {cs : List Char} (h : '\r' ∉ cs) : plainEnds cs = cs := by
  refine List.filter_eq_self.2 fun c hc => ?_
  rw [bne_iff_ne]
  rintro rfl
  exact h hc

theorem toList_dropReturns (s : String) : (dropReturns s).toList = plainEnds s.toList := by
  unfold dropReturns
  rw [String.toList_ofList]
  rfl

theorem ne_return_of_isGap {c : Char} (h : isGap c = true) : c ≠ '\r' := by
  rintro rfl
  exact absurd h (by decide)

theorem ne_return_of_isControl {c : Char} (h : ¬ Quoted.isControl c = true) : c ≠ '\r' := by
  rintro rfl
  exact h (by decide)

theorem ne_line_of_isGap {c : Char} (h : isGap c = true) : c ≠ '\n' := by
  rintro rfl
  exact absurd h (by decide)

/-- What a reader of trivia takes is the beginning of the text, up to where it would stop at once.
Without its carriage returns it is made of whole lines, unless the text ends with it. -/
theorem trivia_eq_some {inComment : Bool} {cs t rest : List Char}
    (h : trivia inComment cs = some (t, rest)) :
    cs = t ++ rest ∧ trivia false rest = some ([], rest) ∧
      (rest ≠ [] → isBlankLines inComment (plainEnds t) = true) := by
  fun_induction trivia inComment cs generalizing t with
  | case1 b =>
    cases h
    exact ⟨rfl, rfl, fun hne => absurd rfl hne⟩
  | case2 b cs ih =>
    obtain ⟨t, hr, rfl⟩ := push_eq_some h
    obtain ⟨rfl, hrest, hlines⟩ := ih hr
    refine ⟨rfl, hrest, fun hne => ?_⟩
    rw [plainEnds_cons (by decide), isBlankLines_line]
    exact hlines hne
  | case3 b cs ih =>
    obtain ⟨u, hu, rfl⟩ := push_eq_some h
    obtain ⟨t, hr, rfl⟩ := push_eq_some hu
    obtain ⟨rfl, hrest, hlines⟩ := ih hr
    refine ⟨rfl, hrest, fun hne => ?_⟩
    rw [plainEnds_return, plainEnds_cons (by decide), isBlankLines_line]
    exact hlines hne
  | case4 => cases h
  | case5 c cs hn hreturn hcontrol ih =>
    obtain ⟨t, hr, rfl⟩ := push_eq_some h
    obtain ⟨rfl, hrest, hlines⟩ := ih hr
    refine ⟨rfl, hrest, fun hne => ?_⟩
    rw [plainEnds_cons (ne_return_of_isControl hcontrol), isBlankLines,
      if_neg (by simpa using hn), if_pos rfl, hlines hne]
    simpa using hcontrol
  | case6 b c cs hn hreturn hcomment hgap ih =>
    obtain ⟨t, hr, rfl⟩ := push_eq_some h
    obtain ⟨rfl, hrest, hlines⟩ := ih hr
    refine ⟨rfl, hrest, fun hne => ?_⟩
    rw [plainEnds_cons (ne_return_of_isGap hgap), isBlankLines,
      if_neg (by simpa using ne_line_of_isGap hgap), if_neg hcomment, if_pos hgap]
    exact hlines hne
  | case7 b c cs hn hreturn hcomment hgap hhash ih =>
    obtain ⟨t, hr, rfl⟩ := push_eq_some h
    obtain ⟨rfl, hrest, hlines⟩ := ih hr
    obtain rfl := beq_iff_eq.1 hhash
    refine ⟨rfl, hrest, fun hne => ?_⟩
    rw [plainEnds_cons (by decide), isBlankLines, if_neg (by decide), if_neg hcomment,
      if_neg (by decide), hlines hne]
    rfl
  | case8 b c cs hn hreturn hcomment hgap hhash =>
    cases h
    refine ⟨rfl, ?_, fun _ => by simpa [isBlankLines, plainEnds] using hcomment⟩
    rw [trivia]
    · rw [if_neg Bool.false_ne_true, if_neg hgap, if_neg hhash]
    · exact hn
    · exact hreturn

/-- What follows the last statement is trivia without its carriage returns too. -/
theorem trivia_plainEnds {inComment : Bool} {cs : List Char}
    (h : trivia inComment cs = some (cs, [])) :
    trivia inComment (plainEnds cs) = some (plainEnds cs, []) := by
  fun_induction trivia inComment cs with
  | case1 b => rfl
  | case2 b cs ih =>
    obtain ⟨t, hr, heq⟩ := push_eq_some h
    obtain rfl := (List.cons.inj heq).2
    rw [plainEnds_cons (by decide), trivia, ih hr]
    rfl
  | case3 b cs ih =>
    obtain ⟨u, hu, heq⟩ := push_eq_some h
    obtain rfl := (List.cons.inj heq).2
    obtain ⟨t, hr, heq⟩ := push_eq_some hu
    obtain rfl := (List.cons.inj heq).2
    rw [plainEnds_return, plainEnds_cons (by decide), trivia, ih hr]
    rfl
  | case4 => cases h
  | case5 c cs hn hreturn hcontrol ih =>
    obtain ⟨t, hr, heq⟩ := push_eq_some h
    obtain rfl := (List.cons.inj heq).2
    rw [plainEnds_cons (ne_return_of_isControl hcontrol), trivia]
    · rw [if_pos rfl, if_neg hcontrol, ih hr]
      rfl
    · exact hn
    · intro _ heq
      exact absurd heq (ne_return_of_isControl hcontrol)
  | case6 b c cs hn hreturn hcomment hgap ih =>
    obtain ⟨t, hr, heq⟩ := push_eq_some h
    obtain rfl := (List.cons.inj heq).2
    rw [plainEnds_cons (ne_return_of_isGap hgap), trivia]
    · rw [if_neg hcomment, if_pos hgap, ih hr]
      rfl
    · exact hn
    · intro _ heq
      exact absurd heq (ne_return_of_isGap hgap)
  | case7 b c cs hn hreturn hcomment hgap hhash ih =>
    obtain ⟨t, hr, heq⟩ := push_eq_some h
    obtain rfl := (List.cons.inj heq).2
    obtain rfl := beq_iff_eq.1 hhash
    rw [plainEnds_cons (by decide), trivia]
    · rw [if_neg hcomment, if_neg hgap, if_pos hhash, ih hr]
      rfl
    · exact hn
    · intro _ heq
      exact absurd heq (by decide)
  | case8 => cases h

/-! ## At the end of a line -/

/-- Is the text made of blanks and then perhaps a comment? -/
def isRemark (inComment : Bool) : List Char → Bool
  | [] => true
  | c :: cs =>
    if inComment then c != '\n' && !Quoted.isControl c && isRemark true cs
    else if isGap c then isRemark false cs
    else c == '#' && isRemark true cs

theorem isRemark_of_lineEnd {inComment : Bool} {cs after rest : List Char}
    (h : lineEnd inComment cs = some (after, rest)) : isRemark inComment after = true := by
  fun_induction lineEnd inComment cs generalizing after with
  | case1 | case2 | case3 =>
    cases h
    rfl
  | case4 => cases h
  | case5 c cs hn hreturn hcontrol ih =>
    obtain ⟨after, hr, rfl⟩ := push_eq_some h
    rw [isRemark, if_pos rfl, ih hr]
    simpa using ⟨hn, by simpa using hcontrol⟩
  | case6 b c cs hn hreturn hcomment hgap ih =>
    obtain ⟨after, hr, rfl⟩ := push_eq_some h
    rw [isRemark, if_neg hcomment, if_pos hgap, ih hr]
  | case7 b c cs hn hreturn hcomment hgap hhash ih =>
    obtain ⟨after, hr, rfl⟩ := push_eq_some h
    rw [isRemark, if_neg hcomment, if_neg hgap, hhash, ih hr]
    rfl
  | case8 => cases h

theorem lineEnd_of_isRemark {inComment : Bool} {after : List Char}
    (h : isRemark inComment after = true) (rest : List Char) :
    lineEnd inComment (after ++ '\n' :: rest) = some (after, rest) := by
  induction after generalizing inComment with
  | nil => rfl
  | cons c cs ih =>
    have hc : c ≠ '\n' ∧ c ≠ '\r' := by
      unfold isRemark at h
      constructor
      · rintro rfl
        cases inComment <;> simp [isGap] at h
      · rintro rfl
        cases inComment <;> simp [isGap, Quoted.isControl] at h
    rw [List.cons_append, lineEnd]
    · unfold isRemark at h
      cases inComment with
      | true =>
        rw [if_pos rfl, Bool.and_eq_true, Bool.and_eq_true, Bool.not_eq_true'] at h
        rw [if_pos rfl, h.1.2, if_neg Bool.false_ne_true, ih h.2]
        rfl
      | false =>
        rw [if_neg Bool.false_ne_true] at h ⊢
        split at h
        next hgap => rw [if_pos hgap, ih h]; rfl
        next hgap =>
          rw [Bool.and_eq_true] at h
          rw [if_neg hgap, if_pos h.1, ih h.2]
          rfl
    · exact hc.1
    · intro _ heq
      exact absurd heq hc.2

theorem no_return_of_isRemark {inComment : Bool} {after : List Char}
    (h : isRemark inComment after = true) : '\r' ∉ after := by
  induction after generalizing inComment with
  | nil => exact List.not_mem_nil
  | cons c cs ih =>
    intro hmem
    obtain rfl | hmem := List.mem_cons.1 hmem
    · cases inComment <;> simp [isRemark, isGap, Quoted.isControl] at h
    · unfold isRemark at h
      split at h
      · exact ih (Bool.and_eq_true_iff.1 h).2 hmem
      split at h
      · exact ih h hmem
      · exact ih (Bool.and_eq_true_iff.1 h).2 hmem

/-! ## Inside a line -/

theorem gap_eq {cs before rest : List Char} (h : gap cs = (before, rest)) :
    cs = before ++ rest ∧ (∀ c ∈ before, isGap c = true) ∧
      ∀ c ∈ rest.head?, isGap c = false := by
  obtain ⟨rfl, rfl⟩ := Prod.mk.inj h
  refine ⟨(List.takeWhile_append_dropWhile).symm, fun c hc => List.mem_takeWhile_imp hc,
    fun c hc => ?_⟩
  have hhead := List.head?_dropWhile_not isGap cs
  rw [Option.mem_def.1 hc] at hhead
  simpa using hhead

/-- Lines that are blank but have no end are no more than blanks. -/
theorem isGap_of_isBlankLines {lead : List Char} (h : isBlankLines false lead = true)
    (hn : '\n' ∉ lead) : ∀ c ∈ lead, isGap c = true := by
  have hcomment {cs : List Char} (hcs : isBlankLines true cs = true) : '\n' ∈ cs := by
    induction cs with
    | nil => cases hcs
    | cons c cs ih =>
      rw [List.mem_cons]
      by_cases hc : c = '\n'
      · exact .inl hc.symm
      · rw [isBlankLines, if_neg (by simpa using hc), if_pos rfl, Bool.and_eq_true] at hcs
        exact .inr (ih hcs.2)
  induction lead with
  | nil => exact fun _ hc => absurd hc List.not_mem_nil
  | cons c cs ih =>
    rw [List.mem_cons, not_or] at hn
    rw [isBlankLines, if_neg (by simpa using Ne.symm hn.1), if_neg Bool.false_ne_true] at h
    split at h
    next hgap => exact List.forall_mem_cons.2 ⟨hgap, ih h hn.2⟩
    next hgap => exact absurd (hcomment (Bool.and_eq_true_iff.1 h).2) hn.2

/-! ## Before a text -/

/-- The byte order mark, which is no part of a text when it stands before it. -/
def mark : Char := '\uFEFF'

theorem dropMark_of_head {cs : List Char} (h : ∀ c ∈ cs.head?, c ≠ mark) : dropMark cs = cs := by
  cases cs with
  | nil => rfl
  | cons c cs =>
    unfold dropMark
    split
    next heq => exact absurd (List.cons.inj heq).1 (h c rfl)
    · rfl

end ExportDesk.Toml.Reader
