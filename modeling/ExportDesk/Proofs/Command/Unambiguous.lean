import ExportDesk.Proofs.Command.Lines
import Mathlib.Data.List.Basic

/-!
# A shown command has one reading

`shown_injective`: two argument lists that are shown alike, on one line or with one option per
line, are the same list.

Backslashes stay as they are, so where a quoted token ends is not seen at its end: in `\"` the
quote may close the token or belong to it. Two readings that part there stay apart: what one takes
for text between quotes the other takes for tokens, and every further quote makes them change
places (`follow_ne_inside`). At the end of the text one of them would still be between quotes.
-/

namespace ExportDesk.Command

open Text

/-! ## Tokens without quotes -/

theorem plain_iff (cs : List Char) :
    needsQuotes cs = false ↔
      cs ≠ [] ∧ ∀ c ∈ cs, isBlankChar c = false ∧ c ∉ specialChars := by
  simp [needsQuotes]

theorem quoteChars_plain {cs : List Char} (h : needsQuotes cs = false) : quoteChars cs = cs := by
  simp [quoteChars, h]

theorem quoteChars_quoted {cs : List Char} (h : needsQuotes cs = true) :
    quoteChars cs = '"' :: (escapeQuotes cs ++ ['"']) := by
  simp [quoteChars, h]

theorem quote_not_mem_plain {cs : List Char} (h : needsQuotes cs = false) : '"' ∉ cs :=
  fun hq => (((plain_iff cs).1 h).2 _ hq).2 (by decide)

theorem escapeQuotes_quote (cs : List Char) :
    escapeQuotes ('"' :: cs) = '\\' :: '"' :: escapeQuotes cs := rfl

theorem escapeQuotes_other {c : Char} (hc : c ≠ '"') (cs : List Char) :
    escapeQuotes (c :: cs) = c :: escapeQuotes cs := by
  rw [escapeQuotes, if_neg (by simpa using hc)]

/-! ## What follows a token -/

/-- What stands between two shown tokens. -/
inductive Gap where
  /-- the next token is on the same line -/
  | blank
  /-- the command goes on in the next line -/
  | line
deriving DecidableEq

def Gap.chars : Gap → List Char
  | blank => [' ']
  | line => [' ', '\\', '\n', ' ', ' ']

theorem Gap.quote_not_mem (g : Gap) : '"' ∉ g.chars := by cases g <;> decide

/-- How a shown command ends. -/
inductive Ending where
  | textEnd
  | lineEnd
deriving DecidableEq

def Ending.chars : Ending → List Char
  | .textEnd => []
  | .lineEnd => ['\n']

/-- The text behind a shown token: the further tokens, each behind its gap, and the end. -/
def follow (e : Ending) : List (Gap × List Char) → List Char
  | [] => e.chars
  | (g, t) :: rest => g.chars ++ (quoteChars t ++ follow e rest)

variable {e : Ending} {xs ys : List (Gap × List Char)}

theorem follow_head? (h : Char) (hh : (follow e xs).head? = some h) : h = ' ' ∨ h = '\n' := by
  cases xs with
  | nil =>
    cases e with
    | textEnd => simp [follow, Ending.chars] at hh
    | lineEnd => exact .inr (Option.some.inj hh).symm
  | cons x xs =>
    obtain ⟨g, t⟩ := x
    cases g <;> exact .inl (Option.some.inj hh).symm

theorem follow_head?_ne_quote : (follow e xs).head? ≠ some '"' := by
  intro h
  rcases follow_head? _ h with h | h <;> exact absurd h (by decide)

/-! ## Between quotes -/

/-- Text without quotes stands for itself between quotes. The last backslash of it may belong to a
quote that comes next, so the text must not end where a backslash meets a quote. -/
theorem inside_strip {w r s cs : List Char} (hw : '"' ∉ w)
    (hr : r.head? = some '"' → w.getLast? ≠ some '\\')
    (h : w ++ r = escapeQuotes cs ++ '"' :: s) :
    ∃ cs', cs = w ++ cs' ∧ r = escapeQuotes cs' ++ '"' :: s := by
  induction w generalizing cs with
  | nil => exact ⟨cs, rfl, h⟩
  | cons c w ih =>
    simp only [List.mem_cons, not_or] at hw
    cases cs with
    | nil =>
      simp only [escapeQuotes, List.cons_append, List.nil_append, List.cons.injEq] at h
      exact absurd h.1.symm hw.1
    | cons d cs =>
      by_cases hd : d = '"'
      · subst hd
        -- the backslash before this quote cannot be the last character of `w`
        simp only [escapeQuotes_quote, List.cons_append, List.cons.injEq] at h
        cases w with
        | nil =>
          rw [List.nil_append] at h
          exact absurd (by rw [h.1]; rfl) (hr (by rw [h.2]; rfl))
        | cons c' w =>
          simp only [List.cons_append, List.cons.injEq] at h
          exact absurd (List.mem_cons_self : c' ∈ c' :: w) (h.2.1 ▸ hw.2)
      · simp only [escapeQuotes_other hd, List.cons_append, List.cons.injEq] at h
        obtain ⟨rfl, h⟩ := h
        have hlast : r.head? = some '"' → w.getLast? ≠ some '\\' := fun hq => by
          cases w with
          | nil => simp
          | cons c' w => simpa using hr hq
        obtain ⟨cs', rfl, hrest⟩ := ih hw.2 hlast h
        exact ⟨cs', rfl, hrest⟩

/-- A quote right at the start closes the token. -/
theorem inside_quote {r s cs : List Char} (h : '"' :: r = escapeQuotes cs ++ '"' :: s) :
    cs = [] ∧ r = s := by
  cases cs with
  | nil => simpa [escapeQuotes] using h
  | cons d cs =>
    by_cases hd : d = '"'
    · subst hd
      simp [escapeQuotes_quote] at h
    · rw [escapeQuotes_other hd, List.cons_append, List.cons.injEq] at h
      exact absurd h.1.symm hd

/-- **Readings that have parted do not meet.** No text is at once what follows a token and the rest
of a quoted token with what follows that. -/
theorem follow_ne_inside (n : Nat) :
    ∀ {xs ys : List (Gap × List Char)} {cs : List Char}, xs.length + ys.length ≤ n →
      follow e xs ≠ escapeQuotes cs ++ '"' :: follow e ys := by
  induction n with
  | zero =>
    intro xs ys cs hn h
    have hxs : xs = [] := List.eq_nil_of_length_eq_zero (by omega)
    have hmem : '"' ∈ follow e xs := by rw [h]; simp
    rw [hxs] at hmem
    cases e <;> simp [follow, Ending.chars] at hmem
  | succ n ih =>
    intro xs ys cs hn h
    cases xs with
    | nil =>
      have hmem : '"' ∈ follow e [] := by rw [h]; simp
      cases e <;> simp [follow, Ending.chars] at hmem
    | cons x xs =>
      obtain ⟨g, t⟩ := x
      simp only [List.length_cons] at hn
      by_cases hq : needsQuotes t = true
      · -- the quote that opens `t` closes the token of the other reading
        have hgap : g.chars.getLast? ≠ some '\\' := by cases g <;> decide
        rw [follow, quoteChars_quoted hq] at h
        obtain ⟨cs', -, h⟩ := inside_strip g.quote_not_mem (fun _ => hgap) h
        obtain ⟨-, h⟩ := inside_quote h
        simp only [List.append_eq, List.append_assoc, List.cons_append, List.nil_append] at h
        exact ih (by omega) h.symm
      · -- both readings go on behind `t`
        have hp : needsQuotes t = false := by simpa using hq
        rw [follow, quoteChars_plain hp, ← List.append_assoc] at h
        have hw : '"' ∉ g.chars ++ t := by
          rw [List.mem_append, not_or]
          exact ⟨g.quote_not_mem, quote_not_mem_plain hp⟩
        obtain ⟨cs', -, h⟩ :=
          inside_strip hw (fun hhead => absurd hhead follow_head?_ne_quote) h
        exact ih (by omega) h

/-! ## One token at a time -/

theorem escape_append_inj {cs ds : List Char}
    (h : escapeQuotes cs ++ '"' :: follow e xs = escapeQuotes ds ++ '"' :: follow e ys) :
    cs = ds ∧ follow e xs = follow e ys := by
  induction cs generalizing ds with
  | nil =>
    obtain ⟨rfl, hrest⟩ := inside_quote h
    exact ⟨rfl, hrest⟩
  | cons c cs ih =>
    cases ds with
    | nil =>
      obtain ⟨hcs, -⟩ := inside_quote h.symm
      exact absurd hcs (List.cons_ne_nil c cs)
    | cons d ds =>
      by_cases hc : c = '"' <;> by_cases hd : d = '"'
      · subst hc hd
        simp only [escapeQuotes_quote, List.cons_append, List.cons.injEq, true_and] at h
        obtain ⟨rfl, hrest⟩ := ih h
        exact ⟨rfl, hrest⟩
      · -- what closes the second token stands inside the first
        subst hc
        rw [escapeQuotes_quote, escapeQuotes_other hd, List.cons_append, List.cons_append,
          List.cons_append, List.cons.injEq] at h
        obtain ⟨-, h⟩ := inside_quote h.2
        exact absurd h.symm (follow_ne_inside _ (Nat.le_refl _))
      · subst hd
        rw [escapeQuotes_quote, escapeQuotes_other hc, List.cons_append, List.cons_append,
          List.cons_append, List.cons.injEq] at h
        obtain ⟨-, h⟩ := inside_quote h.2.symm
        exact absurd h.symm (follow_ne_inside _ (Nat.le_refl _))
      · rw [escapeQuotes_other hc, escapeQuotes_other hd, List.cons_append, List.cons_append,
          List.cons.injEq] at h
        obtain ⟨rfl, h⟩ := h
        obtain ⟨rfl, hrest⟩ := ih h
        exact ⟨rfl, hrest⟩

/-- A token without quotes reaches up to the first blank. -/
theorem takeWhile_plain {t : List Char} (ht : needsQuotes t = false) :
    (t ++ follow e xs).takeWhile (!isBlankChar ·) = t := by
  have hblank : (follow e xs).takeWhile (!isBlankChar ·) = [] := by
    cases hf : follow e xs with
    | nil => rfl
    | cons c cs =>
      have hhead : (follow e xs).head? = some c := by rw [hf, List.head?_cons]
      rcases follow_head? c hhead with rfl | rfl <;> rfl
  rw [List.takeWhile_append_of_pos, hblank, List.append_nil]
  intro c hc
  simp [(((plain_iff t).1 ht).2 c hc).1]

/-- A token is shown with a quote first exactly when it is quoted. -/
theorem quoted_ne_plain {t u : List Char} (ht : needsQuotes t = true) (hu : needsQuotes u = false) :
    quoteChars t ++ follow e xs ≠ quoteChars u ++ follow e ys := by
  intro h
  rw [quoteChars_quoted ht, quoteChars_plain hu] at h
  cases u with
  | nil => exact absurd rfl ((plain_iff []).1 hu).1
  | cons c cs =>
    rw [List.cons_append, List.cons_append, List.cons.injEq] at h
    exact quote_not_mem_plain hu (h.1 ▸ List.mem_cons_self)

theorem quoteChars_append_inj {t u : List Char}
    (h : quoteChars t ++ follow e xs = quoteChars u ++ follow e ys) :
    t = u ∧ follow e xs = follow e ys := by
  cases ht : needsQuotes t <;> cases hu : needsQuotes u
  · rw [quoteChars_plain ht, quoteChars_plain hu] at h
    have htu : t = u := by
      rw [← @takeWhile_plain e xs t ht, h, takeWhile_plain hu]
    subst htu
    exact ⟨rfl, List.append_cancel_left h⟩
  · exact absurd h.symm (quoted_ne_plain hu ht)
  · exact absurd h (quoted_ne_plain ht hu)
  · rw [quoteChars_quoted ht, quoteChars_quoted hu] at h
    simp only [List.cons_append, List.append_assoc, List.nil_append, List.cons.injEq,
      true_and] at h
    exact escape_append_inj h

/-! ## The whole text -/

/-- A token that is a backslash is not taken for the mark that the command goes on. -/
theorem token_ne_continuation {t : List Char} {c : Char} {r : List Char} :
    quoteChars t ++ follow e xs ≠ '\\' :: '\n' :: c :: r := by
  intro h
  cases ht : needsQuotes t with
  | true =>
    rw [quoteChars_quoted ht, List.cons_append, List.cons.injEq] at h
    exact absurd h.1 (by decide)
  | false =>
    rw [quoteChars_plain ht] at h
    have hback : t = ['\\'] := by
      rw [← @takeWhile_plain e xs t ht, h]
      rfl
    subst hback
    rw [List.cons_append, List.nil_append, List.cons.injEq] at h
    cases xs with
    | nil => cases e <;> simp [follow, Ending.chars] at h
    | cons x xs =>
      obtain ⟨g, t⟩ := x
      cases g <;> simp [follow, Gap.chars] at h

theorem follow_nil_ne_cons {x : Gap × List Char} : follow e [] ≠ follow e (x :: xs) := by
  obtain ⟨g, t⟩ := x
  cases g <;> cases e <;> simp [follow, Gap.chars, Ending.chars]

theorem follow_injective : Function.Injective (follow e) := by
  intro xs
  induction xs with
  | nil =>
    intro ys h
    cases ys with
    | nil => rfl
    | cons y ys => exact absurd h follow_nil_ne_cons
  | cons x xs ih =>
    intro ys h
    cases ys with
    | nil => exact absurd h.symm follow_nil_ne_cons
    | cons y ys =>
      obtain ⟨g, t⟩ := x
      obtain ⟨g', u⟩ := y
      have hg : g = g' := by
        cases g <;> cases g'
        · rfl
        · simp only [follow, Gap.chars, List.cons_append, List.nil_append, List.cons.injEq,
            true_and] at h
          exact absurd h token_ne_continuation
        · simp only [follow, Gap.chars, List.cons_append, List.nil_append, List.cons.injEq,
            true_and] at h
          exact absurd h.symm token_ne_continuation
        · rfl
      subst hg
      obtain ⟨rfl, hrest⟩ := quoteChars_append_inj (List.append_cancel_left h)
      rw [ih hrest]

/-! ## On one line -/

/-- Tokens that stand on one line with the token before them. -/
def onLine (tokens : List String) : List (Gap × List Char) :=
  tokens.map fun t => (.blank, t.toList)

theorem preview_toList (t : String) (ts : List String) :
    (preview (t :: ts)).toList = quoteChars t.toList ++ follow .textEnd (onLine ts) := by
  induction ts generalizing t with
  | nil => simp [preview, quote, onLine, follow, Ending.chars]
  | cons u us ih =>
    have hcons : preview (t :: u :: us) = quote t ++ " " ++ preview (u :: us) := by
      simp [preview, String.intercalate_cons_cons]
    rw [hcons, String.toList_append, String.toList_append, ih, quote, String.toList_ofList,
      List.append_assoc]
    rfl

theorem map_snd_onLine (tokens : List String) :
    (onLine tokens).map Prod.snd = tokens.map String.toList := by
  simp [onLine, Function.comp_def]

theorem toList_map_injective : Function.Injective (List.map String.toList) :=
  List.map_injective_iff.2 fun _ _ h => String.toList_inj.1 h

theorem quoteChars_ne_nil (t : List Char) : quoteChars t ≠ [] := by
  cases ht : needsQuotes t with
  | true => simp [quoteChars_quoted ht]
  | false => simpa [quoteChars_plain ht] using ((plain_iff t).1 ht).1

theorem preview_injective : Function.Injective preview := by
  intro a b h
  have hlist : (preview a).toList = (preview b).toList := by rw [h]
  cases a with
  | nil =>
    cases b with
    | nil => rfl
    | cons u us =>
      rw [preview_toList] at hlist
      exact absurd (List.append_eq_nil_iff.1 hlist.symm).1 (quoteChars_ne_nil _)
  | cons t ts =>
    cases b with
    | nil =>
      rw [preview_toList] at hlist
      exact absurd (List.append_eq_nil_iff.1 hlist).1 (quoteChars_ne_nil _)
    | cons u us =>
      rw [preview_toList, preview_toList] at hlist
      obtain ⟨htu, hrest⟩ := quoteChars_append_inj hlist
      have hmap := congrArg (List.map Prod.snd) (follow_injective hrest)
      rw [map_snd_onLine, map_snd_onLine] at hmap
      rw [String.toList_inj.1 htu, toList_map_injective hmap]

/-! ## One option per line -/

/-- The tokens of the lines that come after the first. -/
def onFurtherLines : List (List String) → List (Gap × List Char)
  | [] => []
  | [] :: gs => onFurtherLines gs
  | (t :: ts) :: gs => (.line, t.toList) :: (onLine ts ++ onFurtherLines gs)

theorem map_snd_onFurtherLines (gs : List (List String)) :
    (onFurtherLines gs).map Prod.snd = gs.flatten.map String.toList := by
  fun_induction onFurtherLines gs with
  | case1 => rfl
  | case2 gs ih => simpa using ih
  | case3 t ts gs ih => simp [ih, map_snd_onLine]

theorem follow_append (xs ys : List (Gap × List Char)) :
    follow .textEnd xs ++ follow e ys = follow e (xs ++ ys) := by
  induction xs with
  | nil => rfl
  | cons x xs ih =>
    obtain ⟨g, t⟩ := x
    rw [List.cons_append, follow, follow, List.append_assoc, List.append_assoc, ih]

theorem ne_nil_of_mem_groups {tokens g : List String} (hg : g ∈ groups tokens) : g ≠ [] := by
  fun_induction groups tokens with
  | case1 => simp at hg
  | case2 t =>
    rw [List.mem_singleton.1 hg]
    exact List.cons_ne_nil t []
  | case3 t v rest _ ih =>
    rcases List.mem_cons.1 hg with rfl | hg
    · exact List.cons_ne_nil t [v]
    · exact ih hg
  | case4 t v rest _ ih =>
    rcases List.mem_cons.1 hg with rfl | hg
    · exact List.cons_ne_nil t []
    · exact ih hg

/-- What stands before a group. -/
def indent (isFirst : Bool) (group : List String) : List Char :=
  if isFirst && group.length == 1 then [] else [' ', ' ']

theorem groupLine_toList (isFirst : Bool) (t : String) (ts : List String) :
    (groupLine isFirst (t :: ts)).toList =
      indent isFirst (t :: ts) ++ (quoteChars t.toList ++ follow .textEnd (onLine ts)) := by
  rw [groupLine, String.toList_append, preview_toList, indent]
  split <;> rfl

theorem groupLines_toList (isFirst : Bool) (t : String) (ts : List String)
    (gs : List (List String)) (hgs : ∀ g ∈ gs, g ≠ []) :
    (groupLines isFirst ((t :: ts) :: gs)).toList =
      indent isFirst (t :: ts) ++
        (quoteChars t.toList ++ follow .lineEnd (onLine ts ++ onFurtherLines gs)) := by
  induction gs generalizing isFirst t ts with
  | nil =>
    rw [groupLines, String.toList_append, groupLine_toList, List.append_assoc, List.append_assoc,
      ← follow_append]
    rfl
  | cons g gs ih =>
    cases g with
    | nil => exact absurd rfl (hgs [] List.mem_cons_self)
    | cons u us =>
      have hfurther := ih false u us fun g hg => hgs g (List.mem_cons_of_mem _ hg)
      rw [groupLines, String.toList_append, String.toList_append, groupLine_toList, hfurther,
        onFurtherLines, ← follow_append (onLine ts), follow]
      · simp [Gap.chars, indent]
      · exact List.cons_ne_nil _ _

/-- The shown tokens of a command, one option per line. -/
theorem pretty_toList (t : String) (ts : List String) :
    ∃ g gs, groups (t :: ts) = (t :: g) :: gs ∧
      (pretty (t :: ts)).toList = indent true (t :: g) ++
        (quoteChars t.toList ++ follow .lineEnd (onLine g ++ onFurtherLines gs)) := by
  obtain ⟨g, gs, hgroups⟩ : ∃ g gs, groups (t :: ts) = (t :: g) :: gs := by
    cases ts with
    | nil => exact ⟨[], [], rfl⟩
    | cons v rest =>
      rw [groups]
      split
      · exact ⟨[v], groups rest, rfl⟩
      · exact ⟨[], groups (v :: rest), rfl⟩
  refine ⟨g, gs, hgroups, ?_⟩
  rw [pretty_eq_groupLines, hgroups]
  refine groupLines_toList true t g gs fun g' hg' => ?_
  exact ne_nil_of_mem_groups (hgroups ▸ List.mem_cons_of_mem _ hg')

/-- A shown token does not start with a blank, so what a line is set in by is seen. -/
theorem indent_append_inj {a b : Bool} {g g' : List String} {t u r r' : List Char}
    (h : indent a g ++ (quoteChars t ++ r) = indent b g' ++ (quoteChars u ++ r')) :
    quoteChars t ++ r = quoteChars u ++ r' := by
  have hblank (t r : List Char) : ∀ s, quoteChars t ++ r ≠ ' ' :: s := by
    intro s hs
    cases ht : needsQuotes t with
    | true =>
      rw [quoteChars_quoted ht, List.cons_append, List.cons.injEq] at hs
      exact absurd hs.1 (by decide)
    | false =>
      rw [quoteChars_plain ht] at hs
      cases t with
      | nil => exact absurd rfl ((plain_iff []).1 ht).1
      | cons c cs =>
        rw [List.cons_append, List.cons.injEq] at hs
        have hc := (((plain_iff (c :: cs)).1 ht).2 c List.mem_cons_self).1
        rw [hs.1] at hc
        exact absurd hc (by decide)
  unfold indent at h
  split at h <;> split at h
  · exact h
  · exact absurd h (hblank t r _)
  · exact absurd h.symm (hblank u r' _)
  · exact List.append_cancel_left h

theorem pretty_cons_ne_nil (t : String) (ts : List String) : pretty (t :: ts) ≠ pretty [] := by
  intro h
  obtain ⟨g, gs, -, htext⟩ := pretty_toList t ts
  rw [h, show (pretty []).toList = [] from rfl] at htext
  have hshown := (List.append_eq_nil_iff.1 htext.symm).2
  exact quoteChars_ne_nil _ (List.append_eq_nil_iff.1 hshown).1

theorem pretty_injective : Function.Injective pretty := by
  intro a b h
  cases a with
  | nil =>
    cases b with
    | nil => rfl
    | cons u us => exact absurd h.symm (pretty_cons_ne_nil u us)
  | cons t ts =>
    cases b with
    | nil => exact absurd h (pretty_cons_ne_nil t ts)
    | cons u us =>
      obtain ⟨g, gs, hgroups, htext⟩ := pretty_toList t ts
      obtain ⟨g', gs', hgroups', htext'⟩ := pretty_toList u us
      rw [h, htext'] at htext
      obtain ⟨htu, hrest⟩ := quoteChars_append_inj (indent_append_inj htext)
      have hmap := congrArg (List.map Prod.snd) (follow_injective hrest)
      rw [List.map_append, List.map_append, map_snd_onLine, map_snd_onLine,
        map_snd_onFurtherLines, map_snd_onFurtherLines, ← List.map_append,
        ← List.map_append] at hmap
      have hflat : ((u :: g') :: gs').flatten = ((t :: g) :: gs).flatten := by
        rw [List.flatten_cons, List.flatten_cons, List.cons_append, List.cons_append,
          String.toList_inj.1 htu, toList_map_injective hmap]
      rw [← hgroups, ← hgroups', flatten_groups, flatten_groups] at hflat
      exact hflat.symm

/-- **A shown command has one reading.** Argument lists that are shown alike on one line are the
same, and so are those that are shown alike with one option per line. -/
theorem shown_injective : Function.Injective preview ∧ Function.Injective pretty :=
  ⟨preview_injective, pretty_injective⟩

end ExportDesk.Command
