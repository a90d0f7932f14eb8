import ExportDesk.Proofs.Toml.Laid
import ExportDesk.Proofs.Toml.Separate

/-!
# A printed document is read as what it was printed from

A document with the layout of a text that was read prints lines that are read back, so that reading
it again does, pair by pair and block by block, what its tables say: `read_print`.
-/

namespace ExportDesk.Toml

open Reader Assembly

/-! ## What is printed -/

theorem bodyOf_append (parents : List Key) (es fs : Entries) :
    bodyOf parents (es ++ fs) = bodyOf parents es ++ bodyOf parents fs := by
  induction es with
  | nil => rw [bodyOf]; rfl
  | cons e es ih =>
    obtain ⟨k, i⟩ := e
    rw [List.cons_append, bodyOf, bodyOf, ih, List.append_assoc]

theorem mem_bodyOf {parents : List Key} {es : Entries} {p : List Key × Value}
    (h : p ∈ bodyOf parents es) : ∃ e ∈ es, p ∈ bodyOfItem (parents ++ [e.1]) e.2 := by
  induction es with
  | nil =>
    rw [bodyOf] at h
    cases h
  | cons e es ih =>
    obtain ⟨k, i⟩ := e
    rw [bodyOf, List.mem_append] at h
    obtain h | h := h
    · exact ⟨(k, i), List.mem_cons_self, h⟩
    · obtain ⟨e, he, hp⟩ := ih h
      exact ⟨e, List.mem_cons_of_mem _ he, hp⟩

theorem mem_sectionsOf {parents : List Key} {rank : Nat} {es : Entries} {s : Section}
    (h : s ∈ (sectionsOf parents rank es).1) :
    ∃ e ∈ es, ∃ rank', s ∈ (sectionsOfItem (parents ++ [e.1]) rank' e.2).1 := by
  induction es generalizing rank with
  | nil =>
    rw [sectionsOf] at h
    cases h
  | cons e es ih =>
    obtain ⟨k, i⟩ := e
    rw [sectionsOf] at h
    obtain h | h := List.mem_append.1 h
    · exact ⟨(k, i), List.mem_cons_self, rank, h⟩
    · obtain ⟨e, he, rank', hs⟩ := ih h
      exact ⟨e, List.mem_cons_of_mem _ he, rank', hs⟩

theorem mem_sectionsOfElements {path : List Key} {rank : Nat} {ts : List (Head × Entries)}
    {s : Section} (h : s ∈ (sectionsOfElements path rank ts).1) :
    ∃ t ∈ ts, ∃ rank', s = ⟨rank', path, t.1, t.2, true⟩ ∨
      s ∈ (sectionsOf path rank' t.2).1 := by
  induction ts generalizing rank with
  | nil =>
    rw [sectionsOfElements] at h
    cases h
  | cons t ts ih =>
    obtain ⟨head, es⟩ := t
    rw [sectionsOfElements] at h
    obtain rfl | h := List.mem_cons.1 h
    · exact ⟨(head, es), List.mem_cons_self, _, .inl rfl⟩
    obtain h | h := List.mem_append.1 h
    · exact ⟨(head, es), List.mem_cons_self, _, .inr h⟩
    · obtain ⟨t, ht, rank', hs⟩ := ih h
      exact ⟨t, List.mem_cons_of_mem _ ht, rank', hs⟩

/-- A line of a body, with the layout of a line that was read. -/
structure IsPair (p : List Key × Value) : Prop where
  path : IsPath ⟨"", " "⟩ Decor.IsLeading p.1
  written : IsWritten p.2

theorem isPath_append {usual : Decor} {q : Decor → Prop} {parents : List Key} {k : Key}
    (hparents : ∀ x ∈ parents, IsKey x) (hk : IsKey k) (hline : q (k.line.getD usual)) :
    IsPath usual q (parents ++ [k]) := by
  refine ⟨List.append_ne_nil_of_right_ne_nil _ (List.cons_ne_nil _ _), ?_, ?_⟩
  · rw [List.forall_mem_append, List.forall_mem_singleton]
    exact ⟨hparents, hk⟩
  · rw [List.getLast?_concat, Option.bind_some]
    exact hline

theorem isPair_of_bodyOfItem {k : Key} {i : Item} (hi : LaidItem k i) (hk : IsKey k)
    {parents : List Key} (hparents : ∀ x ∈ parents, IsKey x) :
    ∀ p ∈ bodyOfItem (parents ++ [k]) i, IsPair p ∧ parents ++ [k] <+: p.1 := by
  induction hi generalizing parents with
  | value line written =>
    rw [bodyOfItem, List.forall_mem_singleton]
    exact ⟨⟨isPath_append hparents hk line, written⟩, List.prefix_rfl⟩
  | @table k h es line head keys names items ih =>
    intro p hp
    rw [bodyOfItem] at hp
    split at hp
    · obtain ⟨e, he, hp⟩ := mem_bodyOf hp
      have hpath : ∀ x ∈ parents ++ [k], IsKey x := by
        rw [List.forall_mem_append, List.forall_mem_singleton]
        exact ⟨hparents, hk⟩
      obtain ⟨hpair, hprefix⟩ := ih e he (keys e he) hpath p hp
      exact ⟨hpair, (List.prefix_append _ _).trans hprefix⟩
    · cases hp
  | tables =>
    intro p hp
    rw [bodyOfItem] at hp
    cases hp

theorem isPair_of_bodyOf {es : Entries} (hes : Laid es) : ∀ p ∈ bodyOf [] es, IsPair p := by
  intro p hp
  obtain ⟨e, he, hp⟩ := mem_bodyOf hp
  exact (isPair_of_bodyOfItem (hes.items e he) (hes.keys e he)
    (fun _ hx => absurd hx List.not_mem_nil) p hp).1

/-- A table to print, with the layout of a table that was read. -/
structure Section.IsLaid (s : Section) : Prop where
  path : IsPath ⟨"", ""⟩ Decor.IsTight s.path
  head : s.head.IsLoose
  entries : Laid s.entries

theorem isLaid_of_sectionsOfItem {k : Key} {i : Item} (hi : LaidItem k i) (hk : IsKey k)
    {parents : List Key} (hparents : ∀ x ∈ parents, IsKey x) (rank : Nat) :
    ∀ s ∈ (sectionsOfItem (parents ++ [k]) rank i).1,
      s.IsLaid ∧ parents ++ [k] <+: s.path := by
  induction hi generalizing parents rank with
  | value =>
    intro s hs
    rw [sectionsOfItem] at hs
    cases hs
  | @table k h es line head keys names items ih =>
    intro s hs
    have hpath : ∀ x ∈ parents ++ [k], IsKey x := by
      rw [List.forall_mem_append, List.forall_mem_singleton]
      exact ⟨hparents, hk⟩
    have hinner {rank : Nat} (hs : s ∈ (sectionsOf (parents ++ [k]) rank es).1) :
        s.IsLaid ∧ parents ++ [k] <+: s.path := by
      obtain ⟨e, he, rank', hs⟩ := mem_sectionsOf hs
      obtain ⟨hlaid, hprefix⟩ := ih e he (keys e he) hpath rank' s hs
      exact ⟨hlaid, (List.prefix_append _ _).trans hprefix⟩
    rw [sectionsOfItem] at hs
    simp only at hs
    split at hs
    · exact hinner hs
    · obtain rfl | hs := List.mem_cons.1 hs
      · exact ⟨⟨isPath_append hparents hk line, head, keys, names, items⟩, List.prefix_rfl⟩
      · exact hinner hs
  | @tables k ts line heads keys names items ih =>
    intro s hs
    have hpath : ∀ x ∈ parents ++ [k], IsKey x := by
      rw [List.forall_mem_append, List.forall_mem_singleton]
      exact ⟨hparents, hk⟩
    rw [sectionsOfItem] at hs
    obtain ⟨t, ht, rank', rfl | hs⟩ := mem_sectionsOfElements hs
    · exact ⟨⟨isPath_append hparents hk line, heads t ht, keys t ht, names t ht, items t ht⟩,
        List.prefix_rfl⟩
    · obtain ⟨e, he, rank', hs⟩ := mem_sectionsOf hs
      obtain ⟨hlaid, hprefix⟩ := ih t ht e he (keys t ht e he) hpath rank' s hs
      exact ⟨hlaid, (List.prefix_append _ _).trans hprefix⟩

theorem isLaid_of_sectionsOf {es : Entries} (hes : Laid es) (rank : Nat) :
    ∀ s ∈ (sectionsOf [] rank es).1, s.IsLaid := by
  intro s hs
  obtain ⟨e, he, rank', hs⟩ := mem_sectionsOf hs
  exact (isLaid_of_sectionsOfItem (hes.items e he) (hes.keys e he)
    (fun _ hx => absurd hx List.not_mem_nil) rank' s hs).1

/-! ## Sorting by rank -/

/-- The ranks of the tables go up. -/
def Ranked (ss : List Section) : Prop := ss.Pairwise fun s t => s.rank ≤ t.rank

theorem mem_insertByRank {s t : Section} {ss : List Section} :
    t ∈ insertByRank s ss ↔ t = s ∨ t ∈ ss := by
  induction ss with
  | nil => simp [insertByRank]
  | cons u ss ih =>
    rw [insertByRank]
    split
    · rw [List.mem_cons]
    · rw [List.mem_cons, ih, List.mem_cons]
      exact or_left_comm

theorem ranked_insertByRank {s : Section} {ss : List Section} (h : Ranked ss) :
    Ranked (insertByRank s ss) := by
  induction ss with
  | nil => exact List.pairwise_singleton _ _
  | cons t ss ih =>
    obtain ⟨ht, hss⟩ := List.pairwise_cons.1 h
    rw [insertByRank]
    split
    next hlt =>
      refine List.pairwise_cons.2 ⟨fun u hu => ?_, h⟩
      obtain rfl | hu := List.mem_cons.1 hu
      · omega
      · exact Nat.le_trans (Nat.le_of_lt hlt) (ht u hu)
    next hlt =>
      refine List.pairwise_cons.2 ⟨fun u hu => ?_, ih hss⟩
      obtain rfl | hu := mem_insertByRank.1 hu
      · omega
      · exact ht u hu

theorem filter_insertByRank (p : Section → Bool) {s : Section} {ss : List Section}
    (h : Ranked ss) : (insertByRank s ss).filter p =
      if p s then insertByRank s (ss.filter p) else ss.filter p := by
  induction ss with
  | nil => rw [insertByRank, List.filter_nil, List.filter_singleton]; cases p s <;> rfl
  | cons t ss ih =>
    obtain ⟨ht, hss⟩ := List.pairwise_cons.1 h
    rw [insertByRank]
    split
    next hlt =>
      -- all that follows has a higher rank too, whether or not the first of it stays
      have hfront : ∀ us : List Section, (∀ u ∈ us, s.rank < u.rank) →
          insertByRank s us = s :: us := by
        intro us hus
        cases us with
        | nil => rfl
        | cons u us => rw [insertByRank, if_pos (hus u List.mem_cons_self)]
      have hall : ∀ u ∈ (t :: ss).filter p, s.rank < u.rank := by
        intro u hu
        obtain rfl | hu := List.mem_cons.1 (List.mem_filter.1 hu).1
        · exact hlt
        · exact Nat.lt_of_lt_of_le hlt (ht u hu)
      rw [hfront _ hall]
      exact List.filter_cons
    next hlt =>
      rw [List.filter_cons, List.filter_cons, ih hss]
      by_cases hpt : p t = true
      · rw [if_pos hpt, if_pos hpt]
        split
        · rw [insertByRank, if_neg hlt]
        · rfl
      · rw [if_neg hpt, if_neg hpt]

theorem filter_sortByRank (p : Section → Bool) (ss : List Section) :
    (sortByRank ss).filter p = sortByRank (ss.filter p) := by
  have hfold (ss : List Section) {sorted : List Section} (h : Ranked sorted) :
      (ss.foldl (fun sorted s => insertByRank s sorted) sorted).filter p =
        (ss.filter p).foldl (fun sorted s => insertByRank s sorted) (sorted.filter p) := by
    induction ss generalizing sorted with
    | nil => rfl
    | cons s ss ih =>
      rw [List.foldl_cons, ih (ranked_insertByRank h), filter_insertByRank p h, List.filter_cons]
      split <;> rfl
  exact hfold ss List.Pairwise.nil

theorem mem_sortByRank {s : Section} {ss : List Section} : s ∈ sortByRank ss ↔ s ∈ ss := by
  have hfold (ss sorted : List Section) :
      s ∈ ss.foldl (fun sorted s => insertByRank s sorted) sorted ↔ s ∈ sorted ∨ s ∈ ss := by
    induction ss generalizing sorted with
    | nil => simp
    | cons t ss ih =>
      rw [List.foldl_cons, ih, mem_insertByRank, List.mem_cons, or_assoc, or_left_comm]
  rw [sortByRank, hfold]
  simp

/-! ## Reading it again -/

/-- The pairs of a body without layout. -/
def bareBody (es : Entries) : List (List Key × Value) :=
  (bodyOf [] es).map fun p => (p.1.map Key.bare, p.2.bare)

/-- A table as a header with the pairs below it, without layout. -/
def Section.block (s : Section) : Block :=
  ⟨s.inArray, s.path.map Key.bare, bareBody s.entries⟩

/-- What the printed lines do to the tables at the top, one after another. -/
def Document.actions (d : Document) : List Action :=
  (bareBody d.entries).map (fun p => Action.pair p.1 p.2) ++
    ((sortByRank (sectionsOf [] 0 d.entries).1).filter Section.isVisible).map
      fun s => Action.block s.block

/-- A text made of lines that are read as some statements, up to layout. -/
def ReadsAll (text : List Char) (ss : List Statement) : Prop :=
  ∃ ls : List (List Char × Statement), (∀ l ∈ ls, ReadsAs l.1 l.2) ∧
    text = ls.flatMap (fun l => l.1) ∧ ls.map (fun l => l.2.bare) = ss

theorem readsAll_nil : ReadsAll [] [] :=
  ⟨[], fun _ h => absurd h List.not_mem_nil, rfl, rfl⟩

theorem ReadsAll.append {text text' : List Char} {ss ss' : List Statement}
    (h : ReadsAll text ss) (h' : ReadsAll text' ss') :
    ReadsAll (text ++ text') (ss ++ ss') := by
  obtain ⟨ls, hls, rfl, rfl⟩ := h
  obtain ⟨ls', hls', rfl, rfl⟩ := h'
  refine ⟨ls ++ ls', ?_, List.flatMap_append.symm, List.map_append⟩
  rw [List.forall_mem_append]
  exact ⟨hls, hls'⟩

theorem Reader.ReadsAs.all {line : List Char} {s : Statement} (h : ReadsAs line s) :
    ReadsAll line [s.bare] :=
  ⟨[(line, s)], List.forall_mem_singleton.2 h, by simp, rfl⟩

theorem readsAll_pairs {ps : List (List Key × Value)} (h : ∀ p ∈ ps, IsPair p) :
    ReadsAll (String.join (ps.map fun p => printPair p.1 p.2)).toList
      (pairsOf (ps.map fun p => (p.1.map Key.bare, p.2.bare))) := by
  induction ps with
  | nil => exact readsAll_nil
  | cons p ps ih =>
    obtain ⟨hp, hps⟩ := List.forall_mem_cons.1 h
    rw [List.map_cons, String.join_cons, String.toList_append]
    exact (readsAs_pair hp.path hp.written).all.append (ih hps)

theorem bodyOf_of_not_visible {s : Section} (h : s.isVisible = false) :
    bodyOf [] s.entries = [] := by
  unfold Section.isVisible at h
  simp only [Bool.or_eq_false_iff, Bool.not_eq_false', Bool.and_eq_true, List.isEmpty_iff] at h
  exact h.2.2

theorem readsAll_section {s : Section} (hs : s.IsLaid) (isFirst : Bool) :
    ReadsAll (s.print isFirst).toList (if s.isVisible then s.block.statements else []) := by
  have hbody := readsAll_pairs (isPair_of_bodyOf hs.entries)
  have hprint : s.print isFirst = (if s.isVisible then headerText s.inArray
      (s.head.decor.getD ⟨if isFirst then "" else "\n", ""⟩) s.path else "") ++
        String.join ((bodyOf [] s.entries).map fun p => printPair p.1 p.2) := rfl
  rw [hprint, String.toList_append]
  cases hvisible : s.isVisible with
  | true =>
    rw [if_pos rfl, if_pos rfl]
    refine (readsAs_header s.inArray ?_ hs.path).all.append hbody
    cases hdecor : s.head.decor with
    | none => cases isFirst <;> exact ⟨by decide, by decide⟩
    | some decor => exact hs.head decor hdecor
  | false =>
    rw [bodyOf_of_not_visible hvisible]
    exact readsAll_nil

theorem readsAll_sections {ss : List Section} (h : ∀ s ∈ ss, s.IsLaid) (isFirst : Bool) :
    ReadsAll (printSections isFirst ss).toList
      ((ss.filter Section.isVisible).flatMap fun s => s.block.statements) := by
  induction ss generalizing isFirst with
  | nil => exact readsAll_nil
  | cons s ss ih =>
    obtain ⟨hs, hss⟩ := List.forall_mem_cons.1 h
    rw [printSections, String.toList_append]
    have hall := (readsAll_section hs isFirst).append (ih hss (isFirst && !s.isVisible))
    rw [List.filter_cons]
    split
    next hvisible =>
      rw [if_pos hvisible] at hall
      exact hall
    next hvisible =>
      rw [if_neg hvisible] at hall
      exact hall

theorem statements_readsAll {text : List Char} {ss : List Statement} (h : ReadsAll text ss)
    (rest : List Char) {fuel : Nat} (hfuel : text.length < fuel) :
    ∃ ss' fuel', 0 < fuel' ∧ ss'.map Statement.bare = ss ∧ statements fuel (text ++ rest) =
      (statements fuel' rest).map fun r => (ss' ++ r.1, r.2) := by
  obtain ⟨ls, hls, rfl, rfl⟩ := h
  have hlength := length_le_lines hls
  obtain ⟨ss', hss', hread⟩ := statements_lines hls (fuel - ls.length) rest
  rw [Nat.sub_add_cancel (by omega)] at hread
  exact ⟨ss', fuel - ls.length, by omega, hss', hread⟩

theorem ReadsAll.head {text rest : List Char} {ss : List Statement} (h : ReadsAll text ss)
    (hrest : ∀ c ∈ rest.head?, c ≠ mark) : ∀ c ∈ (text ++ rest).head?, c ≠ mark := by
  obtain ⟨ls, hls, rfl, -⟩ := h
  cases ls with
  | nil => exact hrest
  | cons l ls =>
    obtain ⟨c, w, hline, hc⟩ := (hls l List.mem_cons_self).start
    rw [List.flatMap_cons, hline]
    rintro _ ⟨rfl⟩
    exact hc

theorem head_of_trivia {cs : List Char} (h : trivia false cs = some (cs, [])) :
    ∀ c ∈ cs.head?, c ≠ mark := by
  cases cs with
  | nil => exact nofun
  | cons c cs =>
    rintro _ ⟨rfl⟩ rfl
    rw [trivia_stop (by decide) (by decide) (by decide) (by decide)] at h
    cases h

/-- A text of lines with blanks and comments behind them. -/
theorem read_lines {text trailing : List Char} {ss : List Statement} (h : ReadsAll text ss)
    (htrailing : trivia false trailing = some (trailing, [])) :
    ∃ ss', ss'.map Statement.bare = ss ∧ Document.read (String.ofList (text ++ trailing)) =
      Assembly.ofStatements ss' (String.ofList trailing) := by
  have hlength : text.length < (text ++ trailing).length + 1 := by
    rw [List.length_append]
    omega
  obtain ⟨ss', fuel', hfuel', hss', hread⟩ := statements_readsAll h trailing hlength
  obtain ⟨fuel', rfl⟩ : ∃ n, fuel' = n + 1 := ⟨fuel' - 1, by omega⟩
  have hlast : statements (fuel' + 1) trailing = some ([], trailing) := by
    rw [statements, htrailing]
    rfl
  refine ⟨ss', hss', ?_⟩
  unfold Document.read
  rw [String.toList_ofList, dropMark_of_head (h.head (head_of_trivia htrailing))]
  simp only [hread, hlast]
  simp

theorem toList_print (d : Document) : d.print.toList =
    (String.join ((bodyOf [] d.entries).map fun p => printPair p.1 p.2)).toList ++
      ((printSections (bodyOf [] d.entries).isEmpty
        (sortByRank (sectionsOf [] 0 d.entries).1)).toList ++ plainEnds d.trailing.toList) := by
  unfold Document.print
  rw [String.toList_append, String.toList_append, toList_dropReturns, List.append_assoc]

/-- **What is printed is read as what it was printed from.** -/
theorem read_print {d : Document} (hlaid : Laid d.entries)
    (htrailing : trivia false d.trailing.toList = some (d.trailing.toList, [])) :
    (Document.read d.print).map (fun e => bareOf e.entries) =
      d.actions.foldlM (fun es a => a.act es) [] := by
  have hsections : ∀ s ∈ sortByRank (sectionsOf [] 0 d.entries).1, s.IsLaid :=
    fun s hs => isLaid_of_sectionsOf hlaid 0 s (mem_sortByRank.1 hs)
  have hlines := (readsAll_pairs (isPair_of_bodyOf hlaid)).append
    (readsAll_sections hsections (bodyOf [] d.entries).isEmpty)
  obtain ⟨ss, hss, hread⟩ := read_lines hlines (trivia_plainEnds htrailing)
  rw [List.append_assoc, ← toList_print, String.ofList_toList] at hread
  rw [hread, bareOf_ofStatements, hss]
  have hrun := run_actions (bareBody d.entries)
    (((sortByRank (sectionsOf [] 0 d.entries).1).filter Section.isVisible).map Section.block)
  rw [List.flatMap_map, List.map_map] at hrun
  exact hrun

end ExportDesk.Toml
