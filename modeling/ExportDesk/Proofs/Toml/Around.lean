import ExportDesk.Proofs.Toml.Reprint
import ExportDesk.Proofs.Toml.Steady

/-!
# The text around a replaced table

Where one top-level table of a document that was read is replaced by a plain one, the other lines
and tables are printed as before: `printed_setTable` and `keepsOthers_setTable`.
-/

namespace ExportDesk.Toml

open Entries Reader Assembly

variable {d : Document} {name : String} {inner : Entries}

/-- Entries that are values only. -/
def IsPlain (es : Entries) : Prop := ∀ e ∈ es, ∃ v, e.2 = .value v

/-! ## Where the table is -/

/-- The entries around those of a name, and the key that the table gets. -/
structure Around (es : Entries) (name : String) (before old after : Entries) (k : Key) : Prop where
  entries : es = before ++ (old ++ after)
  set : ∀ i, es.set name i = before ++ (k, i) :: after
  key : k.name = name
  found : old = [] ∧ k = Key.plain name ∨ ∃ i, old = [(k, i)]
  before : ∀ e ∈ before, e.1.name ≠ name
  after : ∀ e ∈ after, e.1.name ≠ name

theorem exists_around {es : Entries} (hes : (es.map fun e => e.1.name).Nodup) (name : String) :
    ∃ before old after k, Around es name before old after k := by
  by_cases hhas : es.has name = true
  · obtain ⟨e, he, hname⟩ := List.mem_map.1 (has_iff.1 hhas)
    obtain ⟨before, after, rfl⟩ := List.append_of_mem he
    rw [List.map_append, List.map_cons, List.nodup_append] at hes
    obtain ⟨-, hafter, hbefore⟩ := hes
    rw [List.nodup_cons] at hafter
    have hb : ∀ e ∈ before, e.1.name ≠ name := fun e' he' heq =>
      hbefore e'.1.name (List.mem_map_of_mem he') e.1.name List.mem_cons_self (heq.trans hname.symm)
    have ha : ∀ e ∈ after, e.1.name ≠ name := fun e' he' heq =>
      hafter.1 (List.mem_map.2 ⟨e', he', heq.trans hname.symm⟩)
    refine ⟨before, [e], after, e.1, rfl, fun i => ?_, hname, .inr ⟨e.2, rfl⟩, hb, ha⟩
    have hreplace (es : Entries) (h : ∀ e ∈ es, e.1.name ≠ name) : es.replace name i = es := by
      refine replace_of_not_has (Bool.eq_false_iff.2 fun hhas => ?_) i
      obtain ⟨e', he', heq⟩ := List.mem_map.1 (has_iff.1 hhas)
      exact h e' he' heq
    unfold Entries.set
    rw [if_pos hhas]
    show List.map _ _ = _
    rw [List.map_append, List.map_cons]
    show Entries.replace before name i ++ _ :: Entries.replace after name i = _
    rw [hreplace before hb, hreplace after ha, if_pos (beq_iff_eq.2 hname)]
  · refine ⟨es, [], [], Key.plain name, (List.append_nil es).symm, fun i => ?_, rfl,
      .inl ⟨rfl, rfl⟩, fun e he heq => ?_, fun _ he => absurd he List.not_mem_nil⟩
    · unfold Entries.set
      rw [if_neg hhas]
    · exact hhas (has_iff.2 (List.mem_map.2 ⟨e, he, heq⟩))

/-! ## What is printed -/

theorem sectionsOf_append (parents : List Key) (rank : Nat) (es fs : Entries) :
    sectionsOf parents rank (es ++ fs) = ((sectionsOf parents rank es).1 ++
      (sectionsOf parents (sectionsOf parents rank es).2 fs).1,
      (sectionsOf parents (sectionsOf parents rank es).2 fs).2) := by
  induction es generalizing rank with
  | nil =>
    rw [sectionsOf]
    rfl
  | cons e es ih =>
    obtain ⟨k, i⟩ := e
    rw [List.cons_append, sectionsOf_cons, sectionsOf_cons, ih, List.append_assoc]

theorem sectionsOf_plain (hinner : IsPlain inner) (path : List Key) (rank : Nat) :
    sectionsOf path rank inner = ([], rank) := by
  induction inner with
  | nil => rw [sectionsOf]
  | cons e es ih =>
    obtain ⟨k, i⟩ := e
    obtain ⟨⟨v, rfl⟩, hes⟩ := List.forall_mem_cons.1 hinner
    rw [sectionsOf_cons, sectionsOfItem, ih hes]
    rfl

/-- The new table as it is printed. -/
def newSection (rank : Nat) (k : Key) (inner : Entries) : Section :=
  ⟨rank, [k], {}, inner, false⟩

theorem pathName_of_prefix {k : Key} {path : List Key} (h : [k] <+: path) :
    pathName path = k.name := by
  obtain ⟨t, rfl⟩ := h
  rfl

theorem pathName_bare (path : List Key) : pathName (path.map Key.bare) = pathName path := by
  cases path <;> rfl

theorem pathName_sectionsOf {es : Entries} (hes : Laid es) {rank : Nat} {s : Section}
    (hs : s ∈ (sectionsOf [] rank es).1) : ∃ e ∈ es, pathName s.path = e.1.name := by
  obtain ⟨e, he, rank', hs⟩ := mem_sectionsOf hs
  exact ⟨e, he, pathName_of_prefix (isLaid_of_sectionsOfItem (hes.items e he) (hes.keys e he)
    (fun _ hx => absurd hx List.not_mem_nil) rank' s hs).2⟩

theorem pathName_bodyOf {es : Entries} (hes : Laid es) {p : List Key × Value}
    (hp : p ∈ bodyOf [] es) : ∃ e ∈ es, pathName p.1 = e.1.name := by
  obtain ⟨e, he, hp⟩ := mem_bodyOf hp
  exact ⟨e, he, pathName_of_prefix (isPair_of_bodyOfItem (hes.items e he) (hes.keys e he)
    (fun _ hx => absurd hx List.not_mem_nil) p hp).2⟩

theorem Laid.subset {es fs : Entries} (hes : Laid es) (h : List.Sublist fs es) : Laid fs :=
  ⟨fun e he => hes.keys e (h.subset he), (h.map _).nodup hes.names,
    fun e he => hes.items e (h.subset he)⟩

/-- The lines above all headers, and the printed tables in the order they are printed. -/
structure Printed (d : Document) (body : List (List Key × Value)) (ss : List Section) : Prop where
  body : bodyOf [] d.entries = body
  sections : visible (sortByRank (sectionsOf [] 0 d.entries).1) = ss

/-- Is the line or table another one than that of a name? -/
def isOther (name : String) (path : List Key) : Bool := pathName path != name

theorem isOther_sections {es : Entries} (hes : Laid es) (hne : ∀ e ∈ es, e.1.name ≠ name)
    {rank : Nat} : ∀ s ∈ (sectionsOf [] rank es).1, isOther name s.path = true := by
  intro s hs
  obtain ⟨e, he, hpath⟩ := pathName_sectionsOf hes hs
  rw [isOther, hpath]
  exact bne_iff_ne.2 (hne e he)

theorem not_isOther_sections {es : Entries} (hes : Laid es) (heq : ∀ e ∈ es, e.1.name = name)
    {rank : Nat} : ∀ s ∈ (sectionsOf [] rank es).1, isOther name s.path = false := by
  intro s hs
  obtain ⟨e, he, hpath⟩ := pathName_sectionsOf hes hs
  rw [isOther, hpath, heq e he]
  exact bne_self_eq_false name

/-- The three parts keep the layout of the whole. -/
theorem Around.laid {before old after : Entries} {k : Key}
    (ha : Around d.entries name before old after k) (hlaid : Laid d.entries) :
    Laid before ∧ Laid old ∧ Laid after := by
  rw [ha.entries] at hlaid
  have hrest : Laid (old ++ after) := hlaid.subset (List.sublist_append_right _ _)
  exact ⟨hlaid.subset (List.sublist_append_left _ _), hrest.subset (List.sublist_append_left _ _),
    hrest.subset (List.sublist_append_right _ _)⟩

theorem Around.old_name {before old after : Entries} {k : Key}
    (ha : Around d.entries name before old after k) : ∀ e ∈ old, e.1.name = name := by
  obtain ⟨rfl, -⟩ | ⟨i, rfl⟩ := ha.found
  · exact fun _ he => absurd he List.not_mem_nil
  · exact List.forall_mem_singleton.2 ha.key

theorem bodyOf_setTable (hlaid : Laid d.entries) {before old after : Entries} {k : Key}
    (ha : Around d.entries name before old after k) :
    bodyOf [] (d.setTable name inner).entries =
      (bodyOf [] d.entries).filter fun p => isOther name p.1 := by
  obtain ⟨hbefore, hold, hafter⟩ := ha.laid hlaid
  have hnew : (d.setTable name inner).entries = before ++ (k, .table {} inner) :: after :=
    ha.set (.table {} inner)
  have hother {es : Entries} (hes : Laid es) (hne : ∀ e ∈ es, e.1.name ≠ name) :
      ((bodyOf [] es).filter fun p => isOther name p.1) = bodyOf [] es := by
    refine List.filter_eq_self.2 fun p hp => ?_
    obtain ⟨e, he, hpath⟩ := pathName_bodyOf hes hp
    rw [isOther, hpath]
    exact bne_iff_ne.2 (hne e he)
  have hnone : ((bodyOf [] old).filter fun p => isOther name p.1) = [] := by
    refine List.filter_eq_nil_iff.2 fun p hp => ?_
    obtain ⟨e, he, hpath⟩ := pathName_bodyOf hold hp
    rw [isOther, hpath, ha.old_name e he, bne_self_eq_false]
    exact Bool.false_ne_true
  rw [hnew, ha.entries, bodyOf_append, bodyOf, bodyOfItem, if_neg Bool.false_ne_true,
    bodyOf_append, bodyOf_append, List.filter_append, List.filter_append, hother hbefore ha.before,
    hnone, hother hafter ha.after]

/-- The printed tables, as they stand in the document: the new one is among the others of before. -/
theorem visible_setTable (hlaid : Laid d.entries) (hsteady : Steady d.entries)
    (hinner : IsPlain inner) {before old after : Entries} {k : Key}
    (ha : Around d.entries name before old after k) :
    ∃ rank pre post,
      visible (sectionsOf [] 0 (d.setTable name inner).entries).1 =
        pre ++ newSection rank k inner :: post ∧
      (visible (sectionsOf [] 0 d.entries).1).filter (fun s => isOther name s.path) =
        pre ++ post ∧
      ∀ s ∈ pre ++ post, isOther name s.path = true := by
  obtain ⟨hbefore, hold, hafter⟩ := ha.laid hlaid
  have hsteady' : Steady after := fun e he => hsteady e (by
    rw [ha.entries]
    exact List.mem_append_right _ (List.mem_append_right _ he))
  have hnew : (d.setTable name inner).entries = before ++ (k, .table {} inner) :: after :=
    ha.set (.table {} inner)
  -- the rank that the tables before it leave off with, which is also that of a table without place
  obtain ⟨rank, hrank⟩ : ∃ rank, rank = (sectionsOf [] 0 before).2 := ⟨_, rfl⟩
  have hall : ∀ s ∈ visible (sectionsOf [] 0 before).1 ++ visible (sectionsOf [] rank after).1,
      isOther name s.path = true := by
    rw [List.forall_mem_append]
    exact ⟨fun s hs => isOther_sections hbefore ha.before s (List.mem_filter.1 hs).1,
      fun s hs => isOther_sections hafter ha.after s (List.mem_filter.1 hs).1⟩
  refine ⟨rank, _, _, ?_, ?_, hall⟩
  · have hsections : (sectionsOf [] 0 (d.setTable name inner).entries).1 =
        (sectionsOf [] 0 before).1 ++
          newSection rank k inner :: (sectionsOf [] rank after).1 := by
      rw [hnew, sectionsOf_append, sectionsOf_cons, ← hrank]
      simp only [List.nil_append, sectionsOfItem, sectionsOf_plain hinner]
      rfl
    rw [hsections, visible_append]
    rfl
  · have hnone (rank : Nat) : (visible (sectionsOf [] rank old).1).filter
        (fun s => isOther name s.path) = [] := by
      refine List.filter_eq_nil_iff.2 fun s hs => ?_
      rw [not_isOther_sections hold ha.old_name s (List.mem_filter.1 hs).1]
      exact Bool.false_ne_true
    rw [List.forall_mem_append] at hall
    rw [ha.entries, sectionsOf_append, sectionsOf_append, visible_append, visible_append,
      List.filter_append, List.filter_append, hnone, List.nil_append,
      visible_sectionsOf (fun e he => visible_sectionsOfItem (hsteady' e he)) [] _ rank,
      List.filter_eq_self.2 hall.1, List.filter_eq_self.2 hall.2]

/-- Sorting puts a table somewhere among the others. -/
theorem sortByRank_cut {p : Section → Bool} {s : Section} (hs : p s = false) {pre post : List Section}
    (hall : ∀ t ∈ pre ++ post, p t = true) :
    ∃ first second, sortByRank (pre ++ s :: post) = first ++ s :: second ∧
      sortByRank (pre ++ post) = first ++ second := by
  have hpos {ts : List Section} (h : ∀ t ∈ ts, p t = true) : ts.filter (fun t => !p t) = [] :=
    List.filter_eq_nil_iff.2 fun t ht => by rw [h t ht]; exact Bool.false_ne_true
  have hself : (sortByRank (pre ++ s :: post)).filter (fun t => !p t) = [s] := by
    rw [List.forall_mem_append] at hall
    rw [filter_sortByRank, List.filter_append, hpos hall.1, List.nil_append,
      List.filter_cons_of_pos (by rw [hs]; rfl), hpos hall.2]
    rfl
  have hothers : (sortByRank (pre ++ s :: post)).filter p = sortByRank (pre ++ post) := by
    rw [filter_sortByRank, List.filter_append,
      List.filter_cons_of_neg (by rw [hs]; exact Bool.false_ne_true), ← List.filter_append,
      List.filter_eq_self.2 hall]
  obtain ⟨first, second, hsplit, hfirst, -, hsecond⟩ := List.filter_eq_cons_iff.1 hself
  refine ⟨first, second, hsplit, ?_⟩
  rw [← hothers, hsplit, List.filter_append,
    List.filter_cons_of_neg (by rw [hs]; exact Bool.false_ne_true)]
  congr 1
  · exact List.filter_eq_self.2 fun t ht => by simpa using hfirst t ht
  · exact List.filter_eq_self.2 fun t ht => by simpa using List.filter_eq_nil_iff.1 hsecond t ht

/-- What is printed of a document with a new table is the new table and, before and after it, all
that was printed of the others. -/
theorem printed_setTable (hlaid : Laid d.entries) (hsteady : Steady d.entries)
    (hinner : IsPlain inner) {before old after : Entries} {k : Key}
    (ha : Around d.entries name before old after k) :
    ∃ rank first second,
      Printed (d.setTable name inner)
        ((bodyOf [] d.entries).filter fun p => isOther name p.1)
        (first ++ newSection rank k inner :: second) ∧
      (visible (sortByRank (sectionsOf [] 0 d.entries).1)).filter
        (fun s => isOther name s.path) = first ++ second := by
  obtain ⟨rank, pre, post, hvisible, hothers, hall⟩ := visible_setTable hlaid hsteady hinner ha
  have hown : isOther name (newSection rank k inner).path = false := by
    show (k.name != name) = false
    rw [ha.key, bne_self_eq_false]
  obtain ⟨first, second, hfirst, hsecond⟩ :=
    sortByRank_cut (p := fun s => isOther name s.path) hown hall
  refine ⟨rank, first, second, ⟨bodyOf_setTable hlaid ha, ?_⟩, ?_⟩
  · rw [visible, filter_sortByRank, ← visible, hvisible, hfirst]
  · rw [visible, filter_sortByRank, filter_sortByRank, ← visible, hothers, hsecond]

/-! ## The text of the others -/

theorem print_of_not_visible {s : Section} (h : s.isVisible = false) (isFirst : Bool) :
    s.print isFirst = "" := by
  unfold Section.print
  rw [h, bodyOf_of_not_visible h]
  rfl

theorem printSections_visible (isFirst : Bool) (ss : List Section) :
    printSections isFirst ss = printSections isFirst (visible ss) := by
  induction ss generalizing isFirst with
  | nil => rfl
  | cons s ss ih =>
    rw [printSections]
    cases hs : s.isVisible with
    | true =>
      have hvisible : visible (s :: ss) = s :: visible ss := List.filter_cons_of_pos hs
      rw [hvisible, printSections, hs, ih]
    | false =>
      have hvisible : visible (s :: ss) = visible ss :=
        List.filter_cons_of_neg (by rw [hs]; exact Bool.false_ne_true)
      rw [hvisible, print_of_not_visible hs, String.empty_append, Bool.not_false, Bool.and_true, ih]

theorem printSections_append (isFirst : Bool) (ss ss' : List Section) :
    ∃ isFirst', printSections isFirst (ss ++ ss') =
      printSections isFirst ss ++ printSections isFirst' ss' := by
  induction ss generalizing isFirst with
  | nil => exact ⟨isFirst, by rw [List.nil_append, printSections, String.empty_append]⟩
  | cons s ss ih =>
    obtain ⟨isFirst', h⟩ := ih (isFirst && !s.isVisible)
    exact ⟨isFirst', by rw [List.cons_append, printSections, printSections, h,
      String.append_assoc]⟩

theorem toList_print_printed {body : List (List Key × Value)} {ss : List Section}
    (h : Printed d body ss) : d.print.toList =
      (String.join (body.map fun p => printPair p.1 p.2)).toList ++
        ((printSections body.isEmpty ss).toList ++ plainEnds d.trailing.toList) := by
  rw [toList_print, h.body, printSections_visible, h.sections]

theorem infix_section {s : Section} {ss : List Section} (hs : s ∈ ss) (isFirst : Bool) :
    ∃ isFirst', (s.print isFirst').toList <:+: (printSections isFirst ss).toList := by
  obtain ⟨before, after, rfl⟩ := List.append_of_mem hs
  obtain ⟨isFirst', h⟩ := printSections_append isFirst before (s :: after)
  refine ⟨isFirst', ?_⟩
  rw [h, printSections, String.toList_append, String.toList_append]
  exact (List.prefix_append _ _).isInfix.trans (List.suffix_append _ _).isInfix

theorem infix_pair {p : List Key × Value} {ps : List (List Key × Value)} (hp : p ∈ ps) :
    (printPair p.1 p.2).toList <:+:
      (String.join (ps.map fun p => printPair p.1 p.2)).toList := by
  obtain ⟨before, after, rfl⟩ := List.append_of_mem hp
  rw [String.toList_join, List.map_append, List.flatMap_append, List.map_cons, List.flatMap_cons]
  exact (List.prefix_append _ _).isInfix.trans (List.suffix_append _ _).isInfix

/-- The text has every line and every table of other names that the document is printed with, and
what follows the last of them. -/
structure KeepsOthers (d : Document) (name : String) (text : String) : Prop where
  pairs : ∀ p ∈ bodyOf [] d.entries, isOther name p.1 = true →
    (printPair p.1 p.2).toList <:+: text.toList
  tables : ∀ s ∈ (sectionsOf [] 0 d.entries).1, s.isVisible = true → isOther name s.path = true →
    ∃ isFirst, (s.print isFirst).toList <:+: text.toList
  trailing : (dropReturns d.trailing).toList <:+ text.toList

/-- **The other lines and tables are still there**, with the comments above and inside them. -/
theorem keepsOthers_setTable (hd : d.Kept) (hinner : IsPlain inner) (name : String) :
    KeepsOthers d name (d.setTable name inner).print := by
  obtain ⟨before, old, after, k, ha⟩ := exists_around hd.laid.names name
  obtain ⟨rank, first, second, hprinted, hothers⟩ :=
    printed_setTable hd.laid hd.steady hinner ha
  have htext := toList_print_printed hprinted
  refine ⟨fun p hp hother => ?_, fun s hs hvisible hother => ?_, ?_⟩
  all_goals rw [htext]
  · exact (infix_pair (List.mem_filter.2 ⟨hp, hother⟩)).trans (List.prefix_append _ _).isInfix
  · have hmem : s ∈ first ++ second := by
      rw [← hothers]
      exact List.mem_filter.2
        ⟨List.mem_filter.2 ⟨mem_sortByRank.2 hs, hvisible⟩, hother⟩
    have hmem : s ∈ first ++ newSection rank k inner :: second := by
      rw [List.mem_append] at hmem ⊢
      exact hmem.imp_right (List.mem_cons_of_mem _)
    obtain ⟨isFirst, h⟩ := infix_section hmem
      ((bodyOf [] d.entries).filter fun p => isOther name p.1).isEmpty
    exact ⟨isFirst, h.trans ((List.prefix_append _ _).isInfix.trans
      (List.suffix_append _ _).isInfix)⟩
  · rw [toList_dropReturns]
    exact (List.suffix_append _ _).trans (List.suffix_append _ _)

end ExportDesk.Toml
