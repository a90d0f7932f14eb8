import Mathlib.Data.List.Nodup
import ExportDesk.Proofs.Toml.Lines

/-!
# The layout of a document that was read

Every key, value and header of a document has the layout it was read with: `Laid`. Reading
statements gives such layout (`laidStatement_of_statements`), and assembling keeps it
(`laid_ofStatements`), so that whatever is printed from the document is made of lines that are read
back.
-/

namespace ExportDesk.Toml

open Reader

/-! ## Items -/

/-- The header, where there is one, has only blanks and comments around it. -/
def Head.IsLoose (h : Head) : Prop := ∀ decor ∈ h.decor, Decor.IsLoose decor

/-- The item under a key, with everything below it, has the layout of lines that were read. -/
inductive LaidItem : Key → Item → Prop where
  | value {k : Key} {v : Value} (line : Decor.IsLeading (k.line.getD ⟨"", " "⟩))
    (written : IsWritten v) : LaidItem k (.value v)
  | table {k : Key} {h : Head} {es : Entries} (line : Decor.IsTight (k.line.getD ⟨"", ""⟩))
    (head : h.IsLoose) (keys : ∀ e ∈ es, IsKey e.1)
    (names : (es.map fun e => e.1.name).Nodup) (items : ∀ e ∈ es, LaidItem e.1 e.2) :
    LaidItem k (.table h es)
  | tables {k : Key} {ts : List (Head × Entries)}
    (line : Decor.IsTight (k.line.getD ⟨"", ""⟩)) (heads : ∀ t ∈ ts, t.1.IsLoose)
    (keys : ∀ t ∈ ts, ∀ e ∈ t.2, IsKey e.1)
    (names : ∀ t ∈ ts, (t.2.map fun e => e.1.name).Nodup)
    (items : ∀ t ∈ ts, ∀ e ∈ t.2, LaidItem e.1 e.2) : LaidItem k (.tables ts)

/-- Entries with different names, each with the layout of lines that were read. -/
structure Laid (es : Entries) : Prop where
  keys : ∀ e ∈ es, IsKey e.1
  names : (es.map fun e => e.1.name).Nodup
  items : ∀ e ∈ es, LaidItem e.1 e.2

theorem laidItem_table {k : Key} {h : Head} {es : Entries} :
    LaidItem k (.table h es) ↔
      Decor.IsTight (k.line.getD ⟨"", ""⟩) ∧ h.IsLoose ∧ Laid es := by
  constructor
  · rintro ⟨⟩
    rename_i line head keys names items
    exact ⟨line, head, keys, names, items⟩
  · rintro ⟨line, head, hes⟩
    exact .table line head hes.keys hes.names hes.items

theorem laidItem_tables {k : Key} {ts : List (Head × Entries)} :
    LaidItem k (.tables ts) ↔
      Decor.IsTight (k.line.getD ⟨"", ""⟩) ∧ ∀ t ∈ ts, t.1.IsLoose ∧ Laid t.2 := by
  constructor
  · rintro ⟨⟩
    rename_i line heads keys names items
    exact ⟨line, fun t ht => ⟨heads t ht, keys t ht, names t ht, items t ht⟩⟩
  · rintro ⟨line, hts⟩
    exact .tables line (fun t ht => (hts t ht).1) (fun t ht => (hts t ht).2.keys)
      (fun t ht => (hts t ht).2.names) fun t ht => (hts t ht).2.items

theorem laid_nil : Laid [] :=
  ⟨fun _ he => absurd he List.not_mem_nil, List.nodup_nil, fun _ he => absurd he List.not_mem_nil⟩

namespace Entries

variable {es : Entries} {name : String}

theorem has_iff : es.has name = true ↔ name ∈ es.map fun e => e.1.name := by
  unfold Entries.has
  rw [List.any_eq_true, List.mem_map]
  simp only [beq_iff_eq]

theorem item?_eq_none : es.item? name = none ↔ es.has name = false := by
  induction es with
  | nil => simp [Entries.has]
  | cons e es ih =>
    rw [item?_cons]
    by_cases hname : e.1.name = name
    · simp [hname, Entries.has]
    · rw [if_neg hname, ih]
      simp [hname, Entries.has]

theorem mem_of_item? {i : Item} (h : es.item? name = some i) :
    ∃ k, (k, i) ∈ es ∧ k.name = name := by
  obtain ⟨e, he, rfl⟩ := Option.map_eq_some_iff.1 h
  have hname := List.find?_some he
  rw [beq_iff_eq] at hname
  exact ⟨e.1, List.mem_of_find?_eq_some he, hname⟩

theorem names_replace (i : Item) :
    ((es.replace name i).map fun e => e.1.name) = es.map fun e => e.1.name := by
  unfold replace
  rw [List.map_map]
  refine List.map_congr_left fun e _ => ?_
  rw [Function.comp_apply]
  split <;> rfl

end Entries

open Entries

variable {es : Entries} {k : Key} {i : Item}

theorem Laid.append (hes : Laid es) (hnew : es.has k.name = false) (hk : IsKey k)
    (hi : LaidItem k i) : Laid (es ++ [(k, i)]) := by
  refine ⟨?_, ?_, ?_⟩
  · rw [List.forall_mem_append]
    exact ⟨hes.keys, List.forall_mem_singleton.2 hk⟩
  · rw [List.map_append, List.nodup_append]
    refine ⟨hes.names, by simp, fun a ha b hb heq => ?_⟩
    rw [heq, List.mem_singleton.1 hb] at ha
    rw [has_iff.2 ha] at hnew
    cases hnew
  · rw [List.forall_mem_append]
    exact ⟨hes.items, List.forall_mem_singleton.2 hi⟩

theorem Laid.item (hes : Laid es) {name : String} (hi : es.item? name = some i) :
    ∃ k, k.name = name ∧ IsKey k ∧ LaidItem k i := by
  obtain ⟨k, hmem, hname⟩ := mem_of_item? hi
  exact ⟨k, hname, hes.keys _ hmem, hes.items _ hmem⟩

theorem Laid.replace (hes : Laid es) {name : String} {i' : Item} (hi : es.item? name = some i)
    (hlaid : ∀ k, LaidItem k i → LaidItem k i') : Laid (es.replace name i') := by
  refine ⟨fun e he => ?_, by rw [names_replace]; exact hes.names, fun e he => ?_⟩
  all_goals
    obtain ⟨e', he', rfl⟩ := List.mem_map.1 he
    split
  · exact hes.keys e' he'
  · exact hes.keys e' he'
  next hname =>
    -- the names differ, so that the one entry of this name has the item that was found
    obtain ⟨k, hmem, hk⟩ := mem_of_item? hi
    have heq := List.inj_on_of_nodup_map hes.names hmem he' (hk.trans (beq_iff_eq.1 hname).symm)
    rw [← heq]
    exact hlaid k (hes.items _ hmem)
  · exact hes.items e' he'

theorem Laid.without (hes : Laid es) (name : String) : Laid (es.without name) := by
  have hsub : List.Sublist (es.without name) es := List.filter_sublist
  exact ⟨fun e he => hes.keys e (hsub.subset he), (hsub.map _).nodup hes.names,
    fun e he => hes.items e (hsub.subset he)⟩

/-- A key in the middle of a path. -/
structure IsInner (k : Key) : Prop extends IsKey k where
  line : k.line = none

theorem isTight_none : Decor.IsTight ⟨"", ""⟩ :=
  ⟨fun _ hc => absurd hc List.not_mem_nil, fun _ hc => absurd hc List.not_mem_nil⟩

theorem laid_modifyAt {dotted : Bool} {change : Head → Entries → Option Entries}
    (hchange : ∀ h es es', Laid es → change h es = some es' → Laid es') {path : List Key}
    (hpath : ∀ k ∈ path, IsInner k) {h : Head} {es es' : Entries} (hes : Laid es)
    (hrun : modifyAt dotted change path h es = some es') : Laid es' := by
  induction path generalizing h es es' with
  | nil => exact hchange h es es' hes hrun
  | cons k ks ih =>
    obtain ⟨hk, hks⟩ := List.forall_mem_cons.1 hpath
    cases walked_of_modifyAt hrun with
    | made hitem hinner =>
      refine hes.append (item?_eq_none.1 hitem) hk.toIsKey
        (laidItem_table.2 ⟨?_, ⟨?_, ih hks laid_nil hinner⟩⟩)
      · rw [hk.line]
        exact isTight_none
      · rintro _ ⟨⟩
    | table hitem himplicit hinner =>
      refine hes.replace hitem fun k' hk' => ?_
      obtain ⟨hline, hhead, hlaid⟩ := laidItem_table.1 hk'
      exact laidItem_table.2 ⟨hline, hhead, ih hks hlaid hinner⟩
    | tables hitem hinner =>
      refine hes.replace hitem fun k' hk' => ?_
      obtain ⟨hline, hts⟩ := laidItem_tables.1 hk'
      rw [List.forall_mem_append, List.forall_mem_singleton] at hts
      refine laidItem_tables.2 ⟨hline, ?_⟩
      rw [List.forall_mem_append, List.forall_mem_singleton]
      exact ⟨hts.1, hts.2.1, ih hks hts.2.2 hinner⟩

/-! ## Statements -/

/-- A statement with the layout of a line that was read. -/
inductive LaidStatement : Statement → Prop where
  | header {inArray : Bool} {path : List Key} {decor : Decor}
    (hpath : IsPath ⟨"", ""⟩ Decor.IsTight path) (hinner : ∀ k ∈ path.dropLast, IsInner k)
    (hdecor : Decor.IsLoose decor) : LaidStatement (.header inArray path decor)
  | pair {path : List Key} {v : Value} (hpath : IsPath ⟨"", " "⟩ Decor.IsLeading path)
    (hinner : ∀ k ∈ path.dropLast, IsInner k) (hv : IsWritten v) :
    LaidStatement (.pair path v)

theorem isBlankLines_append_gap {inComment : Bool} {t g : List Char}
    (ht : isBlankLines inComment t = true) (hg : ∀ c ∈ g, isGap c = true) :
    isBlankLines inComment (t ++ g) = true := by
  induction t generalizing inComment with
  | nil =>
    obtain rfl : inComment = false := by simpa [isBlankLines] using ht
    induction g with
    | nil => rfl
    | cons c g ih =>
      obtain ⟨hc, hg⟩ := List.forall_mem_cons.1 hg
      rw [List.nil_append, isBlankLines, if_neg (by simpa using ne_line_of_isGap hc),
        if_neg Bool.false_ne_true, if_pos hc]
      exact ih hg
  | cons c t ih =>
    rw [isBlankLines] at ht
    rw [List.cons_append, isBlankLines]
    split at ht
    next hn =>
      rw [if_pos hn]
      exact ih ht
    next hn =>
      rw [if_neg hn]
      split at ht
      next hcomment =>
        rw [Bool.and_eq_true] at ht
        rw [if_pos hcomment, ht.1, ih ht.2]
        rfl
      next hcomment =>
        rw [if_neg hcomment]
        split at ht
        next hgap =>
          rw [if_pos hgap]
          exact ih ht
        next hgap =>
          rw [Bool.and_eq_true] at ht
          rw [if_neg hgap, ht.1, ih ht.2]
          rfl

theorem Reader.IsKey.relaid {k : Key} (hk : IsKey k) {around : Decor} {line : Option Decor}
    (hbefore : ∀ c ∈ around.before.toList, isGap c = true)
    (hafter : ∀ c ∈ around.after.toList, isGap c = true) :
    IsKey { k with around, line } :=
  ⟨hk.start, hk.reads, hbefore, hafter⟩

/-- A path that was framed: its keys, and the decor of the whole. -/
theorem framed_spec (lead : List Char) {ks : List Key} (hne : ks ≠ [])
    (hks : ∀ k ∈ ks, IsInner k) :
    framed lead ks ≠ [] ∧ (∀ k ∈ framed lead ks, IsKey k) ∧
      (∀ k ∈ (framed lead ks).dropLast, IsInner k) ∧
      ∃ first ∈ ks, ∃ last ∈ ks, (framed lead ks).getLast?.bind (·.line) =
        some ⟨String.ofList lead ++ first.around.before, last.around.after⟩ := by
  have hnone : ∀ c ∈ "".toList, isGap c = true := fun _ hc => absurd hc List.not_mem_nil
  match ks with
  | [] => exact absurd rfl hne
  | [k] =>
    have hk := hks k List.mem_cons_self
    refine ⟨List.cons_ne_nil _ _, List.forall_mem_singleton.2 (hk.toIsKey.relaid hnone hnone),
      fun _ h => absurd h List.not_mem_nil, k, List.mem_cons_self, k, List.mem_cons_self, rfl⟩
  | k :: k' :: ks =>
    have hk := hks k List.mem_cons_self
    have hrest : ∀ x ∈ k' :: ks, IsInner x := fun x hx => hks x (List.mem_cons_of_mem k hx)
    have hlast : (k' :: ks).getLast? = some ((k' :: ks).getLast (List.cons_ne_nil _ _)) :=
      List.getLast?_eq_some_getLast _
    have hmem := List.getLast_mem (List.cons_ne_nil k' ks)
    rw [framed]
    · rw [hlast]
      generalize (k' :: ks).getLast (List.cons_ne_nil _ _) = last at hmem
      simp only
      refine ⟨List.cons_ne_nil _ _, ?_, ?_, k, List.mem_cons_self, last,
        List.mem_cons_of_mem k hmem, ?_⟩
      · rw [List.forall_mem_cons, List.forall_mem_append, List.forall_mem_singleton]
        exact ⟨hk.toIsKey.relaid hnone hk.after, fun x hx =>
          (hrest x (List.dropLast_subset _ hx)).toIsKey,
          (hrest last hmem).toIsKey.relaid (hrest last hmem).before hnone⟩
      · rw [← List.cons_append, List.dropLast_concat, List.forall_mem_cons]
        exact ⟨⟨hk.toIsKey.relaid hnone hk.after, hk.line⟩,
          fun x hx => hrest x (List.dropLast_subset _ hx)⟩
      · rw [← List.cons_append, List.getLast?_concat]
        rfl
    · exact List.cons_ne_nil _ _

theorem isPath_of_keyPath {lead cs rest : List Char} {path : List Key}
    (h : keyPath lead cs = some (path, rest)) :
    (∀ k ∈ path.dropLast, IsInner k) ∧
      (isBlankLines false (plainEnds lead) = true →
        IsPath ⟨"", " "⟩ Decor.IsLeading path) ∧
      (lead = [] → IsPath ⟨"", ""⟩ Decor.IsTight path) := by
  obtain ⟨⟨ks, rest'⟩, hkeys, heq⟩ := Option.map_eq_some_iff.1 h
  cases heq
  obtain ⟨hne, hks, -⟩ := dottedKeys_taken hkeys
  have hks : ∀ k ∈ ks, IsInner k := fun k hk => ⟨(hks k hk).1, (hks k hk).2⟩
  obtain ⟨hpath, hkeys, hinner, first, hfirst, last, hlast, hline⟩ := framed_spec lead hne hks
  refine ⟨hinner, fun hlead => ⟨hpath, hkeys, ?_⟩, ?_⟩
  · rw [hline, Option.getD_some]
    refine ⟨?_, (hks last hlast).after⟩
    rw [String.toList_append, String.toList_ofList]
    have hgap := (hks first hfirst).before
    rw [show plainEnds (lead ++ first.around.before.toList) =
      plainEnds lead ++ plainEnds first.around.before.toList from List.filter_append _ _,
      plainEnds_of_gap hgap]
    exact isBlankLines_append_gap hlead hgap
  · rintro rfl
    refine ⟨hpath, hkeys, ?_⟩
    rw [hline, Option.getD_some]
    refine ⟨fun c hc => (hks first hfirst).before c ?_, (hks last hlast).after⟩
    rw [String.toList_append, String.toList_ofList] at hc
    exact (List.mem_filter.1 hc).1

theorem laidStatement_of_header {inArray : Bool} {lead cs rest : List Char} {s : Statement}
    (hlead : isBlankLines false (plainEnds lead) = true)
    (h : header inArray lead cs = some (s, rest)) : LaidStatement s := by
  obtain ⟨⟨path, cs₁⟩, hpath, h⟩ := Option.bind_eq_some_iff.1 h
  obtain ⟨cs₂, -, h⟩ := Option.bind_eq_some_iff.1 h
  obtain ⟨⟨after, cs₃⟩, hend, heq⟩ := Option.bind_eq_some_iff.1 h
  cases heq
  obtain ⟨hinner, -, htight⟩ := isPath_of_keyPath hpath
  refine .header (htight rfl) hinner ⟨?_, ?_⟩
  · rwa [String.toList_ofList]
  · rw [String.toList_ofList]
    exact isRemark_of_lineEnd hend

theorem laidStatement_of_pair {lead cs rest : List Char} {s : Statement}
    (hlead : isBlankLines false (plainEnds lead) = true)
    (h : pair lead cs = some (s, rest)) : LaidStatement s := by
  obtain ⟨⟨path, cs₁⟩, hpath, h⟩ := Option.bind_eq_some_iff.1 h
  simp only at h
  split at h
  next cs₂ =>
    rcases hgap : gap cs₂ with ⟨before, cs₃⟩
    obtain ⟨-, hgaps, -⟩ := gap_eq hgap
    rw [hgap] at h
    obtain ⟨⟨d, w, cs₄⟩, hvalue, h⟩ := Option.bind_eq_some_iff.1 h
    obtain ⟨⟨after, cs₅⟩, hend, heq⟩ := Option.bind_eq_some_iff.1 h
    cases heq
    obtain ⟨hinner, hleading, -⟩ := isPath_of_keyPath hpath
    refine .pair (hleading hlead) hinner ⟨?_, ?_, ?_⟩
    · rwa [String.toList_ofList]
    · rw [String.toList_ofList]
      exact isRemark_of_lineEnd hend
    · rw [String.toList_ofList]
      exact value_taken hvalue
  · cases h

/-- **What was read has its layout.** -/
theorem laidStatement_of_statements {fuel : Nat} {cs trailing : List Char} {ss : List Statement}
    (h : statements fuel cs = some (ss, trailing)) :
    (∀ s ∈ ss, LaidStatement s) ∧ trivia false trailing = some (trailing, []) := by
  induction fuel generalizing cs ss with
  | zero => cases h
  | succ fuel ih =>
    unfold statements at h
    obtain ⟨⟨lead, cs₁⟩, htrivia, h⟩ := Option.bind_eq_some_iff.1 h
    obtain ⟨hcs, -, hlines⟩ := trivia_eq_some htrivia
    simp only at h
    have hmore {r : Option (Statement × List Char)}
        (hr : ∀ s rest, r = some (s, rest) → LaidStatement s)
        (h : (r.bind fun x => (statements fuel x.2).bind fun t =>
          some (x.1 :: t.1, t.2)) = some (ss, trailing)) :
        (∀ s ∈ ss, LaidStatement s) ∧ trivia false trailing = some (trailing, []) := by
      obtain ⟨⟨s, cs₂⟩, hs, h⟩ := Option.bind_eq_some_iff.1 h
      obtain ⟨⟨ss', t⟩, hss, heq⟩ := Option.bind_eq_some_iff.1 h
      cases heq
      obtain ⟨hall, htrailing⟩ := ih hss
      exact ⟨List.forall_mem_cons.2 ⟨hr s cs₂ hs, hall⟩, htrailing⟩
    split at h
    next =>
      cases h
      rw [List.append_nil] at hcs
      subst hcs
      exact ⟨fun _ hs => absurd hs List.not_mem_nil, htrivia⟩
    next hne =>
      have hlead := hlines hne
      split at h
      · exact hmore (fun _ _ => laidStatement_of_header hlead) h
      · exact hmore (fun _ _ => laidStatement_of_header hlead) h
      · exact hmore (fun _ _ => laidStatement_of_pair hlead) h

/-! ## Assembling -/

theorem laid_add {k : Key} {i : Item} {es es' : Entries} (hes : Laid es) (hk : IsKey k)
    (hi : LaidItem k i) (h : es.add k i = some es') : Laid es' := by
  unfold Entries.add at h
  split at h
  · cases h
  next hnew =>
    cases h
    exact hes.append (by simpa using hnew) hk hi

theorem laid_setPair {path : List Key} {v : Value} (hs : LaidStatement (.pair path v))
    {es es' : Entries} (hes : Laid es) (h : es.setPair path v = some es') : Laid es' := by
  obtain ⟨⟩ := hs
  rename_i hpath hinner hv
  obtain ⟨k, hlast, h⟩ := Option.bind_eq_some_iff.1 h
  have hline := hpath.line
  rw [hlast, Option.bind_some] at hline
  refine laid_modifyAt (fun head inner inner' hlaid hchange => ?_) hinner hes h
  split at hchange
  · cases hchange
  · exact laid_add hlaid (hpath.keys k (List.mem_of_getLast? hlast)) (.value hline hv) hchange

namespace Assembly

theorem laid_placeAt {inArray : Bool} {path : List Key} {head : Head} {inner root root' : Entries}
    (hpath : IsPath ⟨"", ""⟩ Decor.IsTight path) (hinner : ∀ k ∈ path.dropLast, IsInner k)
    (hhead : head.IsLoose) (hlaid : Laid inner) (hroot : Laid root)
    (h : placeAt inArray path head inner root = some root') : Laid root' := by
  obtain ⟨k, hlast, h⟩ := Option.bind_eq_some_iff.1 h
  have hk := hpath.keys k (List.mem_of_getLast? hlast)
  have hline := hpath.line
  rw [hlast, Option.bind_some] at hline
  refine laid_modifyAt (fun _ es es' hes hplace => ?_) hinner hroot h
  unfold place at hplace
  split at hplace
  · split at hplace
    next hitem =>
      cases hplace
      refine hes.append (item?_eq_none.1 hitem) hk (laidItem_tables.2 ⟨hline, ?_⟩)
      exact List.forall_mem_singleton.2 ⟨hhead, hlaid⟩
    next ts hitem =>
      cases hplace
      refine hes.replace hitem fun k' hk' => ?_
      obtain ⟨hline', hts⟩ := laidItem_tables.1 hk'
      refine laidItem_tables.2 ⟨hline', ?_⟩
      rw [List.forall_mem_append, List.forall_mem_singleton]
      exact ⟨hts, hhead, hlaid⟩
    · cases hplace
  · exact laid_add hes hk (laidItem_table.2 ⟨hline, hhead, hlaid⟩) hplace

theorem laid_contents {path : List Key} {es : Entries} (hes : Laid es) :
    Laid (openTable.contents path es) := by
  induction path generalizing es with
  | nil => exact hes
  | cons k ks ih =>
    rw [openTable.contents]
    split
    next h inner hitem =>
      obtain ⟨k', -, -, hk'⟩ := hes.item hitem
      exact ih (laidItem_table.1 hk').2.2
    next ts hitem =>
      split
      next h inner hlast =>
        obtain ⟨k', -, -, hk'⟩ := hes.item hitem
        exact ih ((laidItem_tables.1 hk').2 _ (List.mem_of_getLast? hlast)).2
      · exact laid_nil
    · exact laid_nil

theorem laid_openTable {path : List Key} {root : Entries} {r : Entries × Entries}
    (hinner : ∀ k ∈ path.dropLast, IsInner k) (hroot : Laid root)
    (h : openTable root path = some r) : Laid r.1 ∧ Laid r.2 := by
  rw [openTable_eq] at h
  obtain ⟨k, -, h⟩ := Option.bind_eq_some_iff.1 h
  obtain ⟨taken, htake, rfl⟩ := Option.map_eq_some_iff.1 h
  refine ⟨laid_modifyAt (fun _ es es' hes hchange => ?_) hinner hroot htake, laid_contents hroot⟩
  unfold takeOut at hchange
  split at hchange
  · cases hchange
    exact hes
  · split at hchange
    · cases hchange
      exact hes.without _
    · cases hchange
  · cases hchange

end Assembly

end ExportDesk.Toml
