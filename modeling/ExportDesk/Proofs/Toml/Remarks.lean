import ExportDesk.Proofs.Toml.Separate
import ExportDesk.Proofs.Toml.Steady

/-!
# Comments in a document

Comments stand above and behind headers and pairs, and inside values. Whatever a statement has of
them is in the document that the statements make, under the top-level name that the statement
belongs to: `bears_ofStatements`.
-/

namespace ExportDesk.Toml

open Entries Reader

/-! ## Where comments stand -/

/-- What stands before and after, without carriage returns. -/
def Decor.remarks (decor : Decor) : List (List Char) :=
  [plainEnds decor.before.toList, plainEnds decor.after.toList]

/-- What stands above a pair, the spelling of its value, and what follows it. -/
def pairRemarks (path : List Key) (v : Value) : List (List Char) :=
  [plainEnds ((path.getLast?.bind (·.line)).getD ⟨"", " "⟩).before.toList, v.written.toList,
    plainEnds v.decor.after.toList]

/-- The parts of a statement that can hold comments. -/
def Statement.remarks : Statement → List (List Char)
  | .header _ _ decor => decor.remarks
  | .pair path v => pairRemarks path v

theorem pairRemarks_of_getLast? {path : List Key} {k : Key} (h : path.getLast? = some k)
    (v : Value) : pairRemarks path v = pairRemarks [k] v := by
  unfold pairRemarks
  rw [h, List.getLast?_singleton]

/-- The text stands at the entry of a key, or at one below it. -/
inductive BearsItem (r : List Char) : Key → Item → Prop where
  | value {k : Key} {v : Value} (hr : r ∈ pairRemarks [k] v) : BearsItem r k (.value v)
  | head {k : Key} {h : Head} {es : Entries} {decor : Decor} (hdecor : h.decor = some decor)
    (himplicit : h.implicit = false) (hdotted : h.dotted = false) (hr : r ∈ decor.remarks) :
    BearsItem r k (.table h es)
  | inside {k : Key} {h : Head} {es : Entries} {e : Key × Item} (he : e ∈ es)
    (hr : BearsItem r e.1 e.2) : BearsItem r k (.table h es)
  | element {k : Key} {ts : List (Head × Entries)} {t : Head × Entries} {decor : Decor}
    (ht : t ∈ ts) (hdecor : t.1.decor = some decor) (hr : r ∈ decor.remarks) :
    BearsItem r k (.tables ts)
  | insideElement {k : Key} {ts : List (Head × Entries)} {t : Head × Entries} {e : Key × Item}
    (ht : t ∈ ts) (he : e ∈ t.2) (hr : BearsItem r e.1 e.2) : BearsItem r k (.tables ts)

/-- The text stands at an entry of a name, or below it. -/
def Bears (r : List Char) (name : String) (es : Entries) : Prop :=
  ∃ e ∈ es, e.1.name = name ∧ BearsItem r e.1 e.2

/-- The text stands at some entry. -/
def BearsSome (r : List Char) (es : Entries) : Prop := ∃ e ∈ es, BearsItem r e.1 e.2

section

variable {r : List Char} {es fs : Entries} {name : String} {k : Key} {i i' : Item}

theorem Bears.toSome (h : Bears r name es) : BearsSome r es := by
  obtain ⟨e, he, -, hr⟩ := h
  exact ⟨e, he, hr⟩

theorem BearsSome.bears (h : BearsSome r es) : ∃ name, Bears r name es := by
  obtain ⟨e, he, hr⟩ := h
  exact ⟨e.1.name, e, he, rfl, hr⟩

theorem Bears.append (h : Bears r name es) (fs : Entries) : Bears r name (es ++ fs) := by
  obtain ⟨e, he, hname, hr⟩ := h
  exact ⟨e, List.mem_append_left _ he, hname, hr⟩

theorem bears_append_new (es : Entries) (h : BearsItem r k i) :
    Bears r k.name (es ++ [(k, i)]) :=
  ⟨(k, i), List.mem_append_right _ (List.mem_singleton_self _), rfl, h⟩

/-- Only the one entry of a name is replaced. -/
theorem Bears.replace (hes : Laid es) (hitem : es.item? name = some i) {lost : Prop}
    (hi : ∀ k, BearsItem r k i → BearsItem r k i' ∨ lost) {n : String} (h : Bears r n es) :
    Bears r n (es.replace name i') ∨ n = name ∧ lost := by
  obtain ⟨e, he, rfl, hr⟩ := h
  by_cases hname : e.1.name = name
  · obtain ⟨k, hmem, hk⟩ := mem_of_item? hitem
    obtain rfl := List.inj_on_of_nodup_map hes.names hmem he (hk.trans hname.symm)
    refine (hi k hr).imp (fun hr' => ?_) fun hlost => ⟨hname, hlost⟩
    refine ⟨(k, i'), List.mem_map.2 ⟨(k, i), he, ?_⟩, rfl, hr'⟩
    rw [if_pos (beq_iff_eq.2 hname)]
  · refine .inl ⟨e, List.mem_map.2 ⟨e, he, ?_⟩, rfl, hr⟩
    rw [if_neg (by simpa using hname)]

theorem bears_replace_new (hitem : es.item? name = some i) (hi : ∀ k, BearsItem r k i') :
    Bears r name (es.replace name i') := by
  obtain ⟨k, hmem, hk⟩ := mem_of_item? hitem
  refine ⟨(k, i'), List.mem_map.2 ⟨(k, i), hmem, ?_⟩, hk, hi k⟩
  rw [if_pos (beq_iff_eq.2 hk)]

end

/-! ## Changes of the tables -/

/-- A change at a name: the text stays where it stood, unless it is lost with that name, and stands
at that name afterwards if it is new. -/
structure Passes (r : List Char) (name : String) (new lost : Prop) (es es' : Entries) : Prop where
  old : ∀ n, Bears r n es → Bears r n es' ∨ n = name ∧ lost
  new : new → Bears r name es'

namespace Passes

variable {r : List Char} {name : String} {new lost : Prop} {es es' : Entries}

theorem keeps (h : Passes r name new False es es') {n : String} (hr : Bears r n es) :
    Bears r n es' := (h.old n hr).resolve_right fun hlost => hlost.2

theorem toSome (h : Passes r name new lost es es') (hr : BearsSome r es) :
    BearsSome r es' ∨ lost := by
  obtain ⟨n, hn⟩ := hr.bears
  exact (h.old n hn).imp Bears.toSome And.right

end Passes

theorem passes_add {r : List Char} {k : Key} {i : Item} {es es' : Entries}
    (h : es.add k i = some es') : Passes r k.name (BearsItem r k i) False es es' := by
  unfold Entries.add at h
  split at h
  · cases h
  · cases h
    exact ⟨fun n hr => .inl (hr.append _), bears_append_new es⟩

namespace Assembly

theorem contents_nil (path : List Key) : openTable.contents path [] = [] := by
  cases path <;> rfl

theorem contents_append (path path' : List Key) (es : Entries) :
    openTable.contents (path ++ path') es =
      openTable.contents path' (openTable.contents path es) := by
  induction path generalizing es with
  | nil => rfl
  | cons k ks ih =>
    rw [List.cons_append, openTable.contents, openTable.contents]
    split
    · exact ih _
    · split
      · exact ih _
      · exact (contents_nil path').symm
    · exact (contents_nil path').symm

end Assembly

open Assembly

/-- The name at which a walk down a path changes something. -/
def walkName (path : List Key) (last : String) : String :=
  match path with
  | [] => last
  | k :: _ => k.name

theorem walkName_dropLast {path : List Key} {k : Key} (h : path.getLast? = some k) :
    walkName path.dropLast k.name = pathName path := by
  match path with
  | [] => cases h
  | [k'] =>
    obtain rfl := Option.some.inj h
    rfl
  | k' :: k'' :: ks => rfl

/-- What a change does at the end of a walk, the walk does where it begins. -/
theorem passes_modifyAt {dotted : Bool} {change : Head → Entries → Option Entries}
    {r : List Char} {last : String} {new : Prop} (lost : Entries → Prop)
    (hchange : ∀ h es es', Laid es → change h es = some es' →
      Passes r last new (lost es) es es')
    {path : List Key} {h : Head} {es es' : Entries} (hes : Laid es)
    (hrun : modifyAt dotted change path h es = some es') :
    Passes r (walkName path last) new (lost (openTable.contents path es)) es es' := by
  induction path generalizing h es es' with
  | nil => exact hchange h es es' hes hrun
  | cons k ks ih =>
    show Passes r k.name _ _ _ _
    rw [openTable.contents]
    cases walked_of_modifyAt hrun with
    | made hitem hinner =>
      have hpasses := ih laid_nil hinner
      refine ⟨fun n hr => .inl (hr.append _), fun hnew => bears_append_new es ?_⟩
      obtain ⟨e, he, -, hr⟩ := hpasses.new hnew
      exact .inside he hr
    | @table h inner inner' hitem himplicit hinner =>
      obtain ⟨k', -, -, hk'⟩ := hes.item hitem
      have hpasses := ih (laidItem_table.1 hk').2.2 hinner
      rw [hitem]
      refine ⟨fun n hr => hr.replace hes hitem fun k' hr => ?_, fun hnew => ?_⟩
      · cases hr with
        | head hdecor himplicit hdotted hr => exact .inl (.head hdecor himplicit hdotted hr)
        | inside he hr =>
          refine (hpasses.toSome ⟨_, he, hr⟩).imp_left fun hsome => ?_
          obtain ⟨e, he, hr⟩ := hsome
          exact .inside he hr
      · obtain ⟨e, he, -, hr⟩ := hpasses.new hnew
        exact bears_replace_new hitem fun k' => .inside he hr
    | @tables ts h inner inner' hitem hinner =>
      obtain ⟨k', -, -, hk'⟩ := hes.item hitem
      have hlaid := (laidItem_tables.1 hk').2 (h, inner) (by simp)
      have hpasses := ih hlaid.2 hinner
      have hlast : (h, inner') ∈ ts ++ [(h, inner')] := by simp
      rw [hitem]
      simp only [List.getLast?_concat]
      refine ⟨fun n hr => hr.replace hes hitem fun k' hr => ?_, fun hnew => ?_⟩
      · cases hr with
        | @element _ _ t decor ht hdecor hr =>
          rw [List.mem_append, List.mem_singleton] at ht
          obtain ht | rfl := ht
          · exact .inl (.element (List.mem_append_left _ ht) hdecor hr)
          · exact .inl (.element hlast hdecor hr)
        | @insideElement _ _ t e ht he hr =>
          rw [List.mem_append, List.mem_singleton] at ht
          obtain ht | rfl := ht
          · exact .inl (.insideElement (List.mem_append_left _ ht) he hr)
          · refine (hpasses.toSome ⟨e, he, hr⟩).imp_left fun hsome => ?_
            obtain ⟨e, he, hr⟩ := hsome
            exact .insideElement hlast he hr
      · obtain ⟨e, he, -, hr⟩ := hpasses.new hnew
        exact bears_replace_new hitem fun k' => .insideElement hlast he hr

section

variable {r : List Char} {path : List Key} {es es' : Entries}

theorem passes_setPair {v : Value} (hes : Laid es) (h : es.setPair path v = some es') :
    Passes r (pathName path) (r ∈ pairRemarks path v) False es es' := by
  obtain ⟨k, hlast, h⟩ := Option.bind_eq_some_iff.1 h
  rw [pairRemarks_of_getLast? hlast, ← walkName_dropLast hlast]
  refine passes_modifyAt (fun _ => False) (fun head inner inner' _ hchange => ?_) hes h
  split at hchange
  · cases hchange
  · exact ⟨(passes_add hchange).old, fun hr => (passes_add hchange).new (.value hr)⟩

end

namespace Assembly

variable {r : List Char} {path : List Key} {root root' : Entries}

theorem passes_placeAt {inArray : Bool} {decor : Decor} {position : Option Nat}
    {inner : Entries} (hroot : Laid root)
    (h : placeAt inArray path { decor := some decor, position } inner root = some root') :
    Passes r (pathName path) (r ∈ decor.remarks ∨ BearsSome r inner) False root root' := by
  obtain ⟨k, hlast, h⟩ := Option.bind_eq_some_iff.1 h
  rw [← walkName_dropLast hlast]
  refine passes_modifyAt (fun _ => False) (fun _ es es' hes hplace => ?_) hroot h
  have helement {ts : List (Head × Entries)}
      (ht : ({ decor := some decor, position }, inner) ∈ ts)
      (hnew : r ∈ decor.remarks ∨ BearsSome r inner) (k : Key) : BearsItem r k (.tables ts) := by
    obtain hr | ⟨e, he, hr⟩ := hnew
    · exact .element ht rfl hr
    · exact .insideElement ht he hr
  unfold place at hplace
  split at hplace
  · split at hplace
    · cases hplace
      exact ⟨fun n hr => .inl (hr.append _), fun hnew =>
        bears_append_new es (helement (List.mem_singleton_self _) hnew k)⟩
    next ts hitem =>
      cases hplace
      refine ⟨fun n hr => hr.replace hes hitem fun k' hr => .inl ?_, fun hnew =>
        bears_replace_new hitem (helement (by simp) hnew)⟩
      cases hr with
      | element ht hdecor hr => exact .element (List.mem_append_left _ ht) hdecor hr
      | insideElement ht he hr => exact .insideElement (List.mem_append_left _ ht) he hr
    · cases hplace
  · refine ⟨(passes_add hplace).old, fun hnew => (passes_add hplace).new ?_⟩
    obtain hr | ⟨e, he, hr⟩ := hnew
    · exact .head rfl rfl rfl hr
    · exact .inside he hr

/-- What an implicit table held is in the table that is opened in its place. -/
theorem passes_openTable {opened : Entries × Entries} (hroot : Laid root)
    (h : openTable root path = some opened) :
    Passes r (pathName path) False (BearsSome r opened.2) root opened.1 := by
  rw [openTable_eq] at h
  obtain ⟨k, hlast, h⟩ := Option.bind_eq_some_iff.1 h
  obtain ⟨taken, htake, rfl⟩ := Option.map_eq_some_iff.1 h
  have hpath : path.dropLast ++ [k] = path := List.dropLast_append_getLast? k hlast
  show Passes r (pathName path) False (BearsSome r (openTable.contents path root)) root taken
  rw [← walkName_dropLast hlast]
  conv => arg 4; rw [← hpath, contents_append]
  refine passes_modifyAt (fun es => BearsSome r (openTable.contents [k] es))
    (fun _ es es' hes hchange => ?_) hroot htake
  unfold takeOut at hchange
  split at hchange
  · cases hchange
    exact ⟨fun n hr => .inl hr, False.elim⟩
  next head inner hitem =>
    split at hchange
    next himplicit =>
      cases hchange
      rw [Bool.and_eq_true] at himplicit
      refine ⟨fun n hr => ?_, False.elim⟩
      obtain ⟨e, he, rfl, hr⟩ := hr
      by_cases hname : e.1.name = k.name
      · obtain ⟨k', hmem, hk'⟩ := mem_of_item? hitem
        obtain rfl := List.inj_on_of_nodup_map hes.names hmem he (hk'.trans hname.symm)
        refine .inr ⟨hname, ?_⟩
        rw [openTable.contents, hitem]
        cases hr with
        | head _ hexplicit => rw [himplicit.1] at hexplicit; cases hexplicit
        | inside he hr => exact ⟨_, he, hr⟩
      · exact .inl ⟨e, List.mem_filter.2 ⟨he, bne_iff_ne.2 hname⟩, rfl, hr⟩
    · cases hchange
  · cases hchange

end Assembly

/-! ## Statements -/

/-- The top-level name that a statement belongs to, below the table that is open. -/
def Statement.owner (opened : Option String) : Statement → String
  | .header _ path _ => pathName path
  | .pair path _ => opened.getD (pathName path)

/-- The name of the table that is open behind a statement. -/
def Statement.opens (opened : Option String) : Statement → Option String
  | .header _ path _ => some (pathName path)
  | .pair _ _ => opened

/-- Statements with the top-level names that they belong to. -/
def owned (opened : Option String) : List Statement → List (String × Statement)
  | [] => []
  | s :: ss => (s.owner opened, s) :: owned (s.opens opened) ss

namespace Assembly

/-- The top-level name of the open table. -/
def openName (a : Assembly) : Option String := a.opened.map fun o => pathName o.2.1

/-- The text stands at a name in what was assembled. -/
def BearsAt (a : Assembly) (r : List Char) (name : String) : Prop :=
  match a.opened with
  | none => Bears r name a.current
  | some (_, path, decor) =>
    Bears r name a.root ∨ name = pathName path ∧ (r ∈ decor.remarks ∨ BearsSome r a.current)

variable {a a' : Assembly} {r : List Char}

theorem bearsAt_none {name : String} (h : a.opened = none) :
    a.BearsAt r name ↔ Bears r name a.current := by
  unfold BearsAt
  rw [h]

theorem bearsAt_some {name : String} {inArray : Bool} {path : List Key} {decor : Decor}
    (h : a.opened = some (inArray, path, decor)) :
    a.BearsAt r name ↔
      Bears r name a.root ∨ name = pathName path ∧ (r ∈ decor.remarks ∨ BearsSome r a.current) := by
  unfold BearsAt
  rw [h]

theorem BearsAt.close (ha : a.Kept) {es : Entries} (hclose : a.close = some es) {name : String}
    (h : a.BearsAt r name) : Bears r name es := by
  cases hopened : a.opened with
  | none =>
    rw [bearsAt_none hopened] at h
    unfold Assembly.close at hclose
    rw [hopened] at hclose
    cases hclose
    exact h
  | some o =>
    obtain ⟨inArray, path, decor⟩ := o
    rw [close_opened hopened] at hclose
    have hpasses := passes_placeAt (r := r) ha.root.1 hclose
    obtain h | ⟨rfl, hnew⟩ := (bearsAt_some hopened).1 h
    · exact hpasses.keeps h
    · exact hpasses.new hnew

/-- One statement brings its comments and keeps those that were there. -/
theorem bearsAt_step (ha : a.Kept) {s : Statement} (h : a.step s = some a') :
    (∀ name, a.BearsAt r name → a'.BearsAt r name) ∧
      (r ∈ s.remarks → a'.BearsAt r (s.owner a.openName)) ∧
      a'.openName = s.opens a.openName := by
  cases s with
  | pair path v =>
    obtain ⟨current, hset, heq⟩ := Option.bind_eq_some_iff.1 h
    have hopened' : a'.opened = a.opened := by cases heq; rfl
    have hcurrent : a'.current = current := by cases heq; rfl
    have hroot : a'.root = a.root := by cases heq; rfl
    have hname : a'.openName = a.openName := by unfold openName; rw [hopened']
    have hpasses := passes_setPair (r := r) ha.current hset
    cases hopened : a.opened with
    | none =>
      have howner : (Statement.pair path v).owner a.openName = pathName path := by
        unfold openName
        rw [hopened]
        rfl
      rw [hopened] at hopened'
      rw [howner, bearsAt_none hopened', hcurrent]
      refine ⟨fun name hr => ?_, hpasses.new, hname⟩
      rw [bearsAt_none hopened', hcurrent]
      exact hpasses.keeps ((bearsAt_none hopened).1 hr)
    | some o =>
      obtain ⟨inArray, path', decor⟩ := o
      have howner : (Statement.pair path v).owner a.openName = pathName path' := by
        unfold openName
        rw [hopened]
        rfl
      rw [hopened] at hopened'
      rw [howner, bearsAt_some hopened', hcurrent]
      refine ⟨fun name hr => ?_, fun hr => .inr ⟨rfl, .inr (hpasses.new hr).toSome⟩, hname⟩
      rw [bearsAt_some hopened', hcurrent, hroot]
      refine ((bearsAt_some hopened).1 hr).imp_right fun hown =>
        ⟨hown.1, hown.2.imp_right fun hsome => ?_⟩
      exact (hpasses.toSome hsome).resolve_right id
  | header inArray path decor =>
    obtain ⟨root, hclose, h⟩ := Option.bind_eq_some_iff.1 h
    have hroot {name : String} (hr : a.BearsAt r name) : Bears r name root := hr.close ha hclose
    split at h
    · cases h
      exact ⟨fun name hr => .inl (hroot hr), fun hr => .inr ⟨rfl, .inl hr⟩, rfl⟩
    · obtain ⟨opened, hopen, heq⟩ := Option.bind_eq_some_iff.1 h
      cases heq
      have hpasses := passes_openTable (r := r) (ha.close hclose).1 hopen
      exact ⟨fun name hr => (hpasses.old name (hroot hr)).imp_right fun hlost =>
        ⟨hlost.1, .inr hlost.2⟩, fun hr => .inr ⟨rfl, .inl hr⟩, rfl⟩

theorem bearsAt_foldlM {ss : List Statement} (hss : ∀ s ∈ ss, LaidStatement s) (ha : a.Kept)
    (h : ss.foldlM step a = some a') :
    (∀ name, a.BearsAt r name → a'.BearsAt r name) ∧
      ∀ x ∈ owned a.openName ss, r ∈ x.2.remarks → a'.BearsAt r x.1 := by
  induction ss generalizing a with
  | nil =>
    cases h
    exact ⟨fun _ hr => hr, fun x hx => absurd hx List.not_mem_nil⟩
  | cons s ss ih =>
    obtain ⟨hs, hss⟩ := List.forall_mem_cons.1 hss
    rw [List.foldlM_cons] at h
    obtain ⟨a₁, hstep, hrest⟩ := Option.bind_eq_some_iff.1 h
    obtain ⟨hkeeps, hnew, hname⟩ := bearsAt_step (r := r) ha hstep
    obtain ⟨hkeeps', hnew'⟩ := ih hss (ha.step hs hstep) hrest
    refine ⟨fun name hr => hkeeps' name (hkeeps name hr), ?_⟩
    rw [owned, List.forall_mem_cons, ← hname]
    exact ⟨fun hr => hkeeps' _ (hnew hr), hnew'⟩

end Assembly

/-- **No comment is lost** when statements that were read are assembled. -/
theorem bears_ofStatements {ss : List Statement} (hss : ∀ s ∈ ss, LaidStatement s)
    {trailing : String} {d : Document} (h : Assembly.ofStatements ss trailing = some d)
    {r : List Char} : ∀ x ∈ owned none ss, r ∈ x.2.remarks → Bears r x.1 d.entries := by
  obtain ⟨a, hfold, h⟩ := Option.bind_eq_some_iff.1 h
  obtain ⟨es, hclose, heq⟩ := Option.bind_eq_some_iff.1 h
  cases heq
  intro x hx hr
  exact ((bearsAt_foldlM hss kept_empty hfold).2 x hx hr).close (kept_empty.foldlM hss hfold) hclose

end ExportDesk.Toml
