import ExportDesk.Proofs.Toml.Laid

/-!
# Where tables are printed

In a document that was read, only tables with a header know their place among the others. What
stands in no text, the tables that longer headers run through, is not printed, so that the printed
tables have the same ranks wherever in the document they stand: `sectionsOf_steady`.
-/

namespace ExportDesk.Toml

open Entries

/-- The item is not printed without a header of its own. -/
def Item.IsHeaded : Item → Prop
  | .value _ => False
  | .table h _ => h.dotted = false
  | .tables _ => True

/-- No values and no tables of dotted keys. -/
def Headed (es : Entries) : Prop := ∀ e ∈ es, e.2.IsHeaded

/-- Every table that is printed under a header has its place, unless it is inside one that has. -/
inductive SteadyItem : Item → Prop where
  | value (v : Value) : SteadyItem (.value v)
  | placed {h : Head} (es : Entries) (hdotted : h.dotted = false)
    (hposition : h.position.isSome = true) : SteadyItem (.table h es)
  | dotted {h : Head} {es : Entries} (hdotted : h.dotted = true)
    (hes : ∀ e ∈ es, SteadyItem e.2) : SteadyItem (.table h es)
  | implicit {h : Head} {es : Entries} (hdotted : h.dotted = false) (himplicit : h.implicit = true)
    (hheaded : Headed es) (hes : ∀ e ∈ es, SteadyItem e.2) : SteadyItem (.table h es)
  | tables {ts : List (Head × Entries)} (hts : ∀ t ∈ ts, t.1.position.isSome = true) :
    SteadyItem (.tables ts)

/-- Entries that are printed in the same places whatever stands before them. -/
def Steady (es : Entries) : Prop := ∀ e ∈ es, SteadyItem e.2

theorem bodyOf_eq_nil {es : Entries} (h : Headed es) (parents : List Key) :
    bodyOf parents es = [] := by
  induction es with
  | nil => rw [bodyOf]
  | cons e es ih =>
    obtain ⟨k, i⟩ := e
    obtain ⟨hi, hes⟩ := List.forall_mem_cons.1 h
    rw [bodyOf, ih hes, List.append_nil]
    cases i with
    | value v => cases hi
    | table head inner =>
      have hdotted : head.dotted = false := hi
      rw [bodyOfItem, hdotted, if_neg Bool.false_ne_true]
    | tables ts => rw [bodyOfItem]

/-! ## Ranks -/

/-- The sections that are printed. -/
def visible (ss : List Section) : List Section := ss.filter Section.isVisible

theorem visible_append (ss ss' : List Section) :
    visible (ss ++ ss') = visible ss ++ visible ss' := List.filter_append ss ss'

theorem sectionsOf_cons (parents : List Key) (rank : Nat) (k : Key) (i : Item) (es : Entries) :
    sectionsOf parents rank ((k, i) :: es) =
      ((sectionsOfItem (parents ++ [k]) rank i).1 ++
        (sectionsOf parents (sectionsOfItem (parents ++ [k]) rank i).2 es).1,
      (sectionsOf parents (sectionsOfItem (parents ++ [k]) rank i).2 es).2) := by
  rw [sectionsOf]

theorem visible_sectionsOf {es : Entries}
    (h : ∀ e ∈ es, ∀ path rank rank', visible (sectionsOfItem path rank e.2).1 =
      visible (sectionsOfItem path rank' e.2).1) (parents : List Key) (rank rank' : Nat) :
    visible (sectionsOf parents rank es).1 = visible (sectionsOf parents rank' es).1 := by
  induction es generalizing rank rank' with
  | nil => rw [sectionsOf, sectionsOf]
  | cons e es ih =>
    obtain ⟨k, i⟩ := e
    obtain ⟨hi, hes⟩ := List.forall_mem_cons.1 h
    rw [sectionsOf_cons, sectionsOf_cons, visible_append, visible_append, hi _ rank rank',
      ih hes _ _]

theorem sectionsOfElements_placed {ts : List (Head × Entries)}
    (hts : ∀ t ∈ ts, t.1.position.isSome = true) (path : List Key) (rank rank' : Nat) :
    (sectionsOfElements path rank ts).1 = (sectionsOfElements path rank' ts).1 := by
  cases ts with
  | nil => rw [sectionsOfElements, sectionsOfElements]
  | cons t ts =>
    obtain ⟨h, es⟩ := t
    obtain ⟨p, hp⟩ := Option.isSome_iff_exists.1 (hts _ List.mem_cons_self)
    have hp : h.position = some p := hp
    rw [sectionsOfElements, sectionsOfElements, hp]
    rfl

theorem visible_sectionsOfItem {i : Item} (hi : SteadyItem i) (path : List Key)
    (rank rank' : Nat) :
    visible (sectionsOfItem path rank i).1 = visible (sectionsOfItem path rank' i).1 := by
  induction hi generalizing path rank rank' with
  | value v => rw [sectionsOfItem, sectionsOfItem]
  | placed es hdotted hposition =>
    obtain ⟨p, hp⟩ := Option.isSome_iff_exists.1 hposition
    rw [sectionsOfItem, sectionsOfItem, hp, hdotted]
    rfl
  | dotted hdotted _ ih =>
    rw [sectionsOfItem, sectionsOfItem, hdotted]
    exact visible_sectionsOf ih path rank rank'
  | @implicit h es hdotted himplicit hheaded _ ih =>
    have hhidden (rank : Nat) :
        (Section.mk rank path h es false).isVisible = false := by
      unfold Section.isVisible
      rw [himplicit, bodyOf_eq_nil hheaded]
      rfl
    have hsections (rank : Nat) : visible (sectionsOfItem path rank (.table h es)).1 =
        visible (sectionsOf path (h.position.getD rank) es).1 := by
      rw [sectionsOfItem, hdotted]
      exact List.filter_cons_of_neg (by rw [hhidden]; exact Bool.false_ne_true)
    rw [hsections, hsections]
    exact visible_sectionsOf ih path _ _
  | tables hts =>
    rw [sectionsOfItem, sectionsOfItem, sectionsOfElements_placed hts path rank rank']

/-! ## Assembling -/

theorem Steady.append {es : Entries} (hes : Steady es) {k : Key} {i : Item}
    (hi : SteadyItem i) : Steady (es ++ [(k, i)]) := by
  unfold Steady
  rw [List.forall_mem_append]
  exact ⟨hes, List.forall_mem_singleton.2 hi⟩

theorem Steady.replace {es : Entries} (hes : Steady es) {name : String} {i : Item}
    (hi : SteadyItem i) : Steady (es.replace name i) := by
  intro e he
  obtain ⟨e', he', rfl⟩ := List.mem_map.1 he
  split
  · exact hi
  · exact hes e' he'

theorem Steady.item {es : Entries} (hes : Steady es) {name : String} {i : Item}
    (hi : es.item? name = some i) : SteadyItem i := by
  obtain ⟨k, hmem, -⟩ := mem_of_item? hi
  exact hes _ hmem

theorem Headed.append {es : Entries} (hes : Headed es) {k : Key} {i : Item}
    (hi : i.IsHeaded) : Headed (es ++ [(k, i)]) := by
  unfold Headed
  rw [List.forall_mem_append]
  exact ⟨hes, List.forall_mem_singleton.2 hi⟩

theorem Headed.replace {es : Entries} (hes : Headed es) {name : String} {i : Item}
    (hi : i.IsHeaded) : Headed (es.replace name i) := by
  intro e he
  obtain ⟨e', he', rfl⟩ := List.mem_map.1 he
  split
  · exact hi
  · exact hes e' he'

theorem steady_nil : Steady [] := fun _ he => absurd he List.not_mem_nil

theorem headed_nil : Headed [] := fun _ he => absurd he List.not_mem_nil

/-- What a header does to the tables that are closed leaves them steady, and puts nothing without a
header into them. -/
theorem steady_modifyAt {change : Head → Entries → Option Entries}
    (hchange : ∀ h es es', Steady es → change h es = some es' →
      Steady es' ∧ (Headed es → Headed es')) {path : List Key} {h : Head} {es es' : Entries}
    (hes : Steady es) (hrun : modifyAt false change path h es = some es') :
    Steady es' ∧ (Headed es → Headed es') := by
  induction path generalizing h es es' with
  | nil => exact hchange h es es' hes hrun
  | cons k ks ih =>
    cases walked_of_modifyAt hrun with
    | made hitem hinner =>
      obtain ⟨hsteady, hheaded⟩ := ih steady_nil hinner
      exact ⟨hes.append (.implicit rfl rfl (hheaded headed_nil) hsteady),
        fun hes => hes.append rfl⟩
    | table hitem himplicit hinner =>
      refine ⟨hes.replace ?_, fun hheaded => hheaded.replace ?_⟩
      · cases hes.item hitem with
        | placed _ hdotted hposition => exact .placed _ hdotted hposition
        | dotted hdotted hsteady => exact .dotted hdotted (ih hsteady hinner).1
        | implicit hdotted himplicit hheaded hsteady =>
          obtain ⟨hsteady', hheaded'⟩ := ih hsteady hinner
          exact .implicit hdotted himplicit (hheaded' hheaded) hsteady'
      · obtain ⟨k', hmem, -⟩ := mem_of_item? hitem
        exact hheaded _ hmem
    | tables hitem hinner =>
      refine ⟨hes.replace ?_, fun hheaded => hheaded.replace trivial⟩
      cases hes.item hitem with
      | tables hts =>
        rw [List.forall_mem_append, List.forall_mem_singleton] at hts
        refine .tables ?_
        rw [List.forall_mem_append, List.forall_mem_singleton]
        exact hts

theorem steady_placeAt {inArray : Bool} {path : List Key} {head : Head}
    (hdotted : head.dotted = false) (hposition : head.position.isSome = true)
    {inner root root' : Entries} (hroot : Steady root)
    (h : Assembly.placeAt inArray path head inner root = some root') : Steady root' := by
  obtain ⟨k, -, h⟩ := Option.bind_eq_some_iff.1 h
  refine (steady_modifyAt (fun _ es es' hes hplace => ?_) hroot h).1
  unfold Assembly.place at hplace
  split at hplace
  · split at hplace
    · cases hplace
      exact ⟨hes.append (.tables (List.forall_mem_singleton.2 hposition)),
        fun hheaded => hheaded.append trivial⟩
    next ts hitem =>
      cases hplace
      refine ⟨hes.replace ?_, fun hheaded => hheaded.replace trivial⟩
      cases hes.item hitem with
      | tables hts =>
        refine .tables ?_
        rw [List.forall_mem_append, List.forall_mem_singleton]
        exact ⟨hts, hposition⟩
    · cases hplace
  · unfold Entries.add at hplace
    split at hplace
    · cases hplace
    · cases hplace
      exact ⟨hes.append (.placed _ hdotted hposition),
        fun hheaded => hheaded.append hdotted⟩

theorem steady_openTable {path : List Key} {root : Entries} {r : Entries × Entries}
    (hroot : Steady root) (h : Assembly.openTable root path = some r) : Steady r.1 := by
  rw [Assembly.openTable_eq] at h
  obtain ⟨k, -, h⟩ := Option.bind_eq_some_iff.1 h
  obtain ⟨taken, htake, rfl⟩ := Option.map_eq_some_iff.1 h
  refine (steady_modifyAt (fun _ es es' hes hchange => ?_) hroot htake).1
  unfold Assembly.takeOut at hchange
  split at hchange
  · cases hchange
    exact ⟨hes, id⟩
  · split at hchange
    · cases hchange
      exact ⟨fun e he => hes e (List.mem_filter.1 he).1,
        fun hheaded e he => hheaded e (List.mem_filter.1 he).1⟩
    · cases hchange
  · cases hchange

/-- Above all headers there are only values and tables of dotted keys. -/
inductive FlatItem : Item → Prop where
  | value (v : Value) : FlatItem (.value v)
  | dotted {h : Head} {es : Entries} (hdotted : h.dotted = true)
    (hes : ∀ e ∈ es, FlatItem e.2) : FlatItem (.table h es)

/-- Entries above all headers. -/
def Flat (es : Entries) : Prop := ∀ e ∈ es, FlatItem e.2

theorem FlatItem.steady {i : Item} (hi : FlatItem i) : SteadyItem i := by
  induction hi with
  | value v => exact .value v
  | dotted hdotted _ ih => exact .dotted hdotted ih

theorem Flat.append {es : Entries} (hes : Flat es) {k : Key} {i : Item} (hi : FlatItem i) :
    Flat (es ++ [(k, i)]) := by
  unfold Flat
  rw [List.forall_mem_append]
  exact ⟨hes, List.forall_mem_singleton.2 hi⟩

theorem flat_add {k : Key} {v : Value} {es es' : Entries} (hes : Flat es)
    (h : es.add k (.value v) = some es') : Flat es' := by
  unfold Entries.add at h
  split at h
  · cases h
  · cases h
    exact hes.append (.value v)

theorem flat_modifyAt {change : Head → Entries → Option Entries}
    (hchange : ∀ h es es', Flat es → change h es = some es' → Flat es') {path : List Key}
    {h : Head} {es es' : Entries} (hes : Flat es)
    (hrun : modifyAt true change path h es = some es') : Flat es' := by
  induction path generalizing h es es' with
  | nil => exact hchange h es es' hes hrun
  | cons k ks ih =>
    have hitems {name : String} {i : Item} (hi : es.item? name = some i) : FlatItem i := by
      obtain ⟨k', hmem, -⟩ := mem_of_item? hi
      exact hes _ hmem
    cases walked_of_modifyAt hrun with
    | made hitem hinner =>
      exact hes.append (.dotted rfl (ih (fun _ he => absurd he List.not_mem_nil) hinner))
    | table hitem himplicit hinner =>
      intro e he
      obtain ⟨e', he', rfl⟩ := List.mem_map.1 he
      split
      · cases hitems hitem with
        | dotted hdotted hflat => exact .dotted hdotted (ih hflat hinner)
      · exact hes e' he'
    | tables hitem hinner => nomatch hitems hitem

theorem flat_setPair {path : List Key} {v : Value} {es es' : Entries} (hes : Flat es)
    (h : es.setPair path v = some es') : Flat es' := by
  match path with
  | [] => cases h
  | [k] => exact flat_add hes h
  | k :: k' :: ks =>
    have hdotted : decide (1 < (k :: k' :: ks).length) = true := by
      rw [decide_eq_true_eq, List.length_cons, List.length_cons]
      omega
    unfold Entries.setPair at h
    rw [List.getLast?_eq_some_getLast (List.cons_ne_nil _ _), hdotted] at h
    refine flat_modifyAt (fun head inner inner' hflat hchange => ?_) hes h
    split at hchange
    · cases hchange
    · exact flat_add hflat hchange

/-! ## Documents that were read -/

/-- What holds of an assembly while statements that were read are taken in. -/
structure Assembly.Kept (a : Assembly) : Prop where
  root : Laid a.root ∧ Steady a.root
  current : Laid a.current
  first : a.opened = none → Flat a.current
  header : ∀ o ∈ a.opened, LaidStatement (.header o.1 o.2.1 o.2.2)

theorem Assembly.kept_empty : Assembly.Kept {} :=
  ⟨⟨laid_nil, steady_nil⟩, laid_nil, fun _ _ he => absurd he List.not_mem_nil, nofun⟩

theorem Assembly.Kept.close {a : Assembly} (ha : a.Kept) {es : Entries}
    (h : a.close = some es) : Laid es ∧ Steady es := by
  cases hopened : a.opened with
  | none =>
    unfold Assembly.close at h
    rw [hopened] at h
    cases h
    exact ⟨ha.current, fun e he => (ha.first hopened e he).steady⟩
  | some o =>
    obtain ⟨inArray, path, decor⟩ := o
    have hheader := ha.header _ hopened
    rw [Assembly.close_opened hopened] at h
    cases hheader with
    | header hpath hinner hdecor =>
      refine ⟨Assembly.laid_placeAt hpath hinner ?_ ha.current ha.root.1 h,
        steady_placeAt rfl rfl ha.root.2 h⟩
      rintro _ ⟨rfl⟩
      exact hdecor

/-- One statement. -/
theorem Assembly.Kept.step {a a' : Assembly} (ha : a.Kept) {s : Statement}
    (hs : LaidStatement s) (h : a.step s = some a') : a'.Kept := by
  cases s with
  | pair path v =>
    obtain ⟨current, hset, heq⟩ := Option.bind_eq_some_iff.1 h
    cases heq
    exact ⟨ha.root, laid_setPair hs ha.current hset, fun hopened =>
      flat_setPair (ha.first hopened) hset, ha.header⟩
  | header inArray path decor =>
    obtain ⟨root, hclose, h⟩ := Option.bind_eq_some_iff.1 h
    have hroot := ha.close hclose
    have hheader : ∀ o ∈ some (inArray, path, decor),
        LaidStatement (.header o.1 o.2.1 o.2.2) := by
      rintro _ ⟨rfl⟩
      exact hs
    split at h
    next harray =>
      cases h
      rw [harray] at hheader
      exact ⟨hroot, laid_nil, nofun, hheader⟩
    next harray =>
      obtain ⟨r, hopen, heq⟩ := Option.bind_eq_some_iff.1 h
      cases heq
      rw [Bool.eq_false_iff.2 harray] at hheader
      cases hs with
      | header hpath hinner hdecor =>
        obtain ⟨hleft, hcurrent⟩ := Assembly.laid_openTable hinner hroot.1 hopen
        exact ⟨⟨hleft, steady_openTable hroot.2 hopen⟩, hcurrent, nofun, hheader⟩

theorem Assembly.Kept.foldlM {ss : List Statement} (hss : ∀ s ∈ ss, LaidStatement s)
    {a a' : Assembly} (ha : a.Kept) (h : ss.foldlM Assembly.step a = some a') : a'.Kept := by
  induction ss generalizing a with
  | nil =>
    cases h
    exact ha
  | cons s ss ih =>
    obtain ⟨hs, hss⟩ := List.forall_mem_cons.1 hss
    rw [List.foldlM_cons] at h
    obtain ⟨a₁, hstep, hrest⟩ := Option.bind_eq_some_iff.1 h
    exact ih hss (ha.step hs hstep) hrest

/-- A document as it is read: with its layout, its tables in their places, and nothing but blanks
and comments behind them. -/
structure Document.Kept (d : Document) : Prop where
  laid : Laid d.entries
  steady : Steady d.entries
  trailing : Reader.trivia false d.trailing.toList = some (d.trailing.toList, [])

/-- **What was read is kept.** -/
theorem kept_of_read {text : String} {d : Document} (h : Document.read text = some d) :
    d.Kept := by
  obtain ⟨⟨ss, trailing⟩, hread, h⟩ := Option.bind_eq_some_iff.1 h
  obtain ⟨a, hfold, h⟩ := Option.bind_eq_some_iff.1 h
  obtain ⟨es, hclose, heq⟩ := Option.bind_eq_some_iff.1 h
  cases heq
  obtain ⟨hss, htrailing⟩ := laidStatement_of_statements hread
  obtain ⟨hlaid, hsteady⟩ := (Assembly.kept_empty.foldlM hss hfold).close hclose
  refine ⟨hlaid, hsteady, ?_⟩
  rw [← String.toList_ofList (l := trailing)] at htrailing
  exact htrailing

end ExportDesk.Toml
