import ExportDesk.Proofs.Toml.Walk

/-!
# Assembling without layout

What a sequence of statements makes does not depend on how anything was spelled, on blanks and
comments, or on the places of the headers. `bare` forgets all of that; `run` assembles tables
without it, and `bareOf_ofStatements` says that it makes the same tables.
-/

namespace ExportDesk.Toml

/-! ## Forgetting the layout -/

/-- The key with nothing but its name. -/
def Key.bare (k : Key) : Key := Key.plain k.name

/-- The value with nothing but its datum. -/
def Value.bare (v : Value) : Value := { datum := v.datum, written := "" }

/-- The head without decor and position. -/
def Head.bare (h : Head) : Head := { implicit := h.implicit, dotted := h.dotted }

mutual

/-- The item without layout. -/
def Item.bare : Item → Item
  | .value v => .value v.bare
  | .table h es => .table h.bare (bareOf es)
  | .tables ts => .tables (bareEach ts)

/-- The entries without layout. -/
def bareOf : List (Key × Item) → List (Key × Item)
  | [] => []
  | (k, i) :: es => (k.bare, i.bare) :: bareOf es

/-- The tables of an array without layout. -/
def bareEach : List (Head × List (Key × Item)) → List (Head × List (Key × Item))
  | [] => []
  | (h, es) :: ts => (h.bare, bareOf es) :: bareEach ts

end

/-- The statement without layout. -/
def Statement.bare : Statement → Statement
  | .header inArray path _ => .header inArray (path.map Key.bare) ⟨"", ""⟩
  | .pair path v => .pair (path.map Key.bare) v.bare

@[simp] theorem Key.bare_name (k : Key) : k.bare.name = k.name := rfl

theorem bareOf_eq_map (es : Entries) : bareOf es = es.map fun e => (e.1.bare, e.2.bare) := by
  induction es with
  | nil => simp [bareOf]
  | cons e es ih =>
    obtain ⟨k, i⟩ := e
    rw [bareOf, ih, List.map_cons]

theorem bareEach_eq_map (ts : List (Head × Entries)) :
    bareEach ts = ts.map fun t => (t.1.bare, bareOf t.2) := by
  induction ts with
  | nil => simp [bareEach]
  | cons t ts ih =>
    obtain ⟨h, es⟩ := t
    rw [bareEach, ih, List.map_cons]

mutual

theorem Item.datum_bare : ∀ i : Item, i.bare.datum = i.datum
  | .value v => by rw [Item.bare, Item.datum, Item.datum]; rfl
  | .table h es => by rw [Item.bare, Item.datum, Item.datum, fieldsOf_bareOf es]
  | .tables ts => by rw [Item.bare, Item.datum, Item.datum, elementsOf_bareEach ts]

/-- The plain values do not depend on the layout. -/
theorem fieldsOf_bareOf : ∀ es : List (Key × Item), fieldsOf (bareOf es) = fieldsOf es
  | [] => by rw [bareOf]
  | (k, i) :: es => by
    rw [bareOf, fieldsOf, fieldsOf, Item.datum_bare i, fieldsOf_bareOf es, Key.bare_name]

theorem elementsOf_bareEach :
    ∀ ts : List (Head × List (Key × Item)), elementsOf (bareEach ts) = elementsOf ts
  | [] => by rw [bareEach]
  | (h, es) :: ts => by
    rw [bareEach, elementsOf, elementsOf, fieldsOf_bareOf es, elementsOf_bareEach ts]

end

/-! ## Looking up and changing -/

namespace Entries

theorem bareOf_append (es fs : Entries) : bareOf (es ++ fs) = bareOf es ++ bareOf fs := by
  simp only [bareOf_eq_map, List.map_append]

theorem item?_bareOf (es : Entries) (name : String) :
    Entries.item? (bareOf es) name = (es.item? name).map Item.bare := by
  induction es with
  | nil => simp [bareOf]
  | cons e es ih =>
    obtain ⟨k, i⟩ := e
    rw [bareOf, item?_cons, item?_cons, ih, Key.bare_name]
    split <;> rfl

theorem has_bareOf (es : Entries) (name : String) :
    Entries.has (bareOf es) name = es.has name := by
  unfold Entries.has
  rw [bareOf_eq_map, List.any_map]
  rfl

theorem bareOf_replace (es : Entries) (name : String) (i : Item) :
    bareOf (es.replace name i) = Entries.replace (bareOf es) name i.bare := by
  unfold Entries.replace
  rw [bareOf_eq_map, bareOf_eq_map, List.map_map, List.map_map]
  refine List.map_congr_left fun e _ => ?_
  by_cases h : e.1.name = name <;> simp [h]

theorem bareOf_without (es : Entries) (name : String) :
    bareOf (es.without name) = Entries.without (bareOf es) name := by
  unfold Entries.without
  rw [bareOf_eq_map, bareOf_eq_map, List.filter_map]
  rfl

theorem bareOf_add (es : Entries) (k : Key) (i : Item) :
    (es.add k i).map bareOf = Entries.add (bareOf es) k.bare i.bare := by
  unfold Entries.add
  rw [has_bareOf, Key.bare_name]
  split
  · rfl
  · rw [Option.map_some, bareOf_append, bareOf_eq_map [_]]
    rfl

theorem bareOf_modifyAt {dotted : Bool} {change change' : Head → Entries → Option Entries}
    (hchange : ∀ h es, (change h es).map bareOf = change' h.bare (bareOf es)) (path : List Key)
    (h : Head) (es : Entries) :
    (modifyAt dotted change path h es).map bareOf =
      modifyAt dotted change' (path.map Key.bare) h.bare (bareOf es) := by
  induction path generalizing h es with
  | nil => exact hchange h es
  | cons k ks ih =>
    have hitem : Entries.item? (bareOf es) k.bare.name = _ := item?_bareOf es k.name
    rw [List.map_cons]
    cases hi : es.item? k.name with
    | none =>
      rw [hi] at hitem
      rw [modifyAt_missing hi, modifyAt_missing hitem, Option.map_map]
      refine .trans ?_ (congrArg (Option.map _) (ih { implicit := true, dotted } []))
      rw [Option.map_map]
      refine congrArg (Option.map · _) (funext fun inner => ?_)
      rw [Function.comp_apply, bareOf_append, bareOf_eq_map [_], List.map_singleton, Item.bare]
      rfl
    | some i =>
      rw [hi, Option.map_some] at hitem
      cases i with
      | value v =>
        rw [Item.bare] at hitem
        rw [modifyAt_value hi, modifyAt_value hitem]
        rfl
      | table h' inner =>
        rw [Item.bare] at hitem
        rw [modifyAt_table hi, modifyAt_table hitem, ← ih h' inner]
        have himplicit : h'.bare.implicit = h'.implicit := rfl
        rw [himplicit]
        by_cases hguard : (dotted && !h'.implicit) = true
        · rw [if_pos hguard, if_pos hguard]
          rfl
        rw [if_neg hguard, if_neg hguard, Option.map_map, Option.map_map]
        refine congrArg (Option.map · _) (funext fun inner' => ?_)
        rw [Function.comp_apply, bareOf_replace, Item.bare]
        rfl
      | tables ts =>
        rw [Item.bare] at hitem
        rw [modifyAt_tables hi, modifyAt_tables hitem, bareEach_eq_map, List.getLast?_map]
        cases ts.getLast? with
        | none => rfl
        | some t =>
          rw [Option.map_some, Option.bind_some, Option.bind_some, ← ih t.1 t.2, Option.map_map,
            Option.map_map]
          refine congrArg (Option.map · _) (funext fun inner' => ?_)
          rw [Function.comp_apply, bareOf_replace, Item.bare, bareEach_eq_map, List.map_append,
            List.map_dropLast]
          rfl

theorem bareOf_setPair (es : Entries) (path : List Key) (v : Value) :
    (es.setPair path v).map bareOf = Entries.setPair (bareOf es) (path.map Key.bare) v.bare := by
  unfold Entries.setPair
  rw [List.getLast?_map]
  cases path.getLast? with
  | none => rfl
  | some k =>
    show Option.map bareOf (modifyAt _ _ _ _ _) = modifyAt _ _ _ _ _
    rw [List.length_map, ← List.map_dropLast]
    refine bareOf_modifyAt (fun h inner => ?_) path.dropLast {} es
    by_cases hdotted : (h.dotted != decide (1 < path.length)) = true
    · rw [if_pos hdotted]
      exact (if_pos hdotted).symm
    · rw [if_neg hdotted, bareOf_add, Item.bare]
      exact (if_neg hdotted).symm

end Entries

/-! ## Opening and closing tables -/

namespace Assembly

/-- Puts a table under a key, or at the end of the array there. -/
def place (inArray : Bool) (k : Key) (head : Head) (inner es : Entries) : Option Entries :=
  if inArray then
    match es.item? k.name with
    | none => some (es ++ [(k, .tables [(head, inner)])])
    | some (.tables ts) => some (es.replace k.name (.tables (ts ++ [(head, inner)])))
    | some _ => none
  else es.add k (.table head inner)

/-- Takes the implicit table of a name out of some entries, if it may be opened. -/
def takeOut (k : Key) (es : Entries) : Option Entries :=
  match es.item? k.name with
  | none => some es
  | some (.table h _) => if h.implicit && !h.dotted then some (es.without k.name) else none
  | some _ => none

/-- Puts a table where its header says. -/
def placeAt (inArray : Bool) (path : List Key) (head : Head) (inner root : Entries) :
    Option Entries := do
  let k ← path.getLast?
  Entries.modifyAt false (fun _ es => place inArray k head inner es) path.dropLast {} root

theorem close_opened {a : Assembly} {inArray : Bool} {path : List Key} {decor : Decor}
    (h : a.opened = some (inArray, path, decor)) :
    a.close =
      placeAt inArray path { decor := some decor, position := some a.headers } a.current a.root := by
  unfold close
  rw [h]
  rfl

theorem openTable_eq (root : Entries) (path : List Key) :
    openTable root path = path.getLast?.bind fun k =>
      (Entries.modifyAt false (fun _ es => takeOut k es) path.dropLast {} root).map fun taken =>
        (taken, openTable.contents path root) := by
  unfold openTable
  cases path.getLast? with
  | none => rfl
  | some k =>
    rw [Option.bind_some, Option.map_eq_bind]
    rfl

open Entries

theorem bareOf_place (inArray : Bool) (k : Key) (head : Head) (inner es : Entries) :
    (place inArray k head inner es).map bareOf =
      place inArray k.bare head.bare (bareOf inner) (bareOf es) := by
  cases inArray with
  | false =>
    show (es.add k _).map bareOf = Entries.add _ _ _
    rw [bareOf_add, Item.bare]
  | true =>
    have hitem : Entries.item? (bareOf es) k.bare.name = _ := item?_bareOf es k.name
    unfold place
    rw [if_pos rfl, if_pos rfl, hitem]
    match es.item? k.name with
    | none =>
      show some (bareOf (es ++ _)) = some _
      rw [bareOf_append, bareOf_eq_map [_], List.map_singleton]
      simp only [Item.bare, bareEach]
    | some (.value v) => simp [Item.bare]
    | some (.table h inner) => simp [Item.bare]
    | some (.tables ts) =>
      simp [Item.bare, bareOf_replace, bareEach_eq_map]

theorem bareOf_takeOut (k : Key) (es : Entries) :
    (takeOut k es).map bareOf = takeOut k.bare (bareOf es) := by
  have hitem : Entries.item? (bareOf es) k.bare.name = _ := item?_bareOf es k.name
  unfold takeOut
  rw [hitem]
  match es.item? k.name with
  | none => rfl
  | some (.value v) => simp [Item.bare]
  | some (.table h inner) =>
    rw [Option.map_some, Item.bare]
    show Option.map bareOf (if h.implicit && !h.dotted then _ else _) =
      if h.implicit && !h.dotted then _ else _
    by_cases hopen : (h.implicit && !h.dotted) = true
    · rw [if_pos hopen, if_pos hopen, Option.map_some, bareOf_without]
      rfl
    · rw [if_neg hopen, if_neg hopen]
      rfl
  | some (.tables ts) => simp [Item.bare]

theorem bareOf_contents (path : List Key) (es : Entries) :
    bareOf (openTable.contents path es) =
      openTable.contents (path.map Key.bare) (bareOf es) := by
  induction path generalizing es with
  | nil => rfl
  | cons k ks ih =>
    have hitem : Entries.item? (bareOf es) k.bare.name = _ := item?_bareOf es k.name
    rw [List.map_cons, openTable.contents, openTable.contents, hitem]
    match es.item? k.name with
    | none => simp [bareOf]
    | some (.value v) => simp [Item.bare, bareOf]
    | some (.table h inner) =>
      rw [Option.map_some, Item.bare]
      exact ih inner
    | some (.tables ts) =>
      rw [Option.map_some, Item.bare, bareEach_eq_map]
      simp only [List.getLast?_map]
      cases ts.getLast? with
      | none => simp [bareOf]
      | some t => exact ih t.2

theorem bareOf_placeAt (inArray : Bool) (path : List Key) (head : Head) (inner root : Entries) :
    (placeAt inArray path head inner root).map bareOf =
      placeAt inArray (path.map Key.bare) head.bare (bareOf inner) (bareOf root) := by
  unfold placeAt
  rw [List.getLast?_map]
  cases path.getLast? with
  | none => rfl
  | some k =>
    show Option.map bareOf (modifyAt _ _ _ _ _) = modifyAt _ _ _ _ _
    rw [← List.map_dropLast]
    exact bareOf_modifyAt (fun _ es => bareOf_place inArray k head inner es) path.dropLast {} root

theorem bareOf_openTable (root : Entries) (path : List Key) :
    (openTable root path).map (fun r => (bareOf r.1, bareOf r.2)) =
      openTable (bareOf root) (path.map Key.bare) := by
  rw [openTable_eq, openTable_eq, List.getLast?_map]
  cases path.getLast? with
  | none => rfl
  | some k =>
    rw [Option.bind_some, Option.map_some, Option.bind_some, Option.map_map, ← List.map_dropLast]
    have hwalk : (modifyAt false (fun _ es => takeOut k es) path.dropLast {} root).map bareOf =
        modifyAt false (fun _ es => takeOut k.bare es) (path.dropLast.map Key.bare) {}
          (bareOf root) :=
      bareOf_modifyAt (fun _ es => bareOf_takeOut k es) path.dropLast {} root
    rw [← hwalk, ← bareOf_contents, Option.map_map]
    rfl

/-! ## Assembling without layout -/

/-- Closes a table without layout. -/
def finish (opened : Option (Bool × List Key)) (current root : Entries) : Option Entries :=
  match opened with
  | none => some current
  | some (inArray, path) => placeAt inArray path {} current root

/-- Takes statements in and closes the last table, without layout. -/
def run (opened : Option (Bool × List Key)) (current root : Entries) :
    List Statement → Option Entries
  | [] => finish opened current root
  | .pair path v :: ss => do run opened (← current.setPair path v) root ss
  | .header inArray path _ :: ss => do
    let root ← finish opened current root
    if inArray then run (some (true, path)) [] root ss
    else
      let (root, current) ← openTable root path
      run (some (false, path)) current root ss

/-- The header of the open table without layout. -/
def header? (a : Assembly) : Option (Bool × List Key) :=
  a.opened.map fun o => (o.1, o.2.1.map Key.bare)

theorem bareOf_close (a : Assembly) :
    a.close.map bareOf = finish a.header? (bareOf a.current) (bareOf a.root) := by
  unfold header?
  cases h : a.opened with
  | none =>
    unfold close
    rw [h]
    rfl
  | some o =>
    obtain ⟨inArray, path, decor⟩ := o
    rw [close_opened h, bareOf_placeAt]
    rfl

theorem bareOf_foldlM_step (ss : List Statement) (a : Assembly) :
    ((ss.foldlM step a).bind close).map bareOf =
      run a.header? (bareOf a.current) (bareOf a.root) (ss.map Statement.bare) := by
  induction ss generalizing a with
  | nil => exact bareOf_close a
  | cons s ss ih =>
    rw [List.foldlM_cons, List.map_cons]
    cases s with
    | pair path v =>
      have hset := bareOf_setPair a.current path v
      rw [Statement.bare, run, ← hset]
      cases hpair : a.current.setPair path v with
      | none => simp [step, hpair]
      | some current =>
        have hstep : step a (.pair path v) = some { a with current } := by simp [step, hpair]
        rw [hstep]
        exact ih { a with current }
    | header inArray path decor =>
      have hclose := bareOf_close a
      rw [Statement.bare, run, ← hclose]
      cases hroot : a.close with
      | none => simp [step, hroot]
      | some root =>
        cases inArray with
        | true =>
          have hstep : step a (.header true path decor) =
              some ⟨root, [], some (true, path, decor), a.headers + 1⟩ := by
            simp [step, hroot]
          rw [hstep]
          have hmore := ih ⟨root, [], some (true, path, decor), a.headers + 1⟩
          rw [bareOf] at hmore
          exact hmore
        | false =>
          have hopen := bareOf_openTable root path
          simp only [Option.map_some, Option.bind_eq_bind, Option.bind_some]
          rw [if_neg Bool.false_ne_true, ← hopen]
          cases htable : openTable root path with
          | none => simp [step, hroot, htable]
          | some r =>
            have hstep : step a (.header false path decor) =
                some ⟨r.1, r.2, some (false, path, decor), a.headers + 1⟩ := by
              simp [step, hroot, htable]
            rw [hstep]
            exact ih _

/-- **The layout does not matter** for what statements make. -/
theorem bareOf_ofStatements (ss : List Statement) (trailing : String) :
    (ofStatements ss trailing).map (fun d => bareOf d.entries) =
      run none [] [] (ss.map Statement.bare) := by
  rw [show run none [] [] (ss.map Statement.bare) = _ from (bareOf_foldlM_step ss {}).symm]
  unfold ofStatements
  cases ss.foldlM step {} with
  | none => rfl
  | some a => cases hclose : a.close <;> simp [hclose]

end Assembly

end ExportDesk.Toml
