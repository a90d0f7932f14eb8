import ExportDesk.Proofs.Toml.Bare
import ExportDesk.Proofs.Toml.Keys
import ExportDesk.Toml.Plain

/-!
# Both readers agree

`Plain.read_eq`: the reader that only gives values takes the same texts as the one that gives
documents, and its values are those of the document. Tables are put together alike, entry by entry
(`plainOf`) and statement by statement (`making_step`); a text is taken apart alike, value by value
(`Agrees`) and line by line (`statements_eq`).
-/

namespace ExportDesk.Toml

open Plain (Origin Making)

/-! ## Keeping the values -/

/-- How a table came about, of all that its head says. -/
def Head.origin (h : Head) : Origin := { implicit := h.implicit, dotted := h.dotted }

/-- The names of a path. -/
def namesOf (path : List Key) : List String := path.map (·.name)

mutual

/-- The item with nothing but its values. -/
def Item.plain : Item → Plain.Item
  | .value v => .value v.datum
  | .table h es => .table h.origin (plainOf es)
  | .tables ts => .tables (plainEach ts)

/-- The entries with nothing but names and values. -/
def plainOf : List (Key × Item) → List (String × Plain.Item)
  | [] => []
  | (k, i) :: es => (k.name, i.plain) :: plainOf es

/-- The tables of an array with nothing but names and values. -/
def plainEach : List (Head × List (Key × Item)) → List (Origin × List (String × Plain.Item))
  | [] => []
  | (h, es) :: ts => (h.origin, plainOf es) :: plainEach ts

end

/-- The statement with nothing but names and values. -/
def Statement.plain : Statement → Plain.Statement
  | .header inArray path _ => .header inArray (namesOf path)
  | .pair path v => .pair (namesOf path) v.datum

theorem plainOf_eq_map (es : Entries) : plainOf es = es.map fun e => (e.1.name, e.2.plain) := by
  induction es with
  | nil => simp [plainOf]
  | cons e es ih =>
    obtain ⟨k, i⟩ := e
    rw [plainOf, ih, List.map_cons]

theorem plainEach_eq_map (ts : List (Head × Entries)) :
    plainEach ts = ts.map fun t => (t.1.origin, plainOf t.2) := by
  induction ts with
  | nil => simp [plainEach]
  | cons t ts ih =>
    obtain ⟨h, es⟩ := t
    rw [plainEach, ih, List.map_cons]

mutual

theorem Item.datum_plain : ∀ i : Item, i.plain.datum = i.datum
  | .value v => by rw [Item.plain, Plain.Item.datum, Item.datum]
  | .table h es => by rw [Item.plain, Plain.Item.datum, Item.datum, dataOf_plainOf es]
  | .tables ts => by rw [Item.plain, Plain.Item.datum, Item.datum, dataOfEach_plainEach ts]

/-- No value is lost. -/
theorem dataOf_plainOf : ∀ es : List (Key × Item), Plain.dataOf (plainOf es) = fieldsOf es
  | [] => by rw [plainOf, Plain.dataOf, fieldsOf]
  | (k, i) :: es => by
    rw [plainOf, Plain.dataOf, fieldsOf, Item.datum_plain i, dataOf_plainOf es]

theorem dataOfEach_plainEach :
    ∀ ts : List (Head × List (Key × Item)), Plain.dataOfEach (plainEach ts) = elementsOf ts
  | [] => by rw [plainEach, Plain.dataOfEach, elementsOf]
  | (h, es) :: ts => by
    rw [plainEach, Plain.dataOfEach, elementsOf, dataOf_plainOf es, dataOfEach_plainEach ts]

end

/-! ## Looking up and changing -/

theorem namesOf_dropLast (path : List Key) : namesOf path.dropLast = (namesOf path).dropLast :=
  List.map_dropLast ..

theorem getLast?_namesOf (path : List Key) :
    (namesOf path).getLast? = path.getLast?.map (·.name) := List.getLast?_map ..

theorem length_namesOf (path : List Key) : (namesOf path).length = path.length :=
  List.length_map ..

theorem lookup_plainOf (es : Entries) (name : String) :
    (plainOf es).lookup name = (es.item? name).map Item.plain := by
  induction es with
  | nil => simp [plainOf]
  | cons e es ih =>
    obtain ⟨k, i⟩ := e
    rw [plainOf, List.lookup_cons, Entries.item?_cons, ih]
    by_cases hk : k.name = name
    · simp [hk]
    · have hne : (name == k.name) = false := beq_eq_false_iff_ne.2 (Ne.symm hk)
      simp [hk, hne]

theorem plainOf_append (es fs : Entries) : plainOf (es ++ fs) = plainOf es ++ plainOf fs := by
  simp only [plainOf_eq_map, List.map_append]

theorem plainOf_replace (es : Entries) (name : String) (i : Item) :
    plainOf (es.replace name i) = Plain.Table.replace (plainOf es) name i.plain := by
  unfold Entries.replace Plain.Table.replace
  rw [plainOf_eq_map, plainOf_eq_map, List.map_map, List.map_map]
  refine List.map_congr_left fun e _ => ?_
  by_cases h : e.1.name = name <;> simp [h]

theorem plainOf_without (es : Entries) (name : String) :
    plainOf (es.without name) = Plain.Table.without (plainOf es) name := by
  unfold Entries.without Plain.Table.without
  rw [plainOf_eq_map, plainOf_eq_map, List.filter_map]
  rfl

theorem plainOf_single (k : Key) (i : Item) : plainOf [(k, i)] = [(k.name, i.plain)] := by
  rw [plainOf, plainOf]

theorem isSome_lookup_plainOf (es : Entries) (name : String) :
    ((plainOf es).lookup name).isSome = es.has name := by
  rw [lookup_plainOf, Option.isSome_map, Entries.item?, Option.isSome_map, Entries.has,
    Bool.eq_iff_iff, List.find?_isSome, List.any_eq_true]

theorem plainOf_add (es : Entries) (k : Key) (i : Item) :
    (es.add k i).map plainOf = Plain.Table.add (plainOf es) k.name i.plain := by
  unfold Entries.add Plain.Table.add
  rw [isSome_lookup_plainOf]
  split
  · rfl
  · rw [Option.map_some, plainOf_append, plainOf_single]

namespace Plain.Table

section

variable {dotted : Bool} {change : Origin → Plain.Table → Option Plain.Table}
variable {name : String} {names : List String} {o : Origin} {t : Plain.Table}

theorem changeAt_missing (hitem : t.lookup name = none) :
    changeAt dotted change (name :: names) o t =
      (changeAt dotted change names { implicit := true, dotted } []).map fun inner =>
        t ++ [(name, .table { implicit := true, dotted } inner)] := by
  rw [changeAt, hitem]
  cases hinner : changeAt dotted change names { implicit := true, dotted } [] <;> simp [hinner]

theorem changeAt_value {d : Datum} (hitem : t.lookup name = some (.value d)) :
    changeAt dotted change (name :: names) o t = none := by
  rw [changeAt, hitem]

theorem changeAt_table {o' : Origin} {inner : Plain.Table}
    (hitem : t.lookup name = some (.table o' inner)) :
    changeAt dotted change (name :: names) o t =
      if dotted && !o'.implicit then none
      else (changeAt dotted change names o' inner).map fun inner' =>
        t.replace name (.table o' inner') := by
  rw [changeAt, hitem]
  cases hinner : changeAt dotted change names o' inner <;> simp [hinner]

theorem changeAt_tables {ts : List (Origin × Plain.Table)}
    (hitem : t.lookup name = some (.tables ts)) :
    changeAt dotted change (name :: names) o t =
      ts.getLast?.bind fun e => (changeAt dotted change names e.1 e.2).map fun inner' =>
        t.replace name (.tables (ts.dropLast ++ [(e.1, inner')])) := by
  rw [changeAt, hitem]
  cases hlast : ts.getLast? with
  | none => simp [hlast]
  | some e => cases hinner : changeAt dotted change names e.1 e.2 <;> simp [hlast, hinner]

end

end Plain.Table

open Plain.Table in
theorem plainOf_modifyAt {dotted : Bool} {change : Head → Entries → Option Entries}
    {change' : Origin → Plain.Table → Option Plain.Table}
    (hchange : ∀ h es, (change h es).map plainOf = change' h.origin (plainOf es))
    (path : List Key) (h : Head) (es : Entries) :
    (es.modifyAt dotted change path h).map plainOf =
      changeAt dotted change' (namesOf path) h.origin (plainOf es) := by
  induction path generalizing h es with
  | nil => exact hchange h es
  | cons k ks ih =>
    have hitem := lookup_plainOf es k.name
    rw [namesOf, List.map_cons, ← namesOf]
    cases hi : es.item? k.name with
    | none =>
      rw [hi] at hitem
      rw [Entries.modifyAt_missing hi, changeAt_missing hitem, Option.map_map]
      refine .trans ?_ (congrArg (Option.map _) (ih { implicit := true, dotted } []))
      rw [Option.map_map]
      refine congrArg (Option.map · _) (funext fun inner => ?_)
      rw [Function.comp_apply, plainOf_append, plainOf_single, Item.plain]
      rfl
    | some i =>
      rw [hi, Option.map_some] at hitem
      cases i with
      | value v =>
        rw [Item.plain] at hitem
        rw [Entries.modifyAt_value hi, changeAt_value hitem]
        rfl
      | table h' inner =>
        rw [Item.plain] at hitem
        rw [Entries.modifyAt_table hi, changeAt_table hitem, ← ih h' inner]
        have himplicit : h'.origin.implicit = h'.implicit := rfl
        rw [himplicit]
        by_cases hguard : (dotted && !h'.implicit) = true
        · rw [if_pos hguard, if_pos hguard]
          rfl
        rw [if_neg hguard, if_neg hguard, Option.map_map, Option.map_map]
        refine congrArg (Option.map · _) (funext fun inner' => ?_)
        rw [Function.comp_apply, plainOf_replace, Item.plain]
        rfl
      | tables ts =>
        rw [Item.plain] at hitem
        rw [Entries.modifyAt_tables hi, changeAt_tables hitem, plainEach_eq_map, List.getLast?_map]
        cases ts.getLast? with
        | none => rfl
        | some t =>
          rw [Option.map_some, Option.bind_some, Option.bind_some, ← ih t.1 t.2, Option.map_map,
            Option.map_map]
          refine congrArg (Option.map · _) (funext fun inner' => ?_)
          rw [Function.comp_apply, plainOf_replace, Item.plain, plainEach_eq_map, List.map_append,
            List.map_dropLast]
          rfl

theorem plainOf_setPair (es : Entries) (path : List Key) (v : Value) :
    (es.setPair path v).map plainOf = Plain.Table.setValue (plainOf es) (namesOf path) v.datum := by
  unfold Entries.setPair Plain.Table.setValue
  rw [getLast?_namesOf]
  cases path.getLast? with
  | none => rfl
  | some k =>
    show Option.map plainOf (Entries.modifyAt _ _ _ _ _) = Plain.Table.changeAt _ _ _ _ _
    rw [length_namesOf, ← namesOf_dropLast]
    refine plainOf_modifyAt (fun h inner => ?_) path.dropLast {} es
    by_cases hdotted : (h.dotted != decide (1 < path.length)) = true
    · rw [if_pos hdotted]
      exact (if_pos hdotted).symm
    · rw [if_neg hdotted, plainOf_add, Item.plain]
      exact (if_neg hdotted).symm

/-! ## Putting the tables together -/

theorem plainOf_place (inArray : Bool) (k : Key) (head : Head) (inner es : Entries)
    (hhead : head.origin = {}) :
    (Assembly.place inArray k head inner es).map plainOf =
      Plain.Table.place inArray k.name (plainOf inner) (plainOf es) := by
  cases inArray with
  | false =>
    show (es.add k _).map plainOf = Plain.Table.add _ _ _
    rw [plainOf_add, Item.plain, hhead]
  | true =>
    unfold Assembly.place Plain.Table.place
    rw [if_pos rfl, if_pos rfl, lookup_plainOf]
    match es.item? k.name with
    | none => simp [plainOf_append, plainOf_single, Item.plain, plainEach, hhead]
    | some (.value v) => simp [Item.plain]
    | some (.table h inner) => simp [Item.plain]
    | some (.tables ts) => simp [Item.plain, plainOf_replace, plainEach_eq_map, hhead]

theorem plainOf_takeOut (k : Key) (es : Entries) :
    (Assembly.takeOut k es).map plainOf = Plain.Table.takeOut k.name (plainOf es) := by
  unfold Assembly.takeOut Plain.Table.takeOut
  rw [lookup_plainOf]
  match es.item? k.name with
  | none => rfl
  | some (.value v) => simp [Item.plain]
  | some (.table h inner) =>
    rw [Option.map_some, Item.plain]
    show Option.map plainOf (if h.implicit && !h.dotted then _ else _) =
      if h.implicit && !h.dotted then _ else _
    by_cases hopen : (h.implicit && !h.dotted) = true
    · rw [if_pos hopen, if_pos hopen, Option.map_some, plainOf_without]
    · rw [if_neg hopen, if_neg hopen]
      rfl
  | some (.tables ts) => simp [Item.plain]

theorem plainOf_contents (path : List Key) (es : Entries) :
    plainOf (Assembly.openTable.contents path es) =
      Plain.Table.inside (namesOf path) (plainOf es) := by
  induction path generalizing es with
  | nil => rfl
  | cons k ks ih =>
    rw [namesOf, List.map_cons, ← namesOf, Assembly.openTable.contents, Plain.Table.inside,
      lookup_plainOf]
    cases es.item? k.name with
    | none => simp [plainOf]
    | some i =>
      cases i with
      | value v => simp [Item.plain, plainOf]
      | table h inner =>
        rw [Option.map_some, Item.plain]
        exact ih inner
      | tables ts =>
        rw [Option.map_some, Item.plain, plainEach_eq_map]
        simp only [List.getLast?_map]
        cases ts.getLast? with
        | none => simp [plainOf]
        | some t => exact ih t.2

/-- What is being made, with nothing but names and values. -/
def Assembly.plain (a : Assembly) : Making where
  root := plainOf a.root
  current := plainOf a.current
  opened := a.opened.map fun o => (o.1, namesOf o.2.1)

theorem Assembly.plain_close (a : Assembly) : a.plain.close = a.close.map plainOf := by
  unfold Making.close
  cases h : a.opened with
  | none =>
    have hplain : a.plain.opened = none := congrArg (Option.map _) h
    unfold Assembly.close
    rw [hplain, h]
    rfl
  | some o =>
    obtain ⟨inArray, path, decor⟩ := o
    have hplain : a.plain.opened = some (inArray, namesOf path) := congrArg (Option.map _) h
    rw [hplain, Assembly.close_opened h, Assembly.placeAt]
    show (namesOf path).getLast?.bind _ = _
    rw [getLast?_namesOf]
    cases path.getLast? with
    | none => rfl
    | some k =>
      show Plain.Table.changeAt _ _ _ _ _ = Option.map plainOf (Entries.modifyAt _ _ _ _ _)
      rw [← namesOf_dropLast]
      exact (plainOf_modifyAt
        (fun _ es => plainOf_place inArray k { decor := some decor, position := some a.headers }
          a.current es rfl)
        path.dropLast {} a.root).symm

theorem Plain.Table.openAt_eq (path : List String) (t : Plain.Table) :
    openAt path t = path.getLast?.bind fun name =>
      (changeAt false (fun _ inner => takeOut name inner) path.dropLast {} t).map fun taken =>
        (taken, inside path t) := by
  unfold openAt
  cases path.getLast? with
  | none => rfl
  | some name =>
    rw [Option.bind_some, Option.map_eq_bind]
    rfl

theorem plainOf_openTable (root : Entries) (path : List Key) :
    (Assembly.openTable root path).map (fun r => (plainOf r.1, plainOf r.2)) =
      Plain.Table.openAt (namesOf path) (plainOf root) := by
  rw [Assembly.openTable_eq, Plain.Table.openAt_eq, getLast?_namesOf]
  cases path.getLast? with
  | none => rfl
  | some k =>
    rw [Option.bind_some, Option.map_some, Option.bind_some, Option.map_map, ← namesOf_dropLast]
    have hwalk : (root.modifyAt false (fun _ es => Assembly.takeOut k es) path.dropLast {}).map
        plainOf = Plain.Table.changeAt false (fun _ t => Plain.Table.takeOut k.name t)
          (namesOf path.dropLast) {} (plainOf root) :=
      plainOf_modifyAt (fun _ es => plainOf_takeOut k es) path.dropLast {} root
    rw [← hwalk, ← plainOf_contents, Option.map_map]
    rfl

/-- **A statement is taken in alike.** -/
theorem making_step (a : Assembly) (s : Statement) :
    a.plain.step s.plain = (a.step s).map Assembly.plain := by
  cases s with
  | pair path v =>
    rw [Statement.plain, Making.step, show a.plain.current = plainOf a.current from rfl,
      ← plainOf_setPair]
    cases hpair : a.current.setPair path v with
    | none => simp [Assembly.step, hpair]
    | some current => simp [Assembly.step, hpair, Assembly.plain]
  | header inArray path decor =>
    cases inArray with
    | true =>
      rw [Statement.plain, Making.step, a.plain_close]
      cases hroot : a.close with
      | none => simp [Assembly.step, hroot]
      | some root => simp [Assembly.step, hroot, Assembly.plain, plainOf]
    | false =>
      rw [Statement.plain, Making.step, a.plain_close]
      cases hroot : a.close with
      | none => simp [Assembly.step, hroot]
      | some root =>
        simp only [Option.map_some, Option.bind_eq_bind, Option.bind_some]
        rw [← plainOf_openTable]
        cases htable : Assembly.openTable root path with
        | none => simp [Assembly.step, hroot, htable]
        | some r => simp [Assembly.step, hroot, htable, Assembly.plain]

/-- **Statements are taken in alike.** -/
theorem making_foldlM (ss : List Statement) (a : Assembly) :
    (ss.map Statement.plain).foldlM Making.step a.plain = (ss.foldlM Assembly.step a).map
      Assembly.plain := by
  induction ss generalizing a with
  | nil => rfl
  | cons s ss ih =>
    rw [List.map_cons, List.foldlM_cons, List.foldlM_cons, making_step]
    cases a.step s with
    | none => rfl
    | some a' => exact ih a'

/-! ## Taking a text apart -/

namespace Reader

theorem names_eq (lead cs : List Char) :
    Plain.names cs = (keyPath lead cs).map fun r => (namesOf r.1, r.2) := by
  unfold Plain.names keyPath
  rw [Option.map_map]
  refine congrArg (Option.map · _) (funext fun r => ?_)
  exact Prod.ext (names_framed lead r.1).symm rfl

/-- The readers agree on values, on elements and on fields. -/
structure Agrees (fuel : Nat) : Prop where
  value (depth : Nat) (cs : List Char) :
    Plain.value depth fuel cs = (Reader.value depth fuel cs).map fun r => (r.1, r.2.2)
  elements (depth : Nat) (cs : List Char) :
    Plain.elements depth fuel cs = (Reader.elements depth fuel cs).map fun r => (r.1, r.2.2)
  fields (depth : Nat) (es : Entries) (cs : List Char) :
    Plain.fields depth fuel (plainOf es) cs =
      (Reader.fields depth fuel es cs).map fun r => (plainOf r.1, r.2.2)

theorem Agrees.value_succ {fuel : Nat} (ih : Agrees fuel) (depth : Nat) (cs : List Char) :
    Plain.value depth (fuel + 1) cs =
      (Reader.value depth (fuel + 1) cs).map fun r => (r.1, r.2.2) := by
  unfold Plain.value
  split
  next rest =>
    rw [Reader.value]
    split
    · rfl
    · rw [ih.elements]
      cases Reader.elements (depth - 1) fuel rest <;> rfl
  next rest =>
    rw [Reader.value]
    split
    · rfl
    · rw [show ([] : Plain.Table) = plainOf [] by rw [plainOf], ih.fields]
      cases Reader.fields (depth - 1) fuel [] rest with
      | none => rfl
      | some r => simp [dataOf_plainOf]
  next rest =>
    rw [Reader.value]
    cases Quoted.read ('"' :: rest) <;> rfl
  next rest =>
    rw [Reader.value]
    cases Quoted.read ('\'' :: rest) <;> rfl
  · rw [Reader.value.eq_def]
    simp only
    cases Scalar.read cs <;> rfl

theorem Agrees.elements_succ {fuel : Nat} (ih : Agrees fuel) (depth : Nat) (cs : List Char) :
    Plain.elements depth (fuel + 1) cs =
      (Reader.elements depth (fuel + 1) cs).map fun r => (r.1, r.2.2) := by
  unfold Plain.elements Reader.elements
  cases trivia false cs with
  | none => rfl
  | some r =>
    obtain ⟨before, cs⟩ := r
    simp only [Option.bind_eq_bind, Option.bind_some]
    split
    · rfl
    simp only [ih.value]
    cases Reader.value depth fuel cs with
    | none => rfl
    | some r =>
      obtain ⟨d, written, cs⟩ := r
      simp only [Option.map_some, Option.bind_some]
      cases trivia false cs with
      | none => rfl
      | some r =>
        obtain ⟨after, cs⟩ := r
        simp only [Option.bind_some]
        split
        next rest =>
          simp only [ih.elements]
          cases Reader.elements depth fuel rest <;> rfl
        · rfl
        · simp only [Option.map_none]

theorem Agrees.fields_succ {fuel : Nat} (ih : Agrees fuel) (depth : Nat) (es : Entries)
    (cs : List Char) : Plain.fields depth (fuel + 1) (plainOf es) cs =
      (Reader.fields depth (fuel + 1) es cs).map fun r => (plainOf r.1, r.2.2) := by
  unfold Plain.fields Reader.fields
  cases trivia false cs with
  | none => rfl
  | some r =>
    obtain ⟨before, cs⟩ := r
    simp only [Option.bind_eq_bind, Option.bind_some]
    split
    · rfl
    simp only [names_eq []]
    cases keyPath [] cs with
    | none => rfl
    | some r =>
      obtain ⟨path, cs⟩ := r
      simp only [Option.map_some, Option.bind_some]
      split
      next rest =>
        simp only [ih.value]
        cases Reader.value depth fuel (gap rest).2 with
        | none => rfl
        | some r =>
          obtain ⟨d, written, rest⟩ := r
          have hset := plainOf_setPair es path { datum := d, written := String.ofList written }
          simp only [Option.map_some, Option.bind_some]
          rw [← hset]
          cases es.setPair path { datum := d, written := String.ofList written } with
          | none => rfl
          | some es =>
            simp only [Option.map_some, Option.bind_some]
            cases trivia false rest with
            | none => rfl
            | some r =>
              obtain ⟨after, rest⟩ := r
              simp only [Option.bind_some]
              split
              next rest =>
                simp only [ih.fields]
                cases Reader.fields depth fuel es rest <;> rfl
              · rfl
              · simp only [Option.map_none]
      · simp only [Option.map_none]

theorem agrees (fuel : Nat) : Agrees fuel := by
  induction fuel with
  | zero =>
    refine ⟨fun depth cs => ?_, fun depth cs => ?_, fun depth es cs => ?_⟩
    · rw [Plain.value, Reader.value]; rfl
    · rw [Plain.elements, Reader.elements]; rfl
    · rw [Plain.fields, Reader.fields]; rfl
  | succ fuel ih => exact ⟨ih.value_succ, ih.elements_succ, ih.fields_succ⟩

theorem header_eq (inArray : Bool) (lead cs : List Char) :
    Plain.header inArray cs = (header inArray lead cs).map fun r => (r.1.plain, r.2) := by
  unfold Plain.header header
  rw [names_eq []]
  cases keyPath [] cs with
  | none => rfl
  | some r =>
    simp only [Option.map_some, Option.bind_eq_bind, Option.bind_some]
    cases headerEnd inArray r.2 with
    | none => rfl
    | some cs =>
      simp only [Option.bind_some]
      cases lineEnd false cs <;> rfl

theorem pair_eq (lead cs : List Char) :
    Plain.pair cs = (pair lead cs).map fun r => (r.1.plain, r.2) := by
  unfold Plain.pair pair
  rw [names_eq lead]
  cases keyPath lead cs with
  | none => rfl
  | some r =>
    obtain ⟨path, cs⟩ := r
    simp only [Option.map_some, Option.bind_eq_bind, Option.bind_some]
    split
    next cs =>
      simp only [(agrees _).value]
      cases value maxDepth (2 * (gap cs).2.length + 2) (gap cs).2 with
      | none => rfl
      | some r =>
        obtain ⟨d, written, cs⟩ := r
        simp only [Option.map_some, Option.bind_some]
        cases lineEnd false cs <;> rfl
    · simp only [Option.map_none]

/-- **A text is taken apart alike.** -/
theorem statements_eq (fuel : Nat) (cs : List Char) :
    Plain.statements fuel cs = (statements fuel cs).map fun r => r.1.map Statement.plain := by
  induction fuel generalizing cs with
  | zero => rfl
  | succ fuel ih =>
    unfold Plain.statements statements
    cases trivia false cs with
    | none => rfl
    | some r =>
      obtain ⟨lead, cs⟩ := r
      have hmore (s : Option (Statement × List Char)) :
          ((s.map fun r => (r.1.plain, r.2)).bind fun r =>
            (Plain.statements fuel r.2).bind fun ss => some (r.1 :: ss)) =
          (s.bind fun r => (statements fuel r.2).bind fun ss =>
            some (r.1 :: ss.1, ss.2)).map fun r => r.1.map Statement.plain := by
        cases s with
        | none => rfl
        | some r =>
          simp only [Option.map_some, Option.bind_some, ih]
          cases statements fuel r.2 <;> rfl
      simp only [Option.bind_eq_bind, Option.bind_some]
      split
      · rfl
      split
      · simp only [header_eq true lead]
        exact hmore _
      · simp only [header_eq false lead]
        exact hmore _
      · simp only [pair_eq lead]
        exact hmore _

end Reader

/-- **Both readers agree**: a text that one takes the other takes, with the same values. -/
theorem Plain.read_eq (s : String) : Plain.read s = (Document.read s).map Document.fields := by
  unfold Plain.read Document.read Assembly.ofStatements
  simp only
  rw [Reader.statements_eq]
  cases Reader.statements ((Reader.dropMark s.toList).length + 1) (Reader.dropMark s.toList) with
  | none => rfl
  | some r =>
    have hfold := making_foldlM r.1 {}
    rw [show Assembly.plain {} = {} by simp [Assembly.plain, plainOf]] at hfold
    simp only [Option.map_some, Option.bind_eq_bind, Option.bind_some]
    rw [hfold]
    cases r.1.foldlM Assembly.step {} with
    | none => rfl
    | some a =>
      simp only [Option.map_some, Option.bind_some]
      rw [a.plain_close]
      cases a.close with
      | none => rfl
      | some es => exact congrArg some (dataOf_plainOf es)

end ExportDesk.Toml
