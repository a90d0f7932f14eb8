import ExportDesk.Proofs.Toml.Bare

/-!
# The tables at the top are made apart from each other

A statement reads and changes nothing at the top but what its path begins with: `ActsOn`. So what
the statements of some names make is the same whether or not others stand between them.
-/

namespace ExportDesk.Toml

namespace Entries

/-! ## The entries of some names -/

/-- The entries whose names are of a kind. -/
def only (p : String → Bool) (es : Entries) : Entries :=
  List.filter (fun e : Key × Item => p e.1.name) es

variable {p : String → Bool} {es : Entries} {name : String}

@[simp] theorem only_nil (p : String → Bool) : Entries.only p [] = [] := rfl

theorem only_append (es fs : Entries) :
    Entries.only p (es ++ fs) = Entries.only p es ++ Entries.only p fs :=
  List.filter_append es fs

theorem only_singleton (k : Key) (i : Item) :
    Entries.only p [(k, i)] = if p k.name then [(k, i)] else [] := by
  unfold only
  rw [List.filter_singleton]
  cases p k.name <;> rfl

theorem item?_only (hp : p name = true) : (es.only p).item? name = es.item? name := by
  induction es with
  | nil => rfl
  | cons e es ih =>
    have hcons : Entries.only p (e :: es) =
        if p e.1.name then e :: Entries.only p es else Entries.only p es := List.filter_cons
    rw [hcons, item?_cons]
    by_cases hname : e.1.name = name
    · rw [hname, if_pos hp, item?_cons, if_pos hname, if_pos rfl]
    · rw [if_neg hname]
      split
      · rw [item?_cons, if_neg hname, ih]
      · exact ih

theorem has_only (hp : p name = true) : (es.only p).has name = es.has name := by
  rw [Bool.eq_iff_iff]
  unfold only Entries.has
  rw [List.any_eq_true, List.any_eq_true]
  constructor
  · rintro ⟨e, he, hname⟩
    exact ⟨e, (List.mem_filter.1 he).1, hname⟩
  · rintro ⟨e, he, hname⟩
    exact ⟨e, List.mem_filter.2 ⟨he, by rwa [beq_iff_eq.1 hname]⟩, hname⟩

theorem only_replace (i : Item) : (es.replace name i).only p = (es.only p).replace name i := by
  unfold only replace
  rw [List.filter_map]
  refine congrArg (List.map _) (List.filter_congr fun e _ => ?_)
  rw [Function.comp_apply]
  split <;> rfl

theorem replace_of_not_has (hname : es.has name = false) (i : Item) :
    es.replace name i = es := by
  unfold replace
  refine (List.map_congr_left fun e he => ?_).trans (List.map_id es)
  have hne : (e.1.name == name) = false :=
    Bool.eq_false_iff.2 fun heq => by
      rw [Entries.has, List.any_eq_false] at hname
      exact hname e he heq
  rw [hne]
  rfl

theorem has_only_of_not (hp : p name = false) : (es.only p).has name = false := by
  unfold only Entries.has
  rw [List.any_eq_false]
  intro e he heq
  have hpe := (List.mem_filter.1 he).2
  rw [beq_iff_eq.1 heq, hp] at hpe
  cases hpe

theorem only_replace_of_not (hp : p name = false) (i : Item) :
    (es.replace name i).only p = es.only p := by
  rw [only_replace, replace_of_not_has (has_only_of_not hp)]

theorem only_without : (es.without name).only p = (es.only p).without name := by
  unfold only without
  rw [List.filter_filter, List.filter_filter]
  exact List.filter_congr fun e _ => Bool.and_comm _ _

theorem only_without_of_not (hp : p name = false) : (es.without name).only p = es.only p := by
  unfold only without
  rw [List.filter_filter]
  refine List.filter_congr fun e _ => ?_
  by_cases heq : e.1.name = name
  · rw [heq, hp]
    rfl
  · have : (e.1.name != name) = true := bne_iff_ne.2 heq
    rw [this, Bool.and_true]

end Entries

/-! ## Acting on one name -/

open Entries

/-- The change reads and changes the entries of one name only. -/
structure ActsOn (name : String) (f : Entries → Option Entries) : Prop where
  inside : ∀ p es, p name = true → (f es).map (Entries.only p) = f (Entries.only p es)
  outside : ∀ p es es', p name = false → f es = some es' →
    Entries.only p es' = Entries.only p es

theorem actsOn_none (name : String) : ActsOn name fun _ => none :=
  ⟨fun _ _ _ => rfl, nofun⟩

theorem actsOn_add (k : Key) (i : Item) : ActsOn k.name fun es => es.add k i := by
  constructor
  · intro p es hp
    unfold Entries.add
    rw [has_only hp]
    split
    · rfl
    · rw [Option.map_some, only_append, only_singleton, if_pos hp]
  · intro p es es' hp hadd
    unfold Entries.add at hadd
    split at hadd
    · cases hadd
    · cases hadd
      rw [only_append, only_singleton, hp, if_neg Bool.false_ne_true, List.append_nil]

theorem actsOn_modifyAt (dotted : Bool) (change : Head → Entries → Option Entries) (k : Key)
    (ks : List Key) (h : Head) :
    ActsOn k.name fun es => modifyAt dotted change (k :: ks) h es := by
  constructor
  · intro p es hp
    have hitem : (Entries.only p es).item? k.name = _ := item?_only hp
    cases hi : es.item? k.name with
    | none =>
      rw [modifyAt_missing hi, modifyAt_missing (hitem.trans hi), Option.map_map]
      refine congrArg (fun f => Option.map f _) (funext fun inner => ?_)
      rw [Function.comp_apply, only_append, only_singleton, if_pos hp]
    | some i =>
      cases i with
      | value v => rw [modifyAt_value hi, modifyAt_value (hitem.trans hi)]; rfl
      | table h' inner =>
        rw [modifyAt_table hi, modifyAt_table (hitem.trans hi)]
        split
        · rfl
        rw [Option.map_map]
        refine congrArg (fun f => Option.map f _) (funext fun inner' => ?_)
        rw [Function.comp_apply, only_replace]
      | tables ts =>
        rw [modifyAt_tables hi, modifyAt_tables (hitem.trans hi)]
        cases ts.getLast? with
        | none => rfl
        | some t =>
          rw [Option.bind_some, Option.bind_some, Option.map_map]
          refine congrArg (fun f => Option.map f _) (funext fun inner' => ?_)
          rw [Function.comp_apply, only_replace]
  · intro p es es' hp hrun
    cases walked_of_modifyAt hrun with
    | made => rw [only_append, only_singleton, hp, if_neg Bool.false_ne_true, List.append_nil]
    | table => exact only_replace_of_not hp _
    | tables => exact only_replace_of_not hp _

namespace Assembly

theorem actsOn_place (inArray : Bool) (k : Key) (head : Head) (inner : Entries) :
    ActsOn k.name (place inArray k head inner) := by
  cases inArray with
  | false => exact actsOn_add k (.table head inner)
  | true =>
    constructor
    · intro p es hp
      unfold place
      rw [if_pos rfl, if_pos rfl, item?_only hp]
      match es.item? k.name with
      | none =>
        show some (Entries.only p (es ++ _)) = some _
        rw [only_append, only_singleton, if_pos hp]
      | some (.value v) => rfl
      | some (.table h inner') => rfl
      | some (.tables ts) => exact congrArg some (only_replace _)
    · intro p es es' hp hplace
      unfold place at hplace
      rw [if_pos rfl] at hplace
      split at hplace
      · cases hplace
        rw [only_append, only_singleton, hp, if_neg Bool.false_ne_true, List.append_nil]
      · cases hplace
        exact only_replace_of_not hp _
      · cases hplace

theorem actsOn_takeOut (k : Key) : ActsOn k.name (takeOut k) := by
  constructor
  · intro p es hp
    unfold takeOut
    rw [item?_only hp]
    match es.item? k.name with
    | none => rfl
    | some (.value v) => rfl
    | some (.table h inner) =>
      show Option.map _ (if _ then _ else _) = if _ then _ else _
      split
      · exact congrArg some only_without
      · rfl
    | some (.tables ts) => rfl
  · intro p es es' hp htake
    unfold takeOut at htake
    split at htake
    · cases htake
      rfl
    · split at htake
      · cases htake
        exact only_without_of_not hp
      · cases htake
    · cases htake

/-- The name that a path begins with. -/
def pathName : List Key → String
  | [] => ""
  | k :: _ => k.name

/-- A change at the end of a path acts on the name that the path begins with. -/
theorem actsOn_walk {change : Key → Entries → Option Entries}
    (hchange : ∀ k, ActsOn k.name (change k)) (path : List Key) :
    ActsOn (pathName path) fun es => path.getLast?.bind fun k =>
      modifyAt false (fun _ es => change k es) path.dropLast {} es := by
  match path with
  | [] => exact actsOn_none _
  | [k] => exact hchange k
  | k :: k' :: ks =>
    rw [List.getLast?_eq_some_getLast (List.cons_ne_nil _ _)]
    exact actsOn_modifyAt _ _ k _ {}

theorem actsOn_setPair (path : List Key) (v : Value) :
    ActsOn (pathName path) fun es => es.setPair path v := by
  match path with
  | [] => exact actsOn_none _
  | [k] => exact actsOn_add k (.value v)
  | k :: k' :: ks =>
    unfold Entries.setPair
    rw [List.getLast?_eq_some_getLast (List.cons_ne_nil _ _)]
    exact actsOn_modifyAt _ _ k _ {}

theorem actsOn_placeAt (inArray : Bool) (path : List Key) (head : Head) (inner : Entries) :
    ActsOn (pathName path) (placeAt inArray path head inner) :=
  actsOn_walk (fun k => actsOn_place inArray k head inner) path

theorem contents_only {p : String → Bool} {path : List Key} (hp : p (pathName path) = true)
    (hne : path ≠ []) (es : Entries) :
    openTable.contents path (Entries.only p es) = openTable.contents path es := by
  cases path with
  | nil => exact absurd rfl hne
  | cons k ks =>
    rw [openTable.contents, openTable.contents]
    have hitem : (Entries.only p es).item? k.name = _ := item?_only hp
    rw [hitem]

/-! ## Blocks -/

/-- A header with the pairs below it. -/
structure Block where
  inArray : Bool
  path : List Key
  pairs : List (List Key × Value)

/-- The statements of pairs. -/
def pairsOf (pairs : List (List Key × Value)) : List Statement :=
  pairs.map fun p => .pair p.1 p.2

/-- The statements of a block. -/
def Block.statements (b : Block) : List Statement :=
  .header b.inArray b.path ⟨"", ""⟩ :: pairsOf b.pairs

/-- The entries with the values of some pairs set. -/
def setPairs (es : Entries) (pairs : List (List Key × Value)) : Option Entries :=
  pairs.foldlM (fun es p => es.setPair p.1 p.2) es

/-- Opens the table of a block: what is left of the others, and what is in it already. -/
def Block.begin (b : Block) (root : Entries) : Option (Entries × Entries) :=
  if b.inArray then some (root, []) else openTable root b.path

/-- The entries with the table of a block. -/
def Block.act (b : Block) (root : Entries) : Option Entries :=
  (b.begin root).bind fun r => (setPairs r.2 b.pairs).bind fun inner =>
    placeAt b.inArray b.path {} inner r.1

theorem run_pairs (opened : Option (Bool × List Key)) (current root : Entries)
    (pairs : List (List Key × Value)) (ss : List Statement) :
    run opened current root (pairsOf pairs ++ ss) =
      (setPairs current pairs).bind fun current => run opened current root ss := by
  induction pairs generalizing current with
  | nil => rfl
  | cons p pairs ih =>
    show Option.bind _ _ = _
    unfold setPairs
    rw [List.foldlM_cons]
    cases current.setPair p.1 p.2 with
    | none => rfl
    | some current' => exact ih current'

/-- Blocks act one after another. -/
theorem run_blocks (blocks : List Block) (opened : Option (Bool × List Key))
    (current root : Entries) :
    run opened current root (blocks.flatMap Block.statements) =
      (finish opened current root).bind fun root => blocks.foldlM (fun es b => b.act es) root := by
  induction blocks generalizing opened current root with
  | nil =>
    show finish opened current root = _
    cases finish opened current root <;> rfl
  | cons b blocks ih =>
    obtain ⟨inArray, path, pairs⟩ := b
    rw [List.flatMap_cons, Block.statements, List.cons_append, run]
    refine congrArg (Option.bind _) (funext fun root => ?_)
    rw [List.foldlM_cons]
    cases inArray with
    | true =>
      rw [if_pos rfl, run_pairs]
      show _ = Option.bind (Option.bind (setPairs [] pairs) _) _
      rw [Option.bind_assoc]
      exact congrArg (Option.bind _) (funext fun inner => ih _ _ _)
    | false =>
      rw [if_neg Bool.false_ne_true]
      show _ = Option.bind (Option.bind _ _) _
      rw [Option.bind_assoc]
      refine congrArg (Option.bind _) (funext fun r => ?_)
      simp only
      rw [run_pairs, Option.bind_assoc]
      exact congrArg (Option.bind _) (funext fun inner => ih _ _ _)

theorem begin_only {b : Block} {p : String → Bool} (hp : p (pathName b.path) = true)
    (hne : b.path ≠ []) (root : Entries) :
    (b.begin root).map (fun r => (Entries.only p r.1, r.2)) = b.begin (Entries.only p root) := by
  unfold Block.begin
  cases b.inArray with
  | true => rfl
  | false =>
    have htake := (actsOn_walk actsOn_takeOut b.path).inside p root hp
    rw [if_neg Bool.false_ne_true, if_neg Bool.false_ne_true, openTable_eq, openTable_eq,
      contents_only hp hne]
    cases hlast : b.path.getLast? with
    | none => rfl
    | some k =>
      rw [hlast] at htake
      simp only [Option.bind_some] at htake ⊢
      rw [← htake]
      cases modifyAt false (fun _ es => takeOut k es) b.path.dropLast {} root <;> rfl

theorem begin_outside {b : Block} {p : String → Bool} (hp : p (pathName b.path) = false)
    {root : Entries} {r : Entries × Entries} (h : b.begin root = some r) :
    Entries.only p r.1 = Entries.only p root := by
  unfold Block.begin at h
  split at h
  · cases h
    rfl
  · rw [openTable_eq] at h
    obtain ⟨k, hlast, h⟩ := Option.bind_eq_some_iff.1 h
    obtain ⟨taken, htake, rfl⟩ := Option.map_eq_some_iff.1 h
    refine (actsOn_walk actsOn_takeOut b.path).outside p root taken hp ?_
    rw [hlast]
    exact htake

theorem Block.actsOn (b : Block) : ActsOn (pathName b.path) b.act := by
  by_cases hne : b.path = []
  · have hnone : b.act = fun _ => none := by
      funext root
      unfold Block.act
      rw [hne]
      cases b.begin root with
      | none => rfl
      | some r => cases setPairs r.2 b.pairs <;> simp [placeAt]
    rw [hnone]
    exact actsOn_none _
  constructor
  · intro p es hp
    unfold Block.act
    rw [← begin_only hp hne]
    cases b.begin es with
    | none => rfl
    | some r =>
      rw [Option.map_some, Option.bind_some, Option.bind_some]
      cases setPairs r.2 b.pairs with
      | none => rfl
      | some inner => exact (actsOn_placeAt b.inArray b.path {} inner).inside p r.1 hp
  · intro p es es' hp hact
    obtain ⟨r, hbegin, hact⟩ := Option.bind_eq_some_iff.1 hact
    obtain ⟨inner, -, hplace⟩ := Option.bind_eq_some_iff.1 hact
    rw [(actsOn_placeAt b.inArray b.path {} inner).outside p r.1 es' hp hplace]
    exact begin_outside hp hbegin

/-! ## Many actions -/

section

variable {α : Type} {name : α → String} {act : α → Entries → Option Entries}
variable {p : String → Bool} {as : List α} {es es' : Entries}

/-- Actions on names of a kind need nothing but the entries of these names. -/
theorem foldlM_inside (hact : ∀ a, ActsOn (name a) (act a)) (hp : ∀ a ∈ as, p (name a) = true)
    (es : Entries) :
    (as.foldlM (fun es a => act a es) es).map (Entries.only p) =
      as.foldlM (fun es a => act a es) (Entries.only p es) := by
  induction as generalizing es with
  | nil => rfl
  | cons a as ih =>
    obtain ⟨hpa, hp⟩ := List.forall_mem_cons.1 hp
    rw [List.foldlM_cons, List.foldlM_cons, ← (hact a).inside p es hpa]
    cases act a es with
    | none => rfl
    | some es' => exact ih hp es'

/-- Actions on other names change nothing. -/
theorem foldlM_outside (hact : ∀ a, ActsOn (name a) (act a)) (hp : ∀ a ∈ as, p (name a) = false)
    (h : as.foldlM (fun es a => act a es) es = some es') :
    Entries.only p es' = Entries.only p es := by
  induction as generalizing es with
  | nil =>
    cases h
    rfl
  | cons a as ih =>
    obtain ⟨hpa, hp⟩ := List.forall_mem_cons.1 hp
    rw [List.foldlM_cons] at h
    obtain ⟨es₁, ha, hrest⟩ := Option.bind_eq_some_iff.1 h
    rw [ih hp hrest, (hact a).outside p es es₁ hpa ha]

/-- Without the actions on other names, the rest makes the same. -/
theorem foldlM_filter (hact : ∀ a, ActsOn (name a) (act a))
    (h : as.foldlM (fun es a => act a es) es = some es') :
    (as.filter fun a => p (name a)).foldlM (fun es a => act a es) (Entries.only p es) =
      some (Entries.only p es') := by
  induction as generalizing es with
  | nil =>
    cases h
    rfl
  | cons a as ih =>
    rw [List.foldlM_cons] at h
    obtain ⟨es₁, ha, hrest⟩ := Option.bind_eq_some_iff.1 h
    have ih := ih hrest
    rw [List.filter_cons]
    cases hpa : p (name a) with
    | true =>
      rw [if_pos rfl, List.foldlM_cons, ← (hact a).inside p es hpa, ha]
      exact ih
    | false =>
      rw [if_neg Bool.false_ne_true, ← (hact a).outside p es es₁ hpa ha]
      exact ih

/-- **One table in the place of another.** Where the actions on one name are left out and a single
new one is put somewhere among the rest, the other entries are made as before, and the new one next
to them. -/
theorem foldlM_instead (hact : ∀ a, ActsOn (name a) (act a)) {target : String} {bs cs : List α}
    {b : α} {k : Key} {i : Item} (hkey : k.name = target)
    (hnew : ∀ es : Entries, es.has target = false → act b es = some (es ++ [(k, i)]))
    (hrest : as.filter (fun a => name a != target) = bs ++ cs)
    (h : as.foldlM (fun es a => act a es) [] = some es') :
    ∃ es'', (bs ++ b :: cs).foldlM (fun es a => act a es) [] = some es'' ∧
      Entries.only (· != target) es'' = Entries.only (· != target) es' ∧
      Entries.only (· == target) es'' = [(k, i)] := by
  have hother : ∀ a ∈ bs ++ cs, name a ≠ target := by
    intro a ha
    rw [← hrest] at ha
    exact bne_iff_ne.1 (List.mem_filter.1 ha).2
  have hothers (l : List α) (hl : ∀ a ∈ l, a ∈ bs ++ cs) :
      (∀ a ∈ l, (name a != target) = true) ∧ ∀ a ∈ l, (name a == target) = false :=
    ⟨fun a ha => bne_iff_ne.2 (hother a (hl a ha)),
      fun a ha => beq_eq_false_iff_ne.2 (hother a (hl a ha))⟩
  obtain ⟨hbs, hbs'⟩ := hothers bs fun a ha => List.mem_append_left cs ha
  obtain ⟨hcs, hcs'⟩ := hothers cs fun a ha => List.mem_append_right bs ha
  -- without the target's own actions, the others make their entries
  have hall := foldlM_filter (p := (· != target)) hact h
  rw [hrest, only_nil, List.foldlM_append] at hall
  obtain ⟨es₁, hfirst, hsecond⟩ := Option.bind_eq_some_iff.1 hall
  have hnone : Entries.only (· == target) es₁ = [] :=
    foldlM_outside (p := (· == target)) hact hbs' hfirst
  have hhas : es₁.has target = false := by
    rw [← has_only (p := (· == target)) (beq_self_eq_true target), hnone]
    rfl
  -- the new entry is not seen by those that follow
  have hsame : Entries.only (· != target) (es₁ ++ [(k, i)]) = Entries.only (· != target) es₁ := by
    rw [only_append, only_singleton, hkey, bne_self_eq_false, if_neg Bool.false_ne_true,
      List.append_nil]
  have hlast := foldlM_inside (p := (· != target)) hact hcs (es₁ ++ [(k, i)])
  rw [hsame, ← foldlM_inside (p := (· != target)) hact hcs es₁, hsecond] at hlast
  obtain ⟨es'', hrun, honly⟩ := Option.map_eq_some_iff.1 hlast
  refine ⟨es'', ?_, ?_, ?_⟩
  · rw [List.foldlM_append, hfirst]
    refine .trans (Option.bind_some _ _) ?_
    rw [List.foldlM_cons, hnew es₁ hhas]
    exact hrun
  · rw [honly]
    unfold Entries.only
    rw [List.filter_filter]
    simp only [Bool.and_self]
  · rw [foldlM_outside (p := (· == target)) hact hcs' hrun, only_append, hnone, only_singleton,
      hkey, beq_self_eq_true, if_pos rfl]
    rfl

end

/-- What changes the tables at the top: a pair above all headers, or a block. -/
inductive Action
  | pair (path : List Key) (v : Value)
  | block (b : Block)

/-- The name that an action acts on. -/
def Action.name : Action → String
  | .pair path _ => pathName path
  | .block b => pathName b.path

/-- What an action does. -/
def Action.act : Action → Entries → Option Entries
  | .pair path v, es => es.setPair path v
  | .block b, es => b.act es

theorem Action.actsOn : ∀ a : Action, ActsOn a.name a.act
  | .pair path v => actsOn_setPair path v
  | .block b => b.actsOn

/-- A whole text acts pair by pair and block by block. -/
theorem run_actions (pairs : List (List Key × Value)) (blocks : List Block) :
    run none [] [] (pairsOf pairs ++ blocks.flatMap Block.statements) =
      (pairs.map (fun p => Action.pair p.1 p.2) ++ blocks.map Action.block).foldlM
        (fun es a => a.act es) [] := by
  rw [run_pairs, List.foldlM_append, List.foldlM_map]
  refine congrArg (Option.bind _) (funext fun es => ?_)
  rw [run_blocks, List.foldlM_map]
  exact Option.bind_some _ _

end Assembly

end ExportDesk.Toml
