import ExportDesk.Toml.Document

/-!
# Assembling tables

A text gives a document as a sequence of statements: headers that open a table, and pairs that set
a value in the open one. No key may be set twice and no table opened twice; a table that only came
about because a path ran through it may still be opened once.
-/

namespace ExportDesk.Toml

/-- One statement of a document. -/
inductive Statement where
  /-- opens a table, or a further element of an array of tables -/
  | header (inArray : Bool) (path : List Key) (decor : Decor)
  /-- sets a value -/
  | pair (path : List Key) (value : Value)
deriving Inhabited

namespace Entries

/-- The entries without the one of this name. -/
def without (es : Entries) (name : String) : Entries :=
  List.filter (fun e : Key × Item => e.1.name != name) es

/-- Walks down a path and changes the table at its end. Missing tables on the way are made,
`dotted` if the path is that of a pair. A value in the way ends the walk, as does a table with a
header of its own if the path is that of a pair; an array of tables is entered at its last
element. -/
def modifyAt (dotted : Bool) (change : Head → Entries → Option Entries) :
    List Key → Head → Entries → Option Entries
  | [], h, es => change h es
  | k :: ks, _, es =>
    match es.item? k.name with
    | none => do
      let h : Head := { implicit := true, dotted }
      return es ++ [(k, .table h (← modifyAt dotted change ks h []))]
    | some (.value _) => none
    | some (.table h inner) => do
      if dotted && !h.implicit then none
      else return es.replace k.name (.table h (← modifyAt dotted change ks h inner))
    | some (.tables ts) => do
      let (h, inner) ← ts.getLast?
      return es.replace k.name (.tables (ts.dropLast ++ [(h, ← modifyAt dotted change ks h inner)]))

/-- Adds an entry whose name is not taken. -/
def add (es : Entries) (k : Key) (i : Item) : Option Entries :=
  if es.has k.name then none else some (es ++ [(k, i)])

/-- Sets the value of a pair in the open table. -/
def setPair (es : Entries) (path : List Key) (v : Value) : Option Entries := do
  let k ← path.getLast?
  let dotted : Bool := decide (1 < path.length)
  modifyAt dotted (fun h inner => if h.dotted != dotted then none else inner.add k (.value v))
    path.dropLast {} es

end Entries

/-- A document in the making: the tables closed so far, and the open one with its header. -/
structure Assembly where
  root : Entries := []
  current : Entries := []
  /-- the header of the open table: whether it is an array's, its path and what surrounds it -/
  opened : Option (Bool × List Key × Decor) := none
  headers : Nat := 0
deriving Inhabited

namespace Assembly

/-- Closes the open table and puts it where its header says. -/
def close (a : Assembly) : Option Entries :=
  match a.opened with
  | none => some a.current
  | some (inArray, path, decor) => do
    let k ← path.getLast?
    let head : Head := { decor := some decor, position := some a.headers }
    Entries.modifyAt false
      (fun _ es =>
        if inArray then
          match es.item? k.name with
          | none => some (es ++ [(k, .tables [(head, a.current)])])
          | some (.tables ts) => some (es.replace k.name (.tables (ts ++ [(head, a.current)])))
          | some _ => none
        else es.add k (.table head a.current))
      path.dropLast {} a.root

/-- Opens a table. What an implicit table of that name held already becomes the start of it. -/
def openTable (root : Entries) (path : List Key) : Option (Entries × Entries) := do
  let k ← path.getLast?
  -- the walk that takes the implicit table out, and the one that looks at it
  let taken ← Entries.modifyAt false
    (fun _ es =>
      match es.item? k.name with
      | none => some es
      | some (.table h _) => if h.implicit && !h.dotted then some (es.without k.name) else none
      | some _ => none)
    path.dropLast {} root
  return (taken, contents path root)
where
  /-- The entries of the table at a path, empty where there is none. -/
  contents : List Key → Entries → Entries
    | [], es => es
    | k :: ks, es =>
      match es.item? k.name with
      | some (.table _ inner) => contents ks inner
      | some (.tables ts) =>
        match ts.getLast? with
        | some (_, inner) => contents ks inner
        | none => []
      | _ => []

/-- Takes one statement in. -/
def step (a : Assembly) : Statement → Option Assembly
  | .pair path v => do return { a with current := ← a.current.setPair path v }
  | .header inArray path decor => do
    let root ← a.close
    if inArray then
      return { root, current := [], opened := some (true, path, decor), headers := a.headers + 1 }
    else
      let (root, current) ← openTable root path
      return { root, current, opened := some (false, path, decor), headers := a.headers + 1 }

/-- The document that a sequence of statements makes. -/
def ofStatements (ss : List Statement) (trailing : String) : Option Document := do
  let a ← ss.foldlM step {}
  return { entries := ← a.close, trailing }

end Assembly

end ExportDesk.Toml
