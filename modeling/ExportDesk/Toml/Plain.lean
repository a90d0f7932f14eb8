import ExportDesk.Toml.Reader

/-!
# Reading TOML for its values

Who only asks for values has a reader of its own. It keeps nothing of the layout and puts the tables
together itself; blanks, keys, strings and scalars are taken from a text as for a document.
-/

namespace ExportDesk.Toml.Plain

open Reader (gap trivia lineEnd dottedKeys headerEnd maxDepth dropMark)

/-- How a table came about. -/
structure Origin where
  /-- only because a longer header or key path runs through it -/
  implicit : Bool := false
  /-- by the key path of a pair -/
  dotted : Bool := false
deriving DecidableEq, Repr, Inhabited

/-- What a name leads to. -/
inductive Item where
  | value (datum : Datum)
  | table (origin : Origin) (fields : List (String × Item))
  | tables (elements : List (Origin × List (String × Item)))
deriving Inhabited

/-- Names with their items, in the order of the text. -/
abbrev Table := List (String × Item)

mutual

/-- The value of an item. -/
def Item.datum : Item → Datum
  | .value d => d
  | .table _ t => .table (dataOf t)
  | .tables ts => .list (dataOfEach ts)

/-- The values of a table. -/
def dataOf : List (String × Item) → List (String × Datum)
  | [] => []
  | (name, i) :: t => (name, i.datum) :: dataOf t

/-- The tables of an array as values. -/
def dataOfEach : List (Origin × List (String × Item)) → List Datum
  | [] => []
  | (_, t) :: ts => .table (dataOf t) :: dataOfEach ts

end

namespace Table

/-- The table with another item under a name that it has. -/
def replace (t : Table) (name : String) (i : Item) : Table :=
  t.map fun f => if f.1 == name then (f.1, i) else f

/-- The table without a name. -/
def without (t : Table) (name : String) : Table :=
  List.filter (fun f : String × Item => f.1 != name) t

/-- Adds an item under a name that is not taken. -/
def add (t : Table) (name : String) (i : Item) : Option Table :=
  if (t.lookup name).isSome then none else some (t ++ [(name, i)])

/-- Changes the table at the end of a path. What is missing on the way is made. A value in the way
stops it, and for the path of a pair a table with a header of its own does; the way through an
array of tables is that through its last one. -/
def changeAt (dotted : Bool) (change : Origin → Table → Option Table) :
    List String → Origin → Table → Option Table
  | [], origin, t => change origin t
  | name :: names, _, t =>
    match t.lookup name with
    | none => do
      let origin : Origin := { implicit := true, dotted }
      return t ++ [(name, .table origin (← changeAt dotted change names origin []))]
    | some (.value _) => none
    | some (.table origin inner) => do
      if dotted && !origin.implicit then none
      else
        return t.replace name (.table origin (← changeAt dotted change names origin inner))
    | some (.tables ts) => do
      let (origin, inner) ← ts.getLast?
      let inner ← changeAt dotted change names origin inner
      return t.replace name (.tables (ts.dropLast ++ [(origin, inner)]))

/-- Sets the value at a path. All but the last name are those of dotted tables, if there are more
names than one. -/
def setValue (t : Table) (path : List String) (d : Datum) : Option Table := do
  let name ← path.getLast?
  let dotted : Bool := decide (1 < path.length)
  changeAt dotted
    (fun origin inner => if origin.dotted != dotted then none else inner.add name (.value d))
    path.dropLast {} t

/-- Puts a table under a name, or at the end of the array there. -/
def place (inArray : Bool) (name : String) (inner t : Table) : Option Table :=
  if inArray then
    match t.lookup name with
    | none => some (t ++ [(name, .tables [({}, inner)])])
    | some (.tables ts) => some (t.replace name (.tables (ts ++ [({}, inner)])))
    | some _ => none
  else t.add name (.table {} inner)

/-- Takes the table of a name out, if it may still be opened. -/
def takeOut (name : String) (t : Table) : Option Table :=
  match t.lookup name with
  | none => some t
  | some (.table origin _) =>
    if origin.implicit && !origin.dotted then some (t.without name) else none
  | some _ => none

/-- What the table at a path holds; nothing where there is none. -/
def inside : List String → Table → Table
  | [], t => t
  | name :: names, t =>
    match t.lookup name with
    | some (.table _ inner) => inside names inner
    | some (.tables ts) =>
      match ts.getLast? with
      | some (_, inner) => inside names inner
      | none => []
    | _ => []

/-- Takes the table of a path out to open it; with the rest comes what it held. -/
def openAt (path : List String) (t : Table) : Option (Table × Table) := do
  let name ← path.getLast?
  return (← changeAt false (fun _ inner => takeOut name inner) path.dropLast {} t, inside path t)

end Table

/-! ## Statements -/

/-- What one line of a text says. -/
inductive Statement where
  /-- opens a table, or a further one of an array -/
  | header (inArray : Bool) (path : List String)
  | pair (path : List String) (datum : Datum)
deriving Inhabited

/-- The table that is open, with its header if it has one, and all tables closed before it. -/
structure Making where
  root : Table := []
  current : Table := []
  opened : Option (Bool × List String) := none
deriving Inhabited

namespace Making

/-- Closes the open table. -/
def close (m : Making) : Option Table :=
  match m.opened with
  | none => some m.current
  | some (inArray, path) => do
    let name ← path.getLast?
    Table.changeAt false (fun _ t => Table.place inArray name m.current t) path.dropLast {} m.root

/-- Takes one statement in. A table that is opened starts with what an implicit one of the same path
held. -/
def step (m : Making) : Statement → Option Making
  | .pair path d => do return { m with current := ← m.current.setValue path d }
  | .header true path => do return { root := ← m.close, opened := some (true, path) }
  | .header false path => do
    let (root, current) ← Table.openAt path (← m.close)
    return { root, current, opened := some (false, path) }

end Making

/-! ## Reading -/

/-- A path of names. -/
def names (cs : List Char) : Option (List String × List Char) :=
  (dottedKeys (cs.length + 1) cs).map fun r => (r.1.map (·.name), r.2)

mutual

/-- A value and what follows it. -/
def value (depth : Nat) : Nat → List Char → Option (Datum × List Char)
  | 0, _ => none
  | fuel + 1, cs =>
    match cs with
    | '[' :: rest =>
      if depth == 0 then none
      else do
        let (ds, rest) ← elements (depth - 1) fuel rest
        return (.list ds, rest)
    | '{' :: rest =>
      if depth == 0 then none
      else do
        let (t, rest) ← fields (depth - 1) fuel [] rest
        return (.table (dataOf t), rest)
    | '"' :: _ | '\'' :: _ => do
      let (s, rest) ← Quoted.read cs
      return (.text (String.ofList s), rest)
    | _ => Scalar.read cs

/-- The elements of an array up to its end. -/
def elements (depth : Nat) : Nat → List Char → Option (List Datum × List Char)
  | 0, _ => none
  | fuel + 1, cs => do
    let (_, cs) ← trivia false cs
    match cs with
    | ']' :: rest => return ([], rest)
    | _ =>
      let (d, cs) ← value depth fuel cs
      let (_, cs) ← trivia false cs
      match cs with
      | ',' :: rest =>
        let (ds, rest) ← elements depth fuel rest
        return (d :: ds, rest)
      | ']' :: rest => return ([d], rest)
      | _ => none

/-- The pairs of an inline table up to its end, added to those before. -/
def fields (depth : Nat) : Nat → Table → List Char → Option (Table × List Char)
  | 0, _, _ => none
  | fuel + 1, t, cs => do
    let (_, cs) ← trivia false cs
    match cs with
    | '}' :: rest => return (t, rest)
    | _ =>
      let (path, cs) ← names cs
      match cs with
      | '=' :: rest =>
        let (d, rest) ← value depth fuel (gap rest).2
        let t ← t.setValue path d
        let (_, rest) ← trivia false rest
        match rest with
        | ',' :: rest => fields depth fuel t rest
        | '}' :: rest => return (t, rest)
        | _ => none
      | _ => none

end

/-- A header, from behind its opening brackets to the end of its line. -/
def header (inArray : Bool) (cs : List Char) : Option (Statement × List Char) := do
  let (path, cs) ← names cs
  let cs ← headerEnd inArray cs
  let (_, cs) ← lineEnd false cs
  return (.header inArray path, cs)

/-- A pair, to the end of its line. -/
def pair (cs : List Char) : Option (Statement × List Char) := do
  let (path, cs) ← names cs
  match cs with
  | '=' :: cs =>
    let cs := (gap cs).2
    let (d, cs) ← value maxDepth (2 * cs.length + 2) cs
    let (_, cs) ← lineEnd false cs
    return (.pair path d, cs)
  | _ => none

/-- All statements of a text. -/
def statements : Nat → List Char → Option (List Statement)
  | 0, _ => none
  | fuel + 1, cs => do
    let (_, cs) ← trivia false cs
    match cs with
    | [] => return []
    | _ =>
      let (s, cs) ←
        match cs with
        | '[' :: '[' :: cs => header true cs
        | '[' :: cs => header false cs
        | cs => pair cs
      return s :: (← statements fuel cs)

/-- The values that a text writes, if it is well-formed. -/
def read (s : String) : Option (List (String × Datum)) := do
  let cs := dropMark s.toList
  let m ← (← statements (cs.length + 1) cs).foldlM Making.step {}
  return dataOf (← m.close)

end ExportDesk.Toml.Plain
