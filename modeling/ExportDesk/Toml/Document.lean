import ExportDesk.Number.Binary64

/-!
# TOML documents with their layout

A document keeps everything that was written: how each key and value was spelled, and the blanks
and comments around it. `datum` forgets the layout and gives the plain value, `print` gives the
text back, and `setTable` replaces one top-level table and touches nothing else.
-/

namespace ExportDesk.Toml

/-- A value without layout. -/
inductive Datum where
  | text (s : String)
  | whole (n : Int)
  | number (x : Binary64)
  | truth (b : Bool)
  /-- a date, a time or both, as written -/
  | moment (written : String)
  | list (items : List Datum)
  | table (fields : List (String × Datum))
deriving Repr, Inhabited

/-- What stands before and after something on its line. -/
structure Decor where
  before : String
  after : String
deriving DecidableEq, Repr, Inhabited

/-- A key as one piece of a dotted path. The decor of the whole path belongs to the key that ends
it; `around` is what stands between a key and the dots next to it. -/
structure Key where
  name : String
  written : String
  around : Decor := ⟨"", ""⟩
  line : Option Decor := none
deriving DecidableEq, Repr, Inhabited

/-- A key that needs no quotes and has no layout of its own. -/
def Key.plain (name : String) : Key := { name, written := name }

/-- A value with its spelling. -/
structure Value where
  datum : Datum
  written : String
  decor : Decor := ⟨"", ""⟩
deriving Repr, Inhabited

/-- What a table has besides its entries. -/
structure Head where
  /-- what surrounds the header line, if that was written -/
  decor : Option Decor := none
  /-- the table exists only because a longer header or key path runs through it -/
  implicit : Bool := false
  /-- the table was made by a dotted key and has no header -/
  dotted : Bool := false
  /-- the rank of the header among all headers, if it was read from a text -/
  position : Option Nat := none
deriving Repr, Inhabited

/-- What a key leads to. -/
inductive Item where
  | value (v : Value)
  | table (head : Head) (entries : List (Key × Item))
  | tables (elements : List (Head × List (Key × Item)))
deriving Inhabited

/-- Keys with their items, in the order of the text. -/
abbrev Entries := List (Key × Item)

/-- A document: the entries of the table at the top, and what follows the last of them. -/
structure Document where
  entries : Entries := []
  trailing : String := ""
deriving Inhabited

/-! ## Looking up -/

/-- The item under a name. -/
def Entries.item? (es : Entries) (name : String) : Option Item :=
  (List.find? (fun e : Key × Item => e.1.name == name) es).map fun e => e.2

/-- Is there an entry of this name? -/
def Entries.has (es : Entries) (name : String) : Bool :=
  List.any es fun e => e.1.name == name

/-- The entries of a top-level table; a table written inline does not count as one. -/
def Document.table? (d : Document) (name : String) : Option Entries :=
  match d.entries.item? name with
  | some (.table _ es) => some es
  | _ => none

mutual

/-- The plain value of an item. -/
def Item.datum : Item → Datum
  | .value v => v.datum
  | .table _ es => .table (fieldsOf es)
  | .tables ts => .list (elementsOf ts)

/-- The plain values of entries. -/
def fieldsOf : List (Key × Item) → List (String × Datum)
  | [] => []
  | (k, i) :: es => (k.name, i.datum) :: fieldsOf es

/-- The plain values of the tables of an array. -/
def elementsOf : List (Head × List (Key × Item)) → List Datum
  | [] => []
  | (_, es) :: ts => .table (fieldsOf es) :: elementsOf ts

end

/-- The fields of the table at the top. -/
def Document.fields (d : Document) : List (String × Datum) := fieldsOf d.entries

/-! ## Changing -/

/-- The entries with the item of `name` replaced; the key keeps its spelling. -/
def Entries.replace (es : Entries) (name : String) (i : Item) : Entries :=
  es.map fun e => if e.1.name == name then (e.1, i) else e

/-- The entries with `name` leading to an item, under a new key at the end if it was not there. -/
def Entries.set (es : Entries) (name : String) (i : Item) : Entries :=
  if es.has name then es.replace name i else es ++ [(Key.plain name, i)]

/-- Replaces a whole top-level item by a table with the given entries. -/
def Document.setTable (d : Document) (name : String) (es : Entries) : Document :=
  { d with entries := d.entries.set name (.table {} es) }

@[simp] theorem Entries.item?_nil (name : String) : Entries.item? [] name = none := rfl

theorem Entries.item?_cons (e : Key × Item) (es : Entries) (name : String) :
    Entries.item? (e :: es) name = if e.1.name = name then some e.2 else Entries.item? es name := by
  by_cases h : e.1.name = name <;> simp [Entries.item?, h]

theorem Entries.item?_append (es fs : Entries) (name : String) :
    Entries.item? (es ++ fs) name = (Entries.item? es name).or (Entries.item? fs name) := by
  induction es with
  | nil => simp
  | cons e es ih =>
    rw [List.cons_append, item?_cons, item?_cons, ih]
    split <;> simp

theorem Entries.item?_replace_ne (es : Entries) {name other : String} (h : other ≠ name)
    (i : Item) : (es.replace name i).item? other = es.item? other := by
  induction es with
  | nil => rfl
  | cons e es ih =>
    simp only [Entries.replace, List.map_cons] at ih ⊢
    rw [item?_cons, item?_cons, ih]
    by_cases hk : e.1.name = name
    · simp [hk, Ne.symm h]
    · simp [hk]

theorem Entries.item?_set_ne (es : Entries) {name other : String} (h : other ≠ name) (i : Item) :
    (es.set name i).item? other = es.item? other := by
  unfold Entries.set
  split
  · exact es.item?_replace_ne h i
  · rw [item?_append, item?_cons]
    simp [Key.plain, Ne.symm h]

theorem Entries.item?_set_self (es : Entries) (name : String) (i : Item) :
    (es.set name i).item? name = some i := by
  unfold Entries.set
  split
  · rename_i h
    induction es with
    | nil => simp [Entries.has] at h
    | cons e es ih =>
      simp only [Entries.replace, List.map_cons] at ih ⊢
      rw [item?_cons]
      by_cases hk : e.1.name = name
      · simp [hk]
      · have : Entries.has es name = true := by simpa [Entries.has, hk] using h
        simpa [hk] using ih this
  · rename_i h
    rw [item?_append, item?_cons]
    have : es.item? name = none := by
      induction es with
      | nil => rfl
      | cons e es ih =>
        simp only [Entries.has, List.any_cons, Bool.or_eq_true, not_or] at h ih
        rw [item?_cons, ih h.2]
        simpa using h.1
    simp [Key.plain, this]

/-! ## Printing -/

/-- The text without carriage returns. -/
def dropReturns (s : String) : String := String.ofList (s.toList.filter (· != '\r'))

/-- Keys with dots between them and what surrounds each dot. -/
def printKeys : List Key → String
  | [] => ""
  | [k] => k.written
  | k :: k' :: ks =>
    k.written ++ dropReturns k.around.after ++ "." ++ dropReturns k'.around.before ++
      printKeys (k' :: ks)

/-- A key path. Where the path's own decor was not written, `usual` stands in. -/
def printPath (usual : Decor) (path : List Key) : String :=
  let line := (path.getLast?.bind (·.line)).getD usual
  dropReturns line.before ++ printKeys path ++ dropReturns line.after

/-- One line of a table's body. -/
def printPair (path : List Key) (v : Value) : String :=
  printPath ⟨"", " "⟩ path ++ "=" ++ dropReturns v.decor.before ++ v.written ++
    dropReturns v.decor.after ++ "\n"

mutual

/-- The values written in a table's body with their key paths: its own and those of the tables
its dotted keys made. -/
def bodyOf (parents : List Key) : List (Key × Item) → List (List Key × Value)
  | [] => []
  | (k, i) :: es => bodyOfItem (parents ++ [k]) i ++ bodyOf parents es

/-- The values that an item brings into the body. -/
def bodyOfItem (path : List Key) : Item → List (List Key × Value)
  | .value v => [(path, v)]
  | .table h es => if h.dotted then bodyOf path es else []
  | .tables _ => []

end

/-- A table as it will be printed: its rank, key path, entries, and whether it is an array's. -/
structure Section where
  rank : Nat
  path : List Key
  head : Head
  entries : Entries
  inArray : Bool

mutual

/-- The tables below some entries, each ranked by its position, or where that was never fixed, by
the position of the table visited before it. -/
def sectionsOf (parents : List Key) (rank : Nat) : List (Key × Item) → List Section × Nat
  | [] => ([], rank)
  | (k, i) :: es =>
    let (here, rank) := sectionsOfItem (parents ++ [k]) rank i
    let (later, rank) := sectionsOf parents rank es
    (here ++ later, rank)

/-- The tables that an item consists of and holds. -/
def sectionsOfItem (path : List Key) (rank : Nat) : Item → List Section × Nat
  | .value _ => ([], rank)
  | .table h es =>
    let here := h.position.getD rank
    let rank := if h.dotted then rank else here
    let (inner, last) := sectionsOf path rank es
    (if h.dotted then inner else ⟨rank, path, h, es, false⟩ :: inner, last)
  | .tables ts => sectionsOfElements path rank ts

/-- The tables that the elements of an array consist of and hold. -/
def sectionsOfElements (path : List Key) (rank : Nat) :
    List (Head × List (Key × Item)) → List Section × Nat
  | [] => ([], rank)
  | (h, es) :: ts =>
    let rank := h.position.getD rank
    let (inner, last) := sectionsOf path rank es
    let (later, last) := sectionsOfElements path last ts
    (⟨rank, path, h, es, true⟩ :: (inner ++ later), last)

end

/-- Does the table have a header line of its own? -/
def Section.isVisible (s : Section) : Bool :=
  s.inArray || !(s.head.implicit && (bodyOf [] s.entries).isEmpty)

/-- A table with its header. A header without decor is set off by an empty line, unless it is the
first thing in the document. -/
def Section.print (s : Section) (isFirst : Bool) : String :=
  let decor := s.head.decor.getD ⟨if isFirst then "" else "\n", ""⟩
  let header := printPath ⟨"", ""⟩ s.path
  let line := if s.inArray then "[[" ++ header ++ "]]" else "[" ++ header ++ "]"
  let headerLine := dropReturns decor.before ++ line ++ dropReturns decor.after ++ "\n"
  (if s.isVisible then headerLine else "") ++
    String.join ((bodyOf [] s.entries).map fun p => printPair p.1 p.2)

/-- Tables one after another. -/
def printSections (isFirst : Bool) : List Section → String
  | [] => ""
  | s :: ss => s.print isFirst ++ printSections (isFirst && !s.isVisible) ss

/-- Puts a table behind those that its rank does not precede. -/
def insertByRank (s : Section) : List Section → List Section
  | [] => [s]
  | t :: ts => if s.rank < t.rank then s :: t :: ts else t :: insertByRank s ts

/-- The tables by rank; those of the same rank keep their order. -/
def sortByRank (ss : List Section) : List Section :=
  ss.foldl (fun sorted s => insertByRank s sorted) []

/-- The document's text. -/
def Document.print (d : Document) : String :=
  let body := bodyOf [] d.entries
  let sections := sortByRank (sectionsOf [] 0 d.entries).1
  String.join (body.map fun p => printPair p.1 p.2) ++ printSections body.isEmpty sections ++
    dropReturns d.trailing

end ExportDesk.Toml
