import ExportDesk.Shell.Machine
import ExportDesk.Shell.Pattern

/-!
# Fields of a word

Expanding a word gives fragments; the fields that a command gets as its arguments are cut out of
them. Text that was written or quoted is never cut; what an unquoted parameter stood for is cut at
blanks.
-/

namespace ExportDesk.Shell

/-- What a part of a word stands for. -/
inductive Fragment where
  /-- text that is not cut; unless it is quoted, its stars and brackets make a pattern -/
  | fixed (s : List Char) (quoted : Bool)
  /-- text that is cut at blanks -/
  | loose (s : List Char)
  /-- the end of a field -/
  | boundary
deriving DecidableEq, Repr

namespace Fragment

/-- The fields that a loose text adds, given the field begun before it, and the field that goes
on after it. -/
def looseFields (current : Option (List Char)) :
    List Char → List (List Char) × Option (List Char)
  | [] => ([], current)
  | c :: cs =>
    if Arithmetic.isGap c then
      let (fields, last) := looseFields none cs
      (current.toList ++ fields, last)
    else looseFields (some (current.getD [] ++ [c])) cs

/-- The fields of fragments, given the field begun before them. -/
def fieldsFrom (current : Option (List Char)) : List Fragment → List (List Char)
  | [] => current.toList
  | .fixed s _ :: fs => fieldsFrom (some (current.getD [] ++ s)) fs
  | .boundary :: fs => current.toList ++ fieldsFrom none fs
  | .loose s :: fs =>
    let (fields, current) := looseFields current s
    fields ++ fieldsFrom current fs

/-- The fields of fragments. -/
def fields (fs : List Fragment) : List String := (fieldsFrom none fs).map String.ofList

/-- The fragments as one text. -/
def text (fs : List Fragment) : List Char :=
  fs.flatMap fun
    | .fixed s _ => s
    | .loose s => s
    | .boundary => [' ']

/-- The fragments as a pattern. -/
def pattern (fs : List Fragment) : List PatternItem :=
  let marked := fs.flatMap fun
    | .fixed s quoted => s.map (·, quoted)
    | .loose s => s.map (·, false)
    | .boundary => [(' ', true)]
  patternOf (marked.length + 1) marked

/-- The values of a list of arguments, each a field of its own. -/
def separate (quoted : Bool) : List String → List Fragment
  | [] => []
  | [a] => [if quoted then .fixed a.toList true else .loose a.toList]
  | a :: rest =>
    (if quoted then .fixed a.toList true else .loose a.toList) :: .boundary :: separate quoted rest

end Fragment

/-- The number that a script sees as that of its process. -/
def processNumber : Nat := 4242

/-- The value of a parameter, if it is set. -/
def Machine.value? (m : Machine) : Parameter → Option String
  | .variable name => m.bindings.lookup name
  | .argument 0 => some m.name
  | .argument (n + 1) => m.arguments[n]?
  | .arguments => if m.arguments.isEmpty then none else some (" ".intercalate m.arguments)
  | .argumentsJoined => if m.arguments.isEmpty then none else some (" ".intercalate m.arguments)
  | .argumentCount => some (toString m.arguments.length)
  | .status => some (toString m.status)
  | .process => some (toString processNumber)

/-- Text without the line ends at its end. -/
def dropLineEnds (cs : List Char) : List Char := (cs.reverse.dropWhile (· == '\n')).reverse

end ExportDesk.Shell
