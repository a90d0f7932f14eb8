import ExportDesk.Json.Number

/-!
# Shapes of JSON values

A shape says what a value has to be. Reading by a shape gives the value in full: every field of a
record in the order of the shape, with its fallback where the text leaves it out. Names that the
shape does not know are passed over; a record may also be written as the list of its fields.
-/

namespace ExportDesk

/-- What a JSON value has to be. -/
inductive Shape where
  | text
  /-- any number; it is kept as a binary one -/
  | number
  | truth
  /-- a whole number from zero to a limit -/
  | count (most : Nat)
  | texts
  /-- one of these names -/
  | oneOf (names : List String)
  /-- fields with their names, shapes and fallbacks -/
  | record (fields : List (String × Shape × Option Json))

namespace JsonReader

/-! ## Values that nobody asked for -/

mutual

/-- Goes past a value of any kind. -/
def skipValue : Nat → JsonReader Unit
  | 0 => throw .malformed
  | fuel + 1 => do
    let c ← peekPart
    if c == '"' then
      skip
      skipString ((← get).length + 1)
    else if c == '-' then
      skip
      skipNumber
    else if c.isDigit then skipNumber
    else if c == '[' then
      skip
      if (← peekPart) == ']' then skip
      else
        skipValue fuel
        skipItems fuel
    else if c == '\x7b' then
      skip
      if (← peekPart) == '\x7d' then skip else skipFields fuel
    else if c == 'n' then literal "null".toList
    else if c == 't' then literal "true".toList
    else if c == 'f' then literal "false".toList
    else throw .malformed

/-- Goes past what follows an element of a list. -/
def skipItems : Nat → JsonReader Unit
  | 0 => throw .malformed
  | fuel + 1 => do
    let c ← peekPart
    if c == ',' then
      skip
      skipValue fuel
      skipItems fuel
    else if c == ']' then skip
    else throw .malformed

/-- Goes past the fields of a record. -/
def skipFields : Nat → JsonReader Unit
  | 0 => throw .malformed
  | fuel + 1 => do
    separator '"'
    skipString ((← get).length + 1)
    separator ':'
    skipValue fuel
    let c ← peekPart
    if c == ',' then
      skip
      skipFields fuel
    else if c == '\x7d' then skip
    else throw .malformed

end

/-- Refuses the value that comes next. A value that is written wrongly is refused for that. -/
def refuse {α : Type} : JsonReader α := do
  let c ← peekPart
  if c == 'n' then literal "null".toList
  else if c == 't' then literal "true".toList
  else if c == 'f' then literal "false".toList
  else if c == '-' then
    skip
    let _ ← number true
  else if c.isDigit then
    let _ ← number false
  else if c == '"' then
    skip
    let _ ← string
  else if c != '[' && c != '\x7b' then throw .malformed
  throw .mismatch

/-! ## Values of a shape -/

def textValue : JsonReader String := do
  if (← peekPart) == '"' then
    skip
    string
  else refuse

def numberValue : JsonReader JsonNumber := do
  let c ← peekPart
  if c == '-' then
    skip
    number true
  else if c.isDigit then number false
  else refuse

def truthValue : JsonReader Bool := do
  let c ← peekPart
  if c == 't' then
    literal "true".toList
    return true
  else if c == 'f' then
    literal "false".toList
    return false
  else refuse

def countValue (most : Nat) : JsonReader Int := do
  match ← numberValue with
  | .whole n => if 0 ≤ n && n ≤ most then return n else throw .mismatch
  | .binary _ => throw .mismatch

/-- One of the names as a string, or as the only field of a record that holds nothing. -/
def nameValue (names : List String) : JsonReader String := do
  let known (s : String) : JsonReader String :=
    if names.contains s then return s else throw .mismatch
  let c ← peekPart
  if c == '"' then
    skip
    known (← string)
  else if c == '\x7b' then
    skip
    let s ← known (← textValue)
    separator ':'
    if (← peekPart) == 'n' then literal "null".toList else refuse
    separator '\x7d'
    return s
  else throw .malformed

/-- Goes on to the next element of a list. `false` if there is none, which is seen from the bracket
that closes the list. -/
def nextItem (isFirst : Bool) : JsonReader Bool := do
  let c ← peekPart
  if c == ']' then return false
  else if isFirst then return true
  else if c == ',' then
    skip
    if (← peekPart) == ']' then throw .malformed else return true
  else throw .malformed

/-- Goes on to the name of the next field. `none` if there is no field left. -/
def nextName (isFirst : Bool) : JsonReader (Option String) := do
  let c ← peekPart
  if c == '\x7d' then return none
  else if isFirst then
    if c == '"' then
      skip
      return some (← string)
    else throw .malformed
  else if c == ',' then
    skip
    if (← peekPart) == '"' then
      skip
      return some (← string)
    else throw .malformed
  else throw .malformed

/-- The strings of a list whose bracket has been opened; at most `fuel` of them. -/
def textItems : Nat → Bool → JsonReader (List String)
  | 0, _ => throw .malformed
  | fuel + 1, isFirst => do
    if ← nextItem isFirst then
      let s ← textValue
      return s :: (← textItems fuel false)
    else return []

def textsValue : JsonReader (List String) := do
  if (← peekPart) == '[' then
    skip
    let items ← textItems ((← get).length + 1) true
    separator ']'
    return items
  else refuse

/-- The values found for the fields of a record: the given ones, or else their fallbacks. -/
def complete (found : List (String × Json)) :
    List (String × Shape × Option Json) → JsonReader (List (String × Json))
  | [] => return []
  | (name, _, fallback) :: rest => do
    match (found.lookup name).or fallback with
    | some v => return (name, v) :: (← complete found rest)
    | none => throw .mismatch

mutual

/-- A value of a shape. Shapes lie at most `fuel` deep in each other. -/
def value : Nat → Shape → JsonReader Json
  | 0, _ => throw .malformed
  | fuel + 1, shape => do
    match shape with
    | .text => return .text (← textValue)
    | .number => return .number (← numberValue).toBinary
    | .truth => return .truth (← truthValue)
    | .count most => return .whole (← countValue most)
    | .texts => return .list ((← textsValue).map .text)
    | .oneOf names => return .text (← nameValue names)
    | .record fields =>
      let c ← peekPart
      if c == '[' then
        skip
        let values ← itemFields fuel true fields
        separator ']'
        return .record values
      else if c == '\x7b' then
        skip
        let found ← namedFields fuel true fields []
        let values ← complete found fields
        separator '\x7d'
        return .record values
      else refuse

/-- The fields of a record that is written as a list. -/
def itemFields : Nat → Bool → List (String × Shape × Option Json) →
    JsonReader (List (String × Json))
  | 0, _, _ => throw .malformed
  | _, _, [] => return []
  | fuel + 1, isFirst, (name, shape, fallback) :: rest => do
    if ← nextItem isFirst then
      let v ← value fuel shape
      return (name, v) :: (← itemFields fuel false rest)
    else
      match fallback with
      | some v => return (name, v) :: (← itemFields fuel isFirst rest)
      | none => throw .mismatch

/-- The fields of a record that are named in the text; each may be named once. -/
def namedFields : Nat → Bool → List (String × Shape × Option Json) → List (String × Json) →
    JsonReader (List (String × Json))
  | 0, _, _, _ => throw .malformed
  | fuel + 1, isFirst, fields, found => do
    match ← nextName isFirst with
    | none => return found
    | some name =>
      match fields.lookup name with
      | none =>
        separator ':'
        skipValue ((← get).length + 1)
        namedFields fuel false fields found
      | some (shape, _) =>
        if (found.lookup name).isSome then throw .mismatch
        separator ':'
        let v ← value fuel shape
        namedFields fuel false fields (found ++ [(name, v)])

end

end JsonReader

/-- Reads a text that holds one value of a shape and nothing else. -/
def Shape.read (shape : Shape) (s : String) : Except JsonFault Json := do
  let cs := s.toList
  let (v, rest) ← (JsonReader.value (cs.length + 8) shape).run cs
  if (rest.dropWhile JsonReader.isGap).isEmpty then return v else throw .malformed

end ExportDesk
