import ExportDesk.Toml.Assembly
import ExportDesk.Toml.Quoted
import ExportDesk.Toml.Scalar

/-!
# Reading TOML

From text to a document with its layout. A text that breaks a rule of the language anywhere has no
document. Values may be nested as deep as `maxDepth`.
-/

namespace ExportDesk.Toml.Reader

open Quoted (push)

/-- How deep arrays and inline tables may be nested. -/
def maxDepth : Nat := 80

/-- Is the character a blank inside a line? -/
def isGap (c : Char) : Bool := c == ' ' || c == '\t'

/-- Blanks inside a line, and what follows them. -/
def gap (cs : List Char) : List Char × List Char := (cs.takeWhile isGap, cs.dropWhile isGap)

/-- Blanks, line ends and comments, and what follows them. -/
def trivia (inComment : Bool) : List Char → Option (List Char × List Char)
  | [] => some ([], [])
  | '\n' :: cs => push '\n' (trivia false cs)
  | '\r' :: '\n' :: cs => push '\r' (push '\n' (trivia false cs))
  | c :: cs =>
    if inComment then (if Quoted.isControl c then none else push c (trivia true cs))
    else if isGap c then push c (trivia false cs)
    else if c == '#' then push c (trivia true cs)
    else some ([], c :: cs)

/-- The rest of a line that holds nothing more than a comment, and the next line. -/
def lineEnd (inComment : Bool) : List Char → Option (List Char × List Char)
  | [] => some ([], [])
  | '\n' :: cs => some ([], cs)
  | '\r' :: '\n' :: cs => some ([], cs)
  | c :: cs =>
    if inComment then (if Quoted.isControl c then none else push c (lineEnd true cs))
    else if isGap c then push c (lineEnd false cs)
    else if c == '#' then push c (lineEnd true cs)
    else none

/-- What a reader took from a text, given what it left. -/
def taken (cs rest : List Char) : List Char := cs.take (cs.length - rest.length)

/-- May the character stand in a key without quotes? -/
def isKeyChar (c : Char) : Bool := c.isAlphanum || c == '_' || c == '-'

/-- One key of a path, without what surrounds it. -/
def simpleKey (cs : List Char) : Option (Key × List Char) :=
  match cs with
  | '"' :: _ | '\'' :: _ => do
    let (name, rest) ← Quoted.readOneLine cs
    return ({ name := String.ofList name, written := String.ofList (taken cs rest) }, rest)
  | _ =>
    let name := cs.takeWhile isKeyChar
    if name.isEmpty then none
    else some (Key.plain (String.ofList name), cs.dropWhile isKeyChar)

/-- Keys with dots between them. -/
def dottedKeys : Nat → List Char → Option (List Key × List Char)
  | 0, _ => none
  | fuel + 1, cs => do
    let (before, cs) := gap cs
    let (k, cs) ← simpleKey cs
    let (after, cs) := gap cs
    let k := { k with around := ⟨String.ofList before, String.ofList after⟩ }
    match cs with
    | '.' :: cs =>
      let (ks, cs) ← dottedKeys fuel cs
      return (k :: ks, cs)
    | _ => return ([k], cs)

/-- The path with its outermost blanks, and `lead` before them, taken as the decor of the whole. -/
def framed (lead : List Char) : List Key → List Key
  | [] => []
  | [k] =>
    [{ k with
        around := ⟨"", ""⟩
        line := some ⟨String.ofList lead ++ k.around.before, k.around.after⟩ }]
  | k :: ks =>
    { k with around := ⟨"", k.around.after⟩ } ::
      (match ks.getLast? with
        | none => ks
        | some last =>
          ks.dropLast ++
            [{ last with
                around := ⟨last.around.before, ""⟩
                line := some ⟨String.ofList lead ++ k.around.before, last.around.after⟩ }])

/-- A key path; `lead` stands before it. -/
def keyPath (lead cs : List Char) : Option (List Key × List Char) :=
  (dottedKeys (cs.length + 1) cs).map fun r => (framed lead r.1, r.2)

/-- The text without carriage returns. -/
def plainEnds (cs : List Char) : List Char := cs.filter (· != '\r')

mutual

/-- A value, how it was written, and what follows it. -/
def value (depth : Nat) : Nat → List Char → Option (Datum × List Char × List Char)
  | 0, _ => none
  | fuel + 1, cs =>
    match cs with
    | '[' :: rest =>
      if depth == 0 then none
      else do
        let (ds, written, rest) ← elements (depth - 1) fuel rest
        return (.list ds, '[' :: written, rest)
    | '{' :: rest =>
      if depth == 0 then none
      else do
        let (es, written, rest) ← fields (depth - 1) fuel [] rest
        return (.table (fieldsOf es), '{' :: written, rest)
    | '"' :: _ | '\'' :: _ => do
      let (s, rest) ← Quoted.read cs
      return (.text (String.ofList s), taken cs rest, rest)
    | _ => do
      let (d, rest) ← Scalar.read cs
      return (d, taken cs rest, rest)

/-- The elements of an array up to its end. -/
def elements (depth : Nat) : Nat → List Char → Option (List Datum × List Char × List Char)
  | 0, _ => none
  | fuel + 1, cs => do
    let (before, cs) ← trivia false cs
    match cs with
    | ']' :: rest => return ([], plainEnds before ++ [']'], rest)
    | _ =>
      let (d, written, cs) ← value depth fuel cs
      let (after, cs) ← trivia false cs
      let here := plainEnds before ++ written ++ plainEnds after
      match cs with
      | ',' :: rest =>
        let (ds, more, rest) ← elements depth fuel rest
        return (d :: ds, here ++ ',' :: more, rest)
      | ']' :: rest => return ([d], here ++ [']'], rest)
      | _ => none

/-- The pairs of an inline table up to its end, added to those before. -/
def fields (depth : Nat) : Nat → Entries → List Char → Option (Entries × List Char × List Char)
  | 0, _, _ => none
  | fuel + 1, es, cs => do
    let (before, cs) ← trivia false cs
    match cs with
    | '}' :: rest => return (es, plainEnds before ++ ['}'], rest)
    | _ =>
      let (path, afterKey) ← keyPath [] cs
      match afterKey with
      | '=' :: rest =>
        let (blank, rest) := gap rest
        let (d, written, rest) ← value depth fuel rest
        let es ← es.setPair path { datum := d, written := String.ofList written }
        let (after, rest) ← trivia false rest
        let here := plainEnds before ++ taken cs afterKey ++ '=' :: (blank ++ written) ++
          plainEnds after
        match rest with
        | ',' :: rest =>
          let (es, more, rest) ← fields depth fuel es rest
          return (es, here ++ ',' :: more, rest)
        | '}' :: rest => return (es, here ++ ['}'], rest)
        | _ => none
      | _ => none

end

/-- The closing brackets of a header. -/
def headerEnd (inArray : Bool) : List Char → Option (List Char)
  | ']' :: cs =>
    if inArray then
      match cs with
      | ']' :: cs => some cs
      | _ => none
    else some cs
  | _ => none

/-- A header, from behind its opening brackets to the end of its line. -/
def header (inArray : Bool) (lead cs : List Char) : Option (Statement × List Char) := do
  let (path, cs) ← keyPath [] cs
  let cs ← headerEnd inArray cs
  let (after, cs) ← lineEnd false cs
  return (.header inArray path ⟨String.ofList lead, String.ofList after⟩, cs)

/-- A pair, to the end of its line. -/
def pair (lead cs : List Char) : Option (Statement × List Char) := do
  let (path, cs) ← keyPath lead cs
  match cs with
  | '=' :: cs =>
    let (before, cs) := gap cs
    let (d, written, cs) ← value maxDepth (2 * cs.length + 2) cs
    let (after, cs) ← lineEnd false cs
    let decor : Decor := ⟨String.ofList before, String.ofList after⟩
    return (.pair path { datum := d, written := String.ofList written, decor }, cs)
  | _ => none

/-- All statements of a text, and the trivia after the last. -/
def statements : Nat → List Char → Option (List Statement × List Char)
  | 0, _ => none
  | fuel + 1, cs => do
    let (lead, cs) ← trivia false cs
    match cs with
    | [] => return ([], lead)
    | _ =>
      let (s, cs) ←
        match cs with
        | '[' :: '[' :: cs => header true lead cs
        | '[' :: cs => header false lead cs
        | cs => pair lead cs
      let (ss, trailing) ← statements fuel cs
      return (s :: ss, trailing)

/-- The text without a byte order mark. -/
def dropMark : List Char → List Char
  | '\uFEFF' :: cs => cs
  | cs => cs

end ExportDesk.Toml.Reader

namespace ExportDesk.Toml

open Reader in
/-- The document a text writes, if it is well-formed. -/
def Document.read (s : String) : Option Document := do
  let cs := dropMark s.toList
  let (ss, trailing) ← statements (cs.length + 1) cs
  Assembly.ofStatements ss (String.ofList trailing)

mutual

/-- Are all whole numbers in the value within 64 bits? -/
def Datum.isNarrow : Datum → Bool
  | .whole n => fitsSigned 64 n
  | .list ds => allNarrow ds
  | .table fs => fieldsNarrow fs
  | _ => true

/-- `Datum.isNarrow` for every value of a list. -/
def allNarrow : List Datum → Bool
  | [] => true
  | d :: ds => d.isNarrow && allNarrow ds

/-- `Datum.isNarrow` for every value of a table. -/
def fieldsNarrow : List (String × Datum) → Bool
  | [] => true
  | (_, d) :: fs => d.isNarrow && fieldsNarrow fs

end

/-- The document a text writes, for changing it: whole numbers beyond 64 bits are refused here. -/
def Document.readForEditing (s : String) : Option Document :=
  (Document.read s).filter fun d => fieldsNarrow d.fields

end ExportDesk.Toml
