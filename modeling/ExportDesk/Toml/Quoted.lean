import ExportDesk.Text.Blank

/-!
# Strings in TOML

Four ways to write a string: between quotes or apostrophes, on one line or on several. `write`
takes the plainest way that can hold the text, `Basic.read` and its companions read what follows
the opening marks of each.
-/

namespace ExportDesk.Toml.Quoted

/-- The ways a string can be written. -/
inductive Style where
  | basic
  | literal
  | multilineBasic
  | multilineLiteral
deriving DecidableEq, Repr

/-- The characters that no string may hold as they are: controls other than tab and line feed. -/
def isControl (c : Char) : Bool := (c.toNat < 0x20 && c != '\t' && c != '\n') || c.toNat == 0x7F

/-- The longest run of a character, where `now` of it stand right before the text. -/
def longestRun (c : Char) (now : Nat) : List Char → Nat
  | [] => now
  | d :: ds => if d == c then longestRun c (now + 1) ds else max now (longestRun c 0 ds)

/-- The plainest way to write a text. -/
def chooseStyle (cs : List Char) : Style :=
  let control := cs.any isControl
  let backslash := cs.contains '\\'
  let line := cs.contains '\n'
  let quotes := longestRun '"' 0 cs
  let apostrophes := longestRun '\'' 0 cs
  if !control && !backslash && quotes == 0 && !line then .basic
  else if !control && apostrophes == 0 && !line then .literal
  else if !control && !backslash && quotes ≤ 2 then .multilineBasic
  else if !control && apostrophes ≤ 2 then .multilineLiteral
  else if line then .multilineBasic
  else .basic

/-- A hexadecimal digit, in upper case. -/
def hexDigit (n : Nat) : Char := if n < 10 then Char.ofNat (48 + n) else Char.ofNat (55 + n)

/-- A character between quotes; `run` quotes stand right before it. On several lines, two quotes
in a row may stay as they are. -/
def escapeChar (multiline : Bool) (run : Nat) (c : Char) : List Char :=
  if c == '"' then (if (if multiline then 2 else 0) < run + 1 then ['\\', '"'] else ['"'])
  else if c == '\\' then ['\\', '\\']
  else if c == '\t' then ['\\', 't']
  else if c == '\n' then (if multiline then ['\n'] else ['\\', 'n'])
  else if c == '\r' then ['\\', 'r']
  else if c.toNat == 8 then ['\\', 'b']
  else if c.toNat == 12 then ['\\', 'f']
  else if isControl c then
    ['\\', 'u', '0', '0', hexDigit (c.toNat / 16), hexDigit (c.toNat % 16)]
  else [c]

/-- The quotes that stand at the end of a text after one more character was written. -/
def runAfter (multiline : Bool) (run : Nat) (c : Char) : Nat :=
  if c == '"' && !((if multiline then 2 else 0) < run + 1) then run + 1 else 0

/-- A text between quotes. -/
def escape (multiline : Bool) (run : Nat) : List Char → List Char
  | [] => []
  | c :: cs => escapeChar multiline run c ++ escape multiline (runAfter multiline run c) cs

/-- A string in the plainest way that can hold it. -/
def write (s : String) : String :=
  let cs := s.toList
  let line := if cs.contains '\n' then ['\n'] else []
  String.ofList <|
    match chooseStyle cs with
    | .basic => '"' :: (escape false 0 cs ++ ['"'])
    | .literal => '\'' :: (cs ++ ['\''])
    | .multilineBasic =>
      ['"', '"', '"'] ++ line ++ escape true 0 cs ++ ['"', '"', '"']
    | .multilineLiteral =>
      ['\'', '\'', '\''] ++ line ++ cs ++ ['\'', '\'', '\'']

/-! ## Reading -/

/-- The value of a hexadecimal digit. -/
def hexValue? (c : Char) : Option Nat :=
  if '0' ≤ c && c ≤ '9' then some (c.toNat - '0'.toNat)
  else if 'a' ≤ c && c ≤ 'f' then some (c.toNat - 'a'.toNat + 10)
  else if 'A' ≤ c && c ≤ 'F' then some (c.toNat - 'A'.toNat + 10)
  else none

/-- The number written by hexadecimal digits. -/
def hexNumber? (cs : List Char) : Option Nat :=
  cs.foldlM (fun n c => (hexValue? c).map (16 * n + ·)) 0

/-- The character with the code point written by hexadecimal digits; surrogates are none. -/
def codePoint? (cs : List Char) : Option Char := do
  let n ← hexNumber? cs
  if n < 0xD800 || (0xDFFF < n && n < 0x110000) then some (Char.ofNat n) else none

/-- The character that a one-letter escape stands for. -/
def shortEscape? (c : Char) : Option Char :=
  match c with
  | 'b' => some (Char.ofNat 8)
  | 't' => some '\t'
  | 'n' => some '\n'
  | 'f' => some (Char.ofNat 12)
  | 'r' => some '\r'
  | 'e' => some (Char.ofNat 27)
  | '"' => some '"'
  | '\\' => some '\\'
  | _ => none

/-- Puts a character in front of what a reader read. -/
def push (c : Char) (r : Option (List Char × List Char)) : Option (List Char × List Char) :=
  r.map fun p => (c :: p.1, p.2)

/-- The string after an opening quote, and what follows the closing one. -/
def readBasic : List Char → Option (List Char × List Char)
  | [] => none
  | '"' :: cs => some ([], cs)
  | '\\' :: 'u' :: a :: b :: c :: d :: cs => do push (← codePoint? [a, b, c, d]) (readBasic cs)
  | '\\' :: 'U' :: a :: b :: c :: d :: e :: f :: g :: h :: cs => do
    push (← codePoint? [a, b, c, d, e, f, g, h]) (readBasic cs)
  | '\\' :: 'x' :: a :: b :: cs => do push (← codePoint? [a, b]) (readBasic cs)
  | '\\' :: c :: cs => do push (← shortEscape? c) (readBasic cs)
  | c :: cs => if c == '\n' || isControl c then none else push c (readBasic cs)

/-- The string after an opening apostrophe, and what follows the closing one. -/
def readLiteral : List Char → Option (List Char × List Char)
  | [] => none
  | c :: cs =>
    if c == '\'' then some ([], cs)
    else if c == '\n' || isControl c then none
    else push c (readLiteral cs)

/-- Is the rest of the line blank? -/
def lineEndsHere (cs : List Char) : Bool :=
  match cs.dropWhile (fun c => c == ' ' || c == '\t') with
  | '\n' :: _ => true
  | '\r' :: '\n' :: _ => true
  | _ => false

/-- The string after three opening quotes, and what follows the closing ones. A backslash at the
end of a line joins the text to the next thing that is not blank; while `joining`, blanks are
passed over. -/
def readMultilineBasic (joining : Bool) : List Char → Option (List Char × List Char)
  | [] => none
  | '"' :: '"' :: '"' :: '"' :: '"' :: cs => some (['"', '"'], cs)
  | '"' :: '"' :: '"' :: '"' :: cs => some (['"'], cs)
  | '"' :: '"' :: '"' :: cs => some ([], cs)
  | '\r' :: '\n' :: cs =>
    if joining then readMultilineBasic true cs
    else push '\r' (push '\n' (readMultilineBasic false cs))
  | '\\' :: 'u' :: a :: b :: c :: d :: cs => do
    push (← codePoint? [a, b, c, d]) (readMultilineBasic false cs)
  | '\\' :: 'U' :: a :: b :: c :: d :: e :: f :: g :: h :: cs => do
    push (← codePoint? [a, b, c, d, e, f, g, h]) (readMultilineBasic false cs)
  | '\\' :: 'x' :: a :: b :: cs => do push (← codePoint? [a, b]) (readMultilineBasic false cs)
  | '\\' :: c :: cs =>
    if lineEndsHere (c :: cs) then
      (if c == '\r' then
        match cs with
        | _ :: cs => readMultilineBasic true cs
        | [] => none
      else readMultilineBasic true cs)
    else do push (← shortEscape? c) (readMultilineBasic false cs)
  | c :: cs =>
    if joining && (c == ' ' || c == '\t' || c == '\n') then readMultilineBasic true cs
    else if isControl c then none
    else push c (readMultilineBasic false cs)

/-- The string after three opening apostrophes, and what follows the closing ones. -/
def readMultilineLiteral : List Char → Option (List Char × List Char)
  | [] => none
  | '\'' :: '\'' :: '\'' :: '\'' :: '\'' :: cs => some (['\'', '\''], cs)
  | '\'' :: '\'' :: '\'' :: '\'' :: cs => some (['\''], cs)
  | '\'' :: '\'' :: '\'' :: cs => some ([], cs)
  | '\r' :: '\n' :: cs => push '\r' (push '\n' (readMultilineLiteral cs))
  | c :: cs => if isControl c then none else push c (readMultilineLiteral cs)

/-- The text without a line end at its start. -/
def dropLineEnd : List Char → List Char
  | '\n' :: cs => cs
  | '\r' :: '\n' :: cs => cs
  | cs => cs

/-- A string in any of the ways, and what follows it. -/
def read : List Char → Option (List Char × List Char)
  | '"' :: '"' :: '"' :: cs => readMultilineBasic false (dropLineEnd cs)
  | '\'' :: '\'' :: '\'' :: cs => readMultilineLiteral (dropLineEnd cs)
  | cs =>
    match cs with
    | '"' :: cs => readBasic cs
    | '\'' :: cs => readLiteral cs
    | _ => none

/-- A string on one line, and what follows it. -/
def readOneLine : List Char → Option (List Char × List Char)
  | '"' :: cs => readBasic cs
  | '\'' :: cs => readLiteral cs
  | _ => none

end ExportDesk.Toml.Quoted
