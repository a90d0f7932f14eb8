import ExportDesk.Json.Writer

/-!
# Reading JSON

A reader takes what it needs from the start of a text. The first fault ends the reading, and its
kind is all that is kept of it: the text breaks the grammar, ends too early, or holds a value of
another kind than the one asked for.
-/

namespace ExportDesk

/-- What is wrong with a JSON text. -/
inductive JsonFault where
  /-- the text breaks the grammar -/
  | malformed
  /-- the text ends in the middle of a value -/
  | cutShort
  /-- a value is not what was asked for -/
  | mismatch
deriving DecidableEq, Repr

/-- Takes a value from the start of a text. -/
abbrev JsonReader (α : Type) := StateT (List Char) (Except JsonFault) α

namespace JsonReader

/-- Is the character a blank between the parts of a text? -/
def isGap (c : Char) : Bool := c == ' ' || c == '\n' || c == '\t' || c == '\r'

/-- The next character, which stays in the text. -/
def peek? : JsonReader (Option Char) := return (← get).head?

/-- Goes past the next character. -/
def skip : JsonReader Unit := modify (·.drop 1)

/-- Goes past blanks and looks at what comes then. -/
def peekPart? : JsonReader (Option Char) := do
  modify (·.dropWhile isGap)
  peek?

/-- Goes past blanks to a character that has to come. -/
def peekPart : JsonReader Char := do
  match ← peekPart? with
  | some c => return c
  | none => throw .cutShort

/-- Takes the next character, which has to come. -/
def next : JsonReader Char := do
  match ← get with
  | c :: cs =>
    set cs
    return c
  | [] => throw .cutShort

/-- Takes exactly these characters. -/
def literal : List Char → JsonReader Unit
  | [] => return ()
  | d :: ds => do
    if (← next) == d then literal ds else throw .malformed

/-- Goes past blanks and takes the given character. -/
def separator (c : Char) : JsonReader Unit := do
  if (← peekPart) == c then skip else throw .malformed

/-! ## Strings -/

/-- The value of a hexadecimal digit. -/
def hexValue? (c : Char) : Option Nat :=
  if '0' ≤ c && c ≤ '9' then some (c.toNat - 48)
  else if 'a' ≤ c && c ≤ 'f' then some (c.toNat - 87)
  else if 'A' ≤ c && c ≤ 'F' then some (c.toNat - 55)
  else none

/-- The number written by four hexadecimal digits. Fewer than four bytes cannot hold them. -/
def fourHexDigits : JsonReader Nat := do
  match ← get with
  | a :: b :: c :: d :: rest =>
    match hexValue? a, hexValue? b, hexValue? c, hexValue? d with
    | some a, some b, some c, some d =>
      set rest
      return ((a * 16 + b) * 16 + c) * 16 + d
    | _, _, _, _ => throw .malformed
  | short => throw (if 4 ≤ (String.ofList short).utf8ByteSize then .malformed else .cutShort)

/-- Does the number open a pair that writes one character? -/
def isHighSurrogate (n : Nat) : Bool := 0xD800 ≤ n && n ≤ 0xDBFF

/-- Does the number end a pair that writes one character? -/
def isLowSurrogate (n : Nat) : Bool := 0xDC00 ≤ n && n ≤ 0xDFFF

/-- The character written in hexadecimal digits, or as a pair. -/
def hexCharacter : JsonReader Char := do
  let n ← fourHexDigits
  if isLowSurrogate n then throw .malformed
  else if isHighSurrogate n then
    literal ['\\', 'u']
    let m ← fourHexDigits
    if isLowSurrogate m then return Char.ofNat ((n - 0xD800) * 1024 + (m - 0xDC00) + 0x10000)
    else throw .malformed
  else return Char.ofNat n

/-- The character of an escape of one letter. -/
def escaped? (c : Char) : Option Char :=
  match c with
  | '"' => some '"'
  | '\\' => some '\\'
  | '/' => some '/'
  | 'b' => some (Char.ofNat 8)
  | 'f' => some (Char.ofNat 12)
  | 'n' => some '\n'
  | 'r' => some '\r'
  | 't' => some '\t'
  | _ => none

/-- What is left of a string, up to its closing quote; at most `fuel` characters. -/
def stringRest : Nat → JsonReader (List Char)
  | 0 => throw .cutShort
  | fuel + 1 => do
    let c ← next
    if c == '"' then return []
    else if c.toNat < 0x20 then throw .malformed
    else if c != '\\' then return c :: (← stringRest fuel)
    else
      let e ← next
      if e == 'u' then return (← hexCharacter) :: (← stringRest fuel)
      else
        match escaped? e with
        | some c => return c :: (← stringRest fuel)
        | none => throw .malformed

/-- A string after its opening quote. -/
def string : JsonReader String := do
  return String.ofList (← stringRest ((← get).length + 1))

/-- Goes past a string; numbers in its escapes need not stand for characters. -/
def skipString : Nat → JsonReader Unit
  | 0 => throw .cutShort
  | fuel + 1 => do
    let c ← next
    if c == '"' then return ()
    else if c.toNat < 0x20 then throw .malformed
    else if c != '\\' then skipString fuel
    else
      let e ← next
      if e == 'u' then
        let _ ← fourHexDigits
        skipString fuel
      else if (escaped? e).isSome then skipString fuel
      else throw .malformed

end JsonReader

end ExportDesk
