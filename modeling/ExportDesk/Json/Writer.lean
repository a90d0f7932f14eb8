import ExportDesk.Number.Layout

/-!
# Writing JSON

A JSON value as a tree, and its two texts: without any blanks, or with one element per line.
-/

namespace ExportDesk

/-- A JSON value. -/
inductive Json where
  | null
  | truth (b : Bool)
  | whole (n : Int)
  | number (x : Binary64)
  | text (s : String)
  | list (items : List Json)
  | record (fields : List (String × Json))
deriving Repr, Inhabited

namespace Json

/-- A hexadecimal digit, in lower case. -/
def hexDigit (n : Nat) : Char := if n < 10 then Char.ofNat (48 + n) else Char.ofNat (87 + n)

/-- A character inside a string. -/
def escapeChar (c : Char) : List Char :=
  if c == '"' then ['\\', '"']
  else if c == '\\' then ['\\', '\\']
  else if c == '\n' then ['\\', 'n']
  else if c == '\r' then ['\\', 'r']
  else if c == '\t' then ['\\', 't']
  else if c.toNat == 8 then ['\\', 'b']
  else if c.toNat == 12 then ['\\', 'f']
  else if c.toNat < 0x20 then
    ['\\', 'u', '0', '0', hexDigit (c.toNat / 16), hexDigit (c.toNat % 16)]
  else [c]

/-- A string. -/
def quote (s : String) : String :=
  String.ofList ('"' :: (s.toList.flatMap escapeChar ++ ['"']))

mutual

/-- The text without blanks. -/
def compact : Json → String
  | null => "null"
  | truth b => if b then "true" else "false"
  | whole n => toString n
  | number x => NumberLayout.json.write x
  | text s => quote s
  | list items => "[" ++ compactItems items ++ "]"
  | record fields => "\x7b" ++ compactFields fields ++ "\x7d"

/-- Elements with commas between them. -/
def compactItems : List Json → String
  | [] => ""
  | [j] => j.compact
  | j :: js => j.compact ++ "," ++ compactItems js

/-- Fields with commas between them. -/
def compactFields : List (String × Json) → String
  | [] => ""
  | [(k, j)] => quote k ++ ":" ++ j.compact
  | (k, j) :: fs => quote k ++ ":" ++ j.compact ++ "," ++ compactFields fs

end

/-- A list of strings, one per line. -/
def prettyTexts (texts : List String) : String :=
  if texts.isEmpty then "[]"
  else "[\n  " ++ ",\n  ".intercalate (texts.map quote) ++ "\n]"

end Json

end ExportDesk
