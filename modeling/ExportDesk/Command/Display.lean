import ExportDesk.Text.Blank

/-!
# Showing an argument list

A command is shown on one line, or with one option per line. Both are for reading only; what is
executed is the list itself. A token that could be misread stands between quotes, with a backslash
before each quote inside it. Other backslashes stay single, so that paths remain readable.
-/

namespace ExportDesk.Command

open Text

/-- The characters besides blanks that a shell would not take as they are: both quotes, the
dollar sign and the backquote. -/
def specialChars : List Char := ['"', Char.ofNat 0x27, '$', Char.ofNat 0x60]

/-- Does the token need quotes to be told from its surroundings? -/
def needsQuotes (cs : List Char) : Bool :=
  cs.isEmpty || cs.any fun c => isBlankChar c || specialChars.contains c

/-- The token with a backslash before every quote. -/
def escapeQuotes : List Char → List Char
  | [] => []
  | c :: cs => if c == '"' then '\\' :: '"' :: escapeQuotes cs else c :: escapeQuotes cs

/-- A token as it is shown. -/
def quoteChars (cs : List Char) : List Char :=
  if needsQuotes cs then '"' :: (escapeQuotes cs ++ ['"']) else cs

/-- A token as it is shown. -/
def quote (token : String) : String := String.ofList (quoteChars token.toList)

/-- All tokens on one line. -/
def preview (tokens : List String) : String := " ".intercalate (tokens.map quote)

/-- Is the token an option's name? -/
def isOptionName (token : String) : Bool := ['-', '-'].isPrefixOf token.toList

/-- Does the first of two tokens take the second as its value? -/
def takesValue (token next : String) : Bool := isOptionName token && !isOptionName next

/-- What a line ends in that the command goes on behind. -/
def goesOn : String := " \\\n"

/-- Writes the tokens from an index on behind what has been written: an option with its value or one
token alone on a line, each with the mark that the command goes on; at most `fuel` lines. -/
def writeLines (tokens : List String) : Nat → Nat → String → String
  | 0, _, written => written
  | fuel + 1, i, written =>
    match tokens[i]? with
    | none => written
    | some token =>
      match tokens[i + 1]?.filter (takesValue token) with
      | some value =>
        writeLines tokens fuel (i + 2)
          (written ++ "  " ++ quote token ++ " " ++ quote value ++ goesOn)
      | none =>
        if i = 0 then writeLines tokens fuel (i + 1) (written ++ quote token ++ goesOn)
        else writeLines tokens fuel (i + 1) (written ++ "  " ++ quote token ++ goesOn)

/-- The bytes that a text takes. -/
def byteSize : List Char → Nat
  | [] => 0
  | c :: cs => c.utf8Size + byteSize cs

/-- The characters that lie in the first `n` bytes. -/
def takeBytes : Nat → List Char → List Char
  | _, [] => []
  | n, c :: cs => if c.utf8Size ≤ n then c :: takeBytes (n - c.utf8Size) cs else []

/-- The text with a line end in place of a mark behind its last line. -/
def dropLastMark (written : String) : String :=
  let cs := written.toList
  if goesOn.toList.isSuffixOf cs then String.ofList (takeBytes (byteSize cs - 3) cs ++ ['\n'])
  else written

/-- All tokens, one option per line. -/
def pretty (tokens : List String) : String :=
  -- a line takes one token at least, so there are no more lines than tokens
  dropLastMark (writeLines tokens tokens.length 0 "")

end ExportDesk.Command
