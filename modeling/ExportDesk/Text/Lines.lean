/-!
# Lines

A text as its lines. A line ends in a line feed, and a carriage return right before that belongs to
the end too; what stands behind the last line feed is a line if it is anything.
-/

namespace ExportDesk.Text

/-- A line whose characters are given from the last to the first, without a carriage return at its
end. -/
def endedLine : List Char → List Char
  | '\r' :: line => line.reverse
  | line => line.reverse

/-- The lines of what is left of a text; `line` has what was seen of the first of them, from the
last character to the first. -/
def linesFrom (line : List Char) : List Char → List (List Char)
  | [] => if line.isEmpty then [] else [line.reverse]
  | c :: cs => if c = '\n' then endedLine line :: linesFrom [] cs else linesFrom (c :: line) cs

/-- The lines of a text. -/
def lines (s : String) : List String := (linesFrom [] s.toList).map String.ofList

end ExportDesk.Text
