import ExportDesk.Text.Blank

/-!
# The last lines of output

A tail keeps the most recent lines up to its capacity and forgets the oldest.
-/

namespace ExportDesk

structure Tail where
  capacity : Nat
  lines : List String := []
deriving DecidableEq, Repr, Inhabited

namespace Tail

/-- An empty tail; it has room for one line at least. -/
def ofCapacity (n : Nat) : Tail := { capacity := max n 1 }

/-- Adds a line, at the cost of the oldest if there is no room. -/
def push (t : Tail) (line : String) : Tail :=
  if t.capacity ≤ t.lines.length then { t with lines := t.lines.drop 1 ++ [line] }
  else { t with lines := t.lines ++ [line] }

def clear (t : Tail) : Tail := { t with lines := [] }

/-- Is there nothing to see in any line? -/
def isBlank (t : Tail) : Bool := t.lines.all Text.isBlank

/-- The lines, one below the other. -/
def joined (t : Tail) : String := "\n".intercalate t.lines

end Tail

end ExportDesk
