/-!
# Patterns of a shell script

A star stands for any text, a question mark for one character, and brackets for one character of a
set.
-/

namespace ExportDesk.Shell

/-- An element of a pattern. -/
inductive PatternItem where
  | exactly (c : Char)
  | one
  | any
  | oneOf (negated : Bool) (ranges : List (Char × Char))
deriving DecidableEq, Repr

namespace PatternItem

/-- Is the character in one of the ranges? -/
def inRanges (ranges : List (Char × Char)) (c : Char) : Bool :=
  ranges.any fun r => r.1 ≤ c && c ≤ r.2

end PatternItem

/-- A text and all its endings. -/
def endings : List Char → List (List Char)
  | [] => [[]]
  | c :: cs => (c :: cs) :: endings cs

/-- Does the pattern fit the whole text? -/
def fits : List PatternItem → List Char → Bool
  | [], cs => cs.isEmpty
  | .exactly d :: ps, c :: cs => c == d && fits ps cs
  | .one :: ps, _ :: cs => fits ps cs
  | .oneOf negated ranges :: ps, c :: cs =>
    (PatternItem.inRanges ranges c != negated) && fits ps cs
  | .any :: ps, cs => (endings cs).any fun rest => fits ps rest
  | _ :: _, [] => false

/-- The ranges of a set between brackets. -/
def rangesOf : List Char → List (Char × Char)
  | a :: '-' :: b :: cs => (a, b) :: rangesOf cs
  | a :: cs => (a, a) :: rangesOf cs
  | [] => []

/-- The pattern of characters of which some are protected by quotes; at most `fuel` elements. -/
def patternOf : Nat → List (Char × Bool) → List PatternItem
  | 0, _ => []
  | _, [] => []
  | fuel + 1, (c, true) :: cs => .exactly c :: patternOf fuel cs
  | fuel + 1, (c, false) :: cs =>
    if c == '*' then .any :: patternOf fuel cs
    else if c == '?' then .one :: patternOf fuel cs
    else if c == '[' then
      let negated := (cs.head?.map fun d => d.1 == '!' || d.1 == '^').getD false
      let body := if negated then cs.drop 1 else cs
      -- a bracket right at the start belongs to the set
      let first := body.take 1
      let inner := first ++ (body.drop 1).takeWhile (·.1 != ']')
      let rest := body.drop inner.length
      if rest.isEmpty then .exactly c :: patternOf fuel cs
      else .oneOf negated (rangesOf (inner.map (·.1))) :: patternOf fuel (rest.drop 1)
    else .exactly c :: patternOf fuel cs

/-- How many characters of the text's start are taken by the pattern: the most, or the fewest. -/
def startTaken (longest : Bool) (p : List PatternItem) (cs : List Char) : Option Nat :=
  let sizes := List.range (cs.length + 1)
  (if longest then sizes.reverse else sizes).find? fun n => fits p (cs.take n)

/-- How many characters of the text's end are taken by the pattern: the most, or the fewest. -/
def endTaken (longest : Bool) (p : List PatternItem) (cs : List Char) : Option Nat :=
  let sizes := List.range (cs.length + 1)
  (if longest then sizes.reverse else sizes).find? fun n => fits p (cs.drop (cs.length - n))

end ExportDesk.Shell
