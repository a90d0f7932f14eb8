import ExportDesk.Number.Literal
import ExportDesk.Text.Blank

/-!
# Loudness and margin as the user types them

A field holds a number literal, an optional unit after it, and blanks around either. What does not
read as a finite number gives the field's default; a margin is never below zero.
-/

namespace ExportDesk

/-- The loudness target, in decibels, of an empty field. -/
def defaultLoudness : Binary64 := Binary64.ofInt (-19)

/-- The margin, in seconds, of an empty field. -/
def defaultMargin : Binary64 := Binary64.zero false

namespace Field

/-- The units a loudness may carry, in the order they are tried. -/
def loudnessUnits : List String := ["db", "dB", "DB"]

/-- The units a margin may carry, in the order they are tried. -/
def marginUnits : List String := ["sec", "s"]

/-- The text before `unit`, if the text ends with it. -/
def dropUnit? (unit text : List Char) : Option (List Char) :=
  if unit.isSuffixOf text then some (text.take (text.length - unit.length)) else none

/-- The text without the first of the units that ends it, and without the blanks before that. -/
def dropUnits (units : List String) (text : List Char) : List Char :=
  match units.findSome? (fun u => dropUnit? u.toList text) with
  | some rest => Text.trimRight rest
  | none => text

/-- The finite number a field holds. -/
def readNumber? (units : List String) (text : String) : Option Binary64 :=
  (Literal.read (dropUnits units (Text.trimChars text.toList))).filter Binary64.isFinite

end Field

/-- The loudness a field stands for. -/
def readLoudness (text : String) : Binary64 :=
  (Field.readNumber? Field.loudnessUnits text).getD defaultLoudness

/-- The margin a field stands for. -/
def readMargin (text : String) : Binary64 :=
  ((Field.readNumber? Field.marginUnits text).filter Binary64.isPositive).getD defaultMargin

end ExportDesk
