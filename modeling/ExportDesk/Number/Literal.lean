import ExportDesk.Number.Binary64

/-!
# Reading number literals

An optional sign, then either digits with at most one point among them and an optional exponent,
or one of the words `inf`, `infinity` and `nan` in any case. No blank is allowed anywhere.
-/

namespace ExportDesk.Literal

/-- A leading sign and what follows it. -/
def splitSign : List Char → Bool × List Char
  | '+' :: cs => (false, cs)
  | '-' :: cs => (true, cs)
  | cs => (false, cs)

/-- The value of a run of decimal digits. -/
def digitsValue (cs : List Char) : Nat := cs.foldl (fun n c => 10 * n + (c.toNat - '0'.toNat)) 0

/-- The leading digits and what follows them. -/
def splitDigits (cs : List Char) : List Char × List Char :=
  (cs.takeWhile Char.isDigit, cs.dropWhile Char.isDigit)

theorem splitDigits_append (cs : List Char) : (splitDigits cs).1 ++ (splitDigits cs).2 = cs :=
  List.takeWhile_append_dropWhile

/-- The exponent that ends a literal, zero when nothing is left. -/
def readExponent : List Char → Option Int
  | [] => some 0
  | c :: cs =>
    if c == 'e' || c == 'E' then
      let (negative, digits) := splitSign cs
      if digits.isEmpty || !digits.all Char.isDigit then none
      else some (if negative then -(digitsValue digits : Int) else digitsValue digits)
    else none

/-- The digits after a decimal point, if there is a point, and what follows. -/
def splitFraction : List Char → List Char × List Char
  | '.' :: cs => splitDigits cs
  | cs => ([], cs)

/-- A literal made of digits. -/
def readNumber (negative : Bool) (cs : List Char) : Option Binary64 :=
  let (whole, rest) := splitDigits cs
  let (fraction, rest) := splitFraction rest
  if whole.isEmpty && fraction.isEmpty then none
  else do
    let e ← readExponent rest
    return Binary64.ofDecimal negative (digitsValue (whole ++ fraction)) (e - fraction.length)

/-- The words that stand for numbers, in lower case. -/
def readWord (negative : Bool) (cs : List Char) : Option Binary64 :=
  let word := String.ofList (cs.map Char.toLower)
  if word == "inf" || word == "infinity" then some (Binary64.infinity negative)
  else if word == "nan" then
    some (Binary64.ofMagnitude negative (Binary64.infinityMagnitude + power 2 51))
  else none

/-- The number a literal stands for. -/
def read (cs : List Char) : Option Binary64 :=
  let (negative, body) := splitSign cs
  readWord negative body <|> readNumber negative body

end ExportDesk.Literal
