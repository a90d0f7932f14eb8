import ExportDesk.Number.Shortest

/-!
# Writing numbers

A layout fixes how the shortest digits of a number are set out: where a decimal point stands, when
powers of ten are written with an exponent, and the words for what is no finite number. Each of
the three texts that numbers appear in has its own.
-/

namespace ExportDesk

/-- How numbers are set out. -/
structure NumberLayout where
  /-- whole numbers end in `.0` -/
  marksWhole : Bool
  /-- is a number whose decimal point has this position written without exponent? -/
  positional : Int → Bool
  nan : String
  infinity : String

namespace NumberLayout

/-- On a command line and in messages: digits and point only. -/
def plain : NumberLayout := ⟨false, fun _ => true, "NaN", "inf"⟩

/-- In the settings file: as `plain`, but a whole number shows that it is a fraction's value. -/
def settings : NumberLayout := ⟨true, fun _ => true, "nan", "inf"⟩

/-- In JSON: exponents below `1e-5` and from `1e16` on; what is not finite is `null`. -/
def json : NumberLayout := ⟨true, fun p => -5 < p && p ≤ 16, "null", "null"⟩

/-- The decimal digits of a whole number. -/
def digitChars (n : Nat) : List Char := Nat.toDigits 10 n

/-- Digits with the decimal point at position `point`, counted from their left end. -/
def setPoint (marksWhole : Bool) (digits : List Char) (point : Int) : List Char :=
  if point ≤ 0 then '0' :: '.' :: (List.replicate (-point).toNat '0' ++ digits)
  else if point < digits.length then
    digits.take point.toNat ++ '.' :: digits.drop point.toNat
  else
    digits ++ List.replicate (point.toNat - digits.length) '0' ++
      (if marksWhole then ['.', '0'] else [])

/-- Digits in exponential form, the point after the first and the exponent with its sign. -/
def setExponent (digits : List Char) (point : Int) : List Char :=
  let e := point - 1
  let power := (if e < 0 then '-' else '+') :: digitChars e.natAbs
  match digits with
  | [] => []
  | [d] => d :: 'e' :: power
  | d :: ds => d :: '.' :: (ds ++ 'e' :: power)

/-- The absolute value of a finite number. -/
def writeAbs (l : NumberLayout) (x : Binary64) : List Char :=
  if x.isZero then (if l.marksWhole then ['0', '.', '0'] else ['0'])
  else
    let d := x.shortest
    let digits := digitChars d.digits
    let point := (digits.length : Int) + d.exponent
    if l.positional point then setPoint l.marksWhole digits point else setExponent digits point

/-- The number in the layout. -/
def write (l : NumberLayout) (x : Binary64) : String :=
  if x.isNaN then l.nan
  else
    let minus := if x.sign then "-" else ""
    if x.isInfinite then (if l.infinity == l.nan then l.infinity else minus ++ l.infinity)
    else minus ++ String.ofList (l.writeAbs x)

end NumberLayout

end ExportDesk
