import ExportDesk.Number.Power

/-!
# Binary floating-point numbers

A 64-bit number is its bit pattern: a sign, eleven bits of exponent and fifty-two of fraction. A
finite one stands for `mantissa * 2 ^ exponent`. `ofRatio` takes the nearest number to a quotient,
an even mantissa on a tie; its core is the one definition that says how quotients are rounded.
-/

namespace ExportDesk

/-- A 64-bit binary floating-point number, by its bits. -/
structure Binary64 where
  bits : UInt64
deriving DecidableEq, Repr, Inhabited

namespace Binary64

/-- Is the sign bit set? -/
def sign (x : Binary64) : Bool := power 2 63 ≤ x.bits.toNat

/-- The pattern without the sign bit. -/
def magnitude (x : Binary64) : Nat := x.bits.toNat % power 2 63

/-- The magnitude from which on a pattern is no finite number. -/
def infinityMagnitude : Nat := 0x7FF * power 2 52

def isFinite (x : Binary64) : Bool := x.magnitude < infinityMagnitude

def isNaN (x : Binary64) : Bool := infinityMagnitude < x.magnitude

def isInfinite (x : Binary64) : Bool := x.magnitude == infinityMagnitude

def isZero (x : Binary64) : Bool := x.magnitude == 0

/-- Is the number greater than zero? -/
def isPositive (x : Binary64) : Bool := !x.sign && !x.isNaN && !x.isZero

/-- The whole number `m` of a finite number's value `m * 2 ^ exponent`. -/
def mantissa (x : Binary64) : Nat :=
  if x.magnitude < power 2 52 then x.magnitude else x.magnitude % power 2 52 + power 2 52

/-- The power of two of a finite number's value, raised by 1074 so that it is never negative. -/
def scale (x : Binary64) : Nat := x.magnitude / power 2 52 - 1

/-- A finite number's absolute value as a quotient of whole numbers. -/
def ratio (x : Binary64) : Nat × Nat :=
  if 1074 ≤ x.scale then (x.mantissa * power 2 (x.scale - 1074), 1)
  else (x.mantissa, power 2 (1074 - x.scale))

/-- Is a finite number a whole number? -/
def isWhole (x : Binary64) : Bool := x.ratio.1 % x.ratio.2 == 0

/-- The number with the given sign and magnitude. -/
def ofMagnitude (negative : Bool) (m : Nat) : Binary64 :=
  ⟨UInt64.ofNat (if negative then m + power 2 63 else m)⟩

def zero (negative : Bool) : Binary64 := ofMagnitude negative 0

def infinity (negative : Bool) : Binary64 := ofMagnitude negative infinityMagnitude

/-- The number that is no number, with a clear sign. -/
def nan : Binary64 := ofMagnitude false (infinityMagnitude + power 2 51)

/-- The quotient rounded to a whole number, to the even one on a tie. -/
def roundHalfEven (num den : Nat) : Nat :=
  let q := num / den
  let r := num % den
  if 2 * r < den then q
  else if den < 2 * r then q + 1
  else if q % 2 == 0 then q else q + 1

/-- The power of two, raised by 1074, at which the quotient has a mantissa of fifty-three bits, or
zero for quotients too small for that. -/
def scaleOfRatio (num den : Nat) : Nat :=
  let guess : Int := (Nat.log2 num : Int) - (Nat.log2 den : Int) - 52 + 1074
  -- the guess is right or one too large
  let below := (guess - 1).toNat
  let shifted := if 1074 ≤ below then num / (den * power 2 (below - 1074))
    else num * power 2 (1074 - below) / den
  if shifted < power 2 53 then below else below + 1

/-- The magnitude of the number nearest to `num / den`. -/
def magnitudeOfRatio (num den : Nat) : Nat :=
  if num == 0 then 0
  else
    let s := scaleOfRatio num den
    let m := if 1074 ≤ s then roundHalfEven num (den * power 2 (s - 1074))
      else roundHalfEven (num * power 2 (1074 - s)) den
    min (s * power 2 52 + m) infinityMagnitude

/-- The number nearest to `num / den`, with the given sign. -/
def ofRatio (negative : Bool) (num den : Nat) : Binary64 :=
  ofMagnitude negative (magnitudeOfRatio num den)

/-- The number nearest to a whole number. -/
def ofInt (n : Int) : Binary64 := ofRatio (n < 0) n.natAbs 1

/-- The number nearest to `digits * 10 ^ exponent`. Exponents beyond any finite number are settled
without writing the power out. -/
def ofDecimal (negative : Bool) (digits : Nat) (exponent : Int) : Binary64 :=
  if digits == 0 then zero negative
  else if 400 < exponent then infinity negative
  else if exponent + (Nat.log2 digits : Int) < -1200 then zero negative
  else if 0 ≤ exponent then ofRatio negative (digits * power 10 exponent.toNat) 1
  else ofRatio negative digits (power 10 (-exponent).toNat)

end Binary64

end ExportDesk
