import ExportDesk.Json.Reader

/-!
# Numbers in JSON

A number without a point or an exponent is whole as long as it fits into 64 bits. Any other is
found from its first digits, as many as fit into 64 bits, by one multiplication or division with a
power of ten; each of these steps rounds.
-/

namespace ExportDesk

/-- A number as it was written. -/
inductive JsonNumber where
  | whole (n : Int)
  | binary (x : Binary64)
deriving DecidableEq, Repr

/-- The number nearest to the one written. -/
def JsonNumber.toBinary : JsonNumber → Binary64
  | .whole n => .ofInt n
  | .binary x => x

namespace JsonReader

/-- The largest whole number of 64 bits. -/
def maxWhole : Nat := power 2 64 - 1

/-- The rounded product of a number and a power of ten, without sign. -/
def timesPower (x : Binary64) (e : Nat) : Binary64 :=
  let p := (Binary64.ofDecimal false 1 e).ratio
  .ofRatio false (x.ratio.1 * p.1) (x.ratio.2 * p.2)

/-- The rounded quotient of a number and a power of ten, without sign. -/
def overPower (x : Binary64) (e : Nat) : Binary64 :=
  let p := (Binary64.ofDecimal false 1 e).ratio
  .ofRatio false (x.ratio.1 * p.2) (x.ratio.2 * p.1)

/-- The largest power of ten that is a finite number. -/
def maxPower : Nat := 308

/-- A number times a power of ten; one that is too large is no number. Each step but the last
divides by the largest power, and the second such step leaves nothing of any number. -/
def scaled : Nat → Binary64 → Int → JsonReader Binary64
  | 0, x, _ => return x
  | fuel + 1, x, e =>
    if e.natAbs ≤ maxPower then
      if 0 ≤ e then
        let y := timesPower x e.toNat
        if y.isFinite then return y else throw .malformed
      else return overPower x e.natAbs
    else if x.isZero then return x
    else if 0 ≤ e then throw .malformed
    else scaled fuel (overPower x maxPower) (e + maxPower)

/-- The number with the given digits and power of ten. -/
def assemble (negative : Bool) (digits : Nat) (e : Int) : JsonReader JsonNumber := do
  let x ← scaled 4 (.ofInt digits) e
  return .binary (.ofMagnitude negative x.magnitude)

/-- Takes all digits that come next. -/
def takeDigits : JsonReader (List Char) := do
  let cs ← get
  let ds := cs.takeWhile Char.isDigit
  set (cs.drop ds.length)
  return ds

/-- The digits that still fit after others into 64 bits, and the number they make. -/
def gather : Nat → List Char → Nat × List Char
  | n, [] => (n, [])
  | n, d :: ds =>
    let m := n * 10 + (d.toNat - 48)
    if maxWhole < m then (n, d :: ds) else gather m ds

/-- The largest exponent that is told apart. -/
def maxExponent : Nat := power 2 31 - 1

/-- What follows the mark of an exponent. -/
def exponentPart (negative : Bool) (digits : Nat) (start : Int) : JsonReader JsonNumber := do
  let down ← do
    match ← peek? with
    | some '+' =>
      skip
      pure false
    | some '-' =>
      skip
      pure true
    | _ => pure false
  match ← peek? with
  | none => throw .cutShort
  | some c =>
    if !c.isDigit then throw .malformed
    let ds ← takeDigits
    let n := ds.foldl (fun n d => n * 10 + (d.toNat - 48)) 0
    if maxExponent < n then
      if digits != 0 && !down then throw .malformed
      else return .binary (.zero negative)
    else assemble negative digits (if down then start - n else start + n)

/-- What may follow the digits of a number: an exponent or nothing. -/
def afterDigits (negative : Bool) (digits : Nat) (e : Int) : JsonReader JsonNumber := do
  match ← peek? with
  | some 'e' =>
    skip
    exponentPart negative digits e
  | some 'E' =>
    skip
    exponentPart negative digits e
  | _ => assemble negative digits e

/-- What follows the point of a number. -/
def fractionPart (negative : Bool) (digits : Nat) (e : Int) : JsonReader JsonNumber := do
  let ds ← takeDigits
  if ds.isEmpty then throw (if (← peek?).isNone then .cutShort else .malformed)
  let (n, unused) := gather digits ds
  afterDigits negative n (e - (ds.length - unused.length : Nat))

/-- A number after its sign. -/
def number (negative : Bool) : JsonReader JsonNumber := do
  match ← peek? with
  | none => throw .cutShort
  | some c =>
    if !c.isDigit then throw .malformed
    let ds ← takeDigits
    if c == '0' && ds.length != 1 then throw .malformed
    let (n, unused) := gather 0 ds
    let e : Int := unused.length
    match ← peek? with
    | some '.' =>
      skip
      fractionPart negative n e
    | some 'e' =>
      skip
      exponentPart negative n e
    | some 'E' =>
      skip
      exponentPart negative n e
    | _ =>
      if !unused.isEmpty then assemble negative n e
      else if !negative then return .whole n
      else if n == 0 || power 2 63 < n then
        return .binary (.ofMagnitude true (Binary64.ofInt n).magnitude)
      else return .whole (-n)

/-- Goes past a number after its sign. The end of the text is no digit here. -/
def skipNumber : JsonReader Unit := do
  let whole ← takeDigits
  if whole.isEmpty || (whole.head? == some '0' && whole.length != 1) then throw .malformed
  if (← peek?) == some '.' then
    skip
    if (← takeDigits).isEmpty then throw .malformed
  let c ← peek?
  if c == some 'e' || c == some 'E' then
    skip
    let s ← peek?
    if s == some '+' || s == some '-' then skip
    if (← takeDigits).isEmpty then throw .malformed

end JsonReader

end ExportDesk
