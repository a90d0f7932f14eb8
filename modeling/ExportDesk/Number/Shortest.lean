import ExportDesk.Number.Binary64

/-!
# The shortest decimal that reads back

Of the decimals that round to a given binary number, `shortest` is one with the fewest digits, and
of those the one nearest to it. It looks at ever finer grids of powers of ten; on each, only the
two neighbours of the value can read back, and the first grid with a hit decides.
-/

namespace ExportDesk

/-- The number `digits * 10 ^ exponent`. -/
structure Decimal where
  digits : Nat
  exponent : Int
deriving DecidableEq, Repr

namespace Decimal

/-- The magnitude of the binary number nearest to the decimal. -/
def magnitude (d : Decimal) : Nat := (Binary64.ofDecimal false d.digits d.exponent).magnitude

/-- The same decimal without trailing zeros among its digits. -/
def stripZeros (fuel : Nat) (d : Decimal) : Decimal :=
  match fuel with
  | 0 => d
  | fuel + 1 =>
    if d.digits ≠ 0 ∧ d.digits % 10 = 0 then stripZeros fuel ⟨d.digits / 10, d.exponent + 1⟩ else d

end Decimal

namespace Binary64

/-- Is `num / den` at least `10 ^ k`? -/
def reachesPower (num den : Nat) (k : Int) : Bool :=
  if 0 ≤ k then den * power 10 k.toNat ≤ num else den ≤ num * power 10 (-k).toNat

/-- Raises `k` until `num / den` is below `10 ^ k`. -/
def raisePower (num den : Nat) : Nat → Int → Int
  | 0, k => k
  | fuel + 1, k => if reachesPower num den k then raisePower num den fuel (k + 1) else k

/-- The position of the decimal point: the least `k` with `num / den < 10 ^ k`. -/
def pointPosition (num den : Nat) : Int :=
  let l : Int := (Nat.log2 num : Int) - (Nat.log2 den : Int)
  raisePower num den 4 ((l * 30103) / 100000 - 1)

/-- The two neighbours of `num / den` among the multiples of `10 ^ unit`, the nearer first; of two
equally near ones the even multiple. -/
def neighbours (num den : Nat) (unit : Int) : Decimal × Decimal :=
  let n := if 0 ≤ unit then num else num * power 10 (-unit).toNat
  let d := if 0 ≤ unit then den * power 10 unit.toNat else den
  let q := n / d
  let r := n % d
  let low : Decimal := ⟨q, unit⟩
  let high : Decimal := ⟨q + 1, unit⟩
  if 2 * r < d || (2 * r == d && q % 2 == 0) then (low, high) else (high, low)

/-- The nearer of the value's neighbours on the grid of `n` digits that reads back, if one does. -/
def onGrid (x : Binary64) (point : Int) (n : Nat) : Option Decimal :=
  let c := neighbours x.ratio.1 x.ratio.2 (point - n)
  if c.1.magnitude == x.magnitude then some c.1
  else if c.2.magnitude == x.magnitude then some c.2
  else none

/-- The value of a finite number written out in full. -/
def exactDecimal (x : Binary64) : Decimal :=
  let j := Nat.log2 x.ratio.2
  ⟨x.ratio.1 * power 5 j, -j⟩

/-- The shortest decimal that reads back as the absolute value of a finite number. -/
def shortest (x : Binary64) : Decimal :=
  if x.isZero then ⟨0, 0⟩
  else
    let point := pointPosition x.ratio.1 x.ratio.2
    let found := (List.range' 1 17).findSome? (onGrid x point)
    Decimal.stripZeros 17 (found.getD (exactDecimal x))

end Binary64

end ExportDesk
