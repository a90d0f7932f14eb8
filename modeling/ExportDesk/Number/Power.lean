/-!
# Powers and widths

Powers of whole numbers, and the whole numbers that a given count of bits can hold.
-/

namespace ExportDesk

/-- A number multiplied by itself as often as the exponent says. -/
def power (base exponent : Nat) : Nat := Nat.pow base exponent

theorem power_zero (base : Nat) : power base 0 = 1 := rfl

theorem power_succ (base exponent : Nat) :
    power base (exponent + 1) = power base exponent * base := rfl

/-- Does the number fit into so many bits of which one is its sign? -/
def fitsSigned (bits : Nat) (n : Int) : Bool :=
  -(power 2 (bits - 1) : Int) ≤ n && n < (power 2 (bits - 1) : Int)

/-- Does the number fit into so many bits without a sign? -/
def fitsUnsigned (bits : Nat) (n : Int) : Bool := 0 ≤ n && n < (power 2 bits : Int)

end ExportDesk
