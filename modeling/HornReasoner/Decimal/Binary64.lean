/-
# Binary64 values as exact fractions

A finite value of `Float` is `significand · 2 ^ exponent` with a sign. Printing
works on these integers, so no digit depends on floating arithmetic.

Key definitions: `Decimal.Dyadic`, `Decimal.Dyadic.ofFloat`, `Decimal.Magnitude`,
`Decimal.magnitude`.
-/
namespace HornReasoner
namespace Decimal

/-- The number `significand · 2 ^ exponent`. -/
structure Dyadic where
  significand : Nat
  exponent : Int
  deriving DecidableEq, Repr

/-- What a `Float` stands for, its sign apart. -/
inductive Magnitude
  | notANumber
  | infinite
  | finite (value : Dyadic)
  deriving DecidableEq, Repr

/-- The sign bit is set; the sign of a zero counts. -/
def isNegative (x : Float) : Bool :=
  x.toBits.toNat / Nat.pow 2 63 == 1

/-- The magnitude that the lower 63 bits encode: 11 bits of exponent over 52 of fraction. -/
def magnitude (x : Float) : Magnitude :=
  let bits := x.toBits.toNat
  let fraction : Nat := bits % Nat.pow 2 52
  let exponent : Nat := bits / Nat.pow 2 52 % Nat.pow 2 11
  if exponent = 2047 then
    if fraction = 0 then .infinite else .notANumber
  else if exponent = 0 then .finite ⟨fraction, -1074⟩
  else .finite ⟨Nat.pow 2 52 + fraction, Int.ofNat exponent - 1075⟩

end Decimal
end HornReasoner
