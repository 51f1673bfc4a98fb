/-
# The fewest decimal digits that read back

The reals that round to a binary64 value form an interval around it, whose ends
belong to it when the significand is even. Among the decimals of that interval
the printed one has the fewest digits, and of those it is the nearest to the
value. Grids of one, two, … seventeen digits are tried in turn: if a grid has a
point in the interval, one of the value's two neighbours on that grid is in it.

Key definitions: `Decimal.Scaled`, `Decimal.Tie`, `Decimal.candidate?`,
`Decimal.shortest`.
-/
import HornReasoner.Decimal.Binary64

namespace HornReasoner
namespace Decimal

/-- The number `digits · 10 ^ exponent`. -/
structure Scaled where
  digits : Nat
  exponent : Int
  deriving DecidableEq, Repr

/-- Which of two equally near neighbours is taken. -/
inductive Tie
  | toEven
  | upward
  deriving DecidableEq, Repr

/-- Numerator and denominator of `2 ^ q / 10 ^ k`. -/
def gridRatio (q k : Int) : Nat × Nat :=
  (Nat.pow 2 q.toNat * Nat.pow 10 (-k).toNat, Nat.pow 2 (-q).toNat * Nat.pow 10 k.toNat)

/-- The exponent of the leading decimal digit of a positive value. The smallest binary64 value is
above `10 ^ -324`, so scaling by `10 ^ 400` leaves an integer part. -/
def leadingExponent (v : Dyadic) : Int :=
  let scaled := v.significand * Nat.pow 2 v.exponent.toNat * Nat.pow 10 400 / Nat.pow 2 (-v.exponent).toNat
  ((Nat.toDigits 10 scaled).length : Int) - 401

/-- Four times the distance from a value to the lower end of its interval, in units of the last
binary place: half a place, or a quarter where the binade below is finer. -/
def lowerGap (v : Dyadic) : Nat :=
  if v.significand = Nat.pow 2 52 ∧ v.exponent ≠ -1074 then 1 else 2

/-- The multiple of `10 ^ k` that lies in the interval of the value and is nearest to it. -/
def candidate? (tie : Tie) (v : Dyadic) (k : Int) : Option Nat :=
  let (p, q) := gridRatio (v.exponent - 2) k
  let value := 4 * v.significand * p
  let low := (4 * v.significand - lowerGap v) * p
  let high := (4 * v.significand + 2) * p
  let inside (c : Nat) : Bool :=
    if v.significand % 2 = 0 then low ≤ c * q && c * q ≤ high else low < c * q && c * q < high
  let below := value / q
  let above := below + 1
  let nearer : Nat :=
    match compare (value - below * q) (above * q - value) with
    | .lt => below
    | .gt => above
    | .eq => if tie = .toEven && below % 2 = 0 then below else above
  match inside below, inside above with
  | true, true => some nearer
  | true, false => some below
  | false, true => some above
  | false, false => none

/-- Moves trailing zeros of the digits into the exponent. -/
def stripZeros (digits : Nat) (exponent : Int) : Scaled :=
  if digits ≠ 0 ∧ digits % 10 = 0 then stripZeros (digits / 10) (exponent + 1)
  else ⟨digits, exponent⟩
termination_by digits
decreasing_by omega

/-- The shortest decimal that reads back as the value. -/
def shortest (tie : Tie) (v : Dyadic) : Scaled :=
  if v.significand = 0 then ⟨0, 0⟩
  else
    let lead := leadingExponent v
    let grids := (List.range 17).map fun n => lead - Int.ofNat n
    match grids.findSome? fun k => (candidate? tie v k).map (·, k) with
    | some (digits, k) => stripZeros digits k
    | none => ⟨0, 0⟩

end Decimal
end HornReasoner
