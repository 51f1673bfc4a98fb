/-
# Decimal notation of binary64 values

Three notations of the shortest digits and one with fixed places. A tie between
two shortest decimals goes upward in `positional` and `scientific`, and to the
even digit in `compact`; a tie in `fixed` goes to the even digit.

Key definitions: `Decimal.positional`, `Decimal.scientific`, `Decimal.compact`,
`Decimal.fixed`, `Decimal.percent`.
-/
import HornReasoner.Decimal.Shortest

namespace HornReasoner
namespace Decimal

/-- The decimal digits of a natural number. -/
def digitsText (n : Nat) : String :=
  String.ofList (Nat.toDigits 10 n)

/-- `n` zeros. -/
def zeros (n : Nat) : String :=
  String.ofList (List.replicate n '0')

/-- The minus sign of a negative value. -/
def signText (negative : Bool) : String :=
  if negative then "-" else ""

/-- Digits written around the point; an integer has none. -/
def Scaled.plain (s : Scaled) : String :=
  let digits := Nat.toDigits 10 s.digits
  if 0 ≤ s.exponent then
    if s.digits = 0 then "0" else digitsText s.digits ++ zeros s.exponent.toNat
  else
    let places := (-s.exponent).toNat
    if places < digits.length then
      String.ofList (digits.take (digits.length - places)) ++ "." ++
        String.ofList (digits.drop (digits.length - places))
    else "0." ++ zeros (places - digits.length) ++ digitsText s.digits

/-- One digit before the point and the exponent of that digit. -/
def Scaled.mantissa (s : Scaled) : String × Int :=
  let digits := Nat.toDigits 10 s.digits
  (match digits with
    | [] => "0"
    | [d] => String.ofList [d]
    | d :: ds => String.ofList (d :: '.' :: ds),
    if s.digits = 0 then 0 else s.exponent + digits.length - 1)

/-- An integer in decimal, with a sign only when negative. -/
def intText (i : Int) : String :=
  signText (i < 0) ++ digitsText i.natAbs

/-- Writes a float by its magnitude, with `NaN` unsigned and infinity as `inf`. -/
def signed (x : Float) (write : Dyadic → String) : String :=
  match magnitude x with
  | .notANumber => "NaN"
  | .infinite => signText (isNegative x) ++ "inf"
  | .finite v => signText (isNegative x) ++ write v

/-- Shortest digits without an exponent, whatever the size: `0.7`, `2`, `100000000000000000000`. -/
def positional (x : Float) : String :=
  signed x fun v => (shortest .upward v).plain

/-- Shortest digits with one before the point and an exponent: `8.5e-1`, `0e0`. -/
def scientific (x : Float) : String :=
  signed x fun v =>
    let (mantissa, exponent) := (shortest .upward v).mantissa
    mantissa ++ "e" ++ intText exponent

/-- Shortest digits, with a fraction where the leading digit stands between the fifth place after
the point and the sixteenth before it, and else with a signed exponent: `100.0`, `1e+16`, `1e-6`. -/
def compact (x : Float) : String :=
  signed x fun v =>
    let s := shortest .toEven v
    let (mantissa, exponent) := s.mantissa
    if -5 ≤ exponent ∧ exponent < 16 then
      s.plain ++ if 0 ≤ s.exponent then ".0" else ""
    else mantissa ++ "e" ++ (if 0 < exponent then "+" else "") ++ intText exponent

/-- The nearest integer to a quotient, a half going to the even neighbour. -/
def roundDiv (num den : Nat) : Nat :=
  let floor := num / den
  match compare (2 * (num % den)) den with
  | .lt => floor
  | .gt => floor + 1
  | .eq => if floor % 2 = 0 then floor else floor + 1

/-- The exact value rounded to a number of places after the point. -/
def fixed (places : Nat) (x : Float) : String :=
  signed x fun v =>
    let units := roundDiv (v.significand * Nat.pow 2 v.exponent.toNat * Nat.pow 10 places)
      (Nat.pow 2 (-v.exponent).toNat)
    let fraction := digitsText (units % Nat.pow 10 places)
    digitsText (units / Nat.pow 10 places) ++ "." ++ zeros (places - fraction.length) ++ fraction

/-- A share of one as a percentage with two places. -/
def percent (x : Float) : String :=
  fixed 2 (x * 100.0) ++ "%"

end Decimal
end HornReasoner
