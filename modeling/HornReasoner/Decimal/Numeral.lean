/-
# Reading decimals

A numeral is an integer of decimal digits scaled by a power of ten. Its value as
a `Float` is the nearest one, ties to even; an exponent so large or so small that
the digits cannot matter gives infinity or zero.

Key definitions: `Decimal.Numeral`, `Decimal.Numeral.toFloat`, `Decimal.readFloat?`.
-/
namespace HornReasoner
namespace Decimal

/-- The number `digits · 10 ^ exponent` with a sign. -/
structure Numeral where
  negative : Bool
  digits : Nat
  exponent : Int
  deriving DecidableEq, Repr

/-- The value of a run of decimal digits. -/
def digitsValue (cs : List Char) : Nat :=
  cs.foldl (fun n c => 10 * n + (c.toNat - '0'.toNat)) 0

/-- The nearest binary64 value. The leading digit alone decides beyond `10 ^ 310` and below
`10 ^ -330`. -/
def Numeral.toFloat (n : Numeral) : Float :=
  let size : Int := n.exponent + (Nat.toDigits 10 n.digits).length
  let positive : Float :=
    if n.digits = 0 ∨ size < -330 then 0.0
    else if 310 < size then 1.0 / 0.0
    else OfScientific.ofScientific n.digits (n.exponent < 0) n.exponent.natAbs
  if n.negative then -positive else positive

/-- The numeral with the given digits before and after the point and exponent. -/
def Numeral.ofParts (negative : Bool) (whole fraction : List Char) (exponent : Int) : Numeral :=
  ⟨negative, digitsValue (whole ++ fraction), exponent - fraction.length⟩

/-- Splits a sign off. -/
def readSign : List Char → Bool × List Char
  | '-' :: cs => (true, cs)
  | '+' :: cs => (false, cs)
  | cs => (false, cs)

/-- The fraction after a point, if one follows. -/
def readFraction : List Char → List Char × List Char
  | '.' :: cs => cs.span Char.isDigit
  | cs => ([], cs)

/-- The exponent that ends a numeral: none, or a mark, a sign and digits up to the end. -/
def readExponent? : List Char → Option Int
  | [] => some 0
  | c :: cs =>
    if c = 'e' ∨ c = 'E' then
      let (negative, digits) := readSign cs
      if digits.isEmpty || !digits.all Char.isDigit then none
      else some (if negative then -(digitsValue digits : Int) else digitsValue digits)
    else none

/-- Reads a decimal with optional sign, fraction and exponent; at least one digit must stand before
the exponent. `NaN`, `inf` and `infinity` are read in either case. -/
def readFloat? (s : String) : Option Float :=
  let (negative, cs) := readSign s.toList
  let word := cs.map Char.toLower
  if word = "inf".toList ∨ word = "infinity".toList then
    some (if negative then -(1.0 / 0.0) else 1.0 / 0.0)
  else if word = "nan".toList then some (0.0 / 0.0)
  else
    let (whole, cs) := cs.span Char.isDigit
    let (fraction, cs) := readFraction cs
    if whole.isEmpty && fraction.isEmpty then none
    else (readExponent? cs).map fun e => (Numeral.ofParts negative whole fraction e).toFloat

end Decimal
end HornReasoner
