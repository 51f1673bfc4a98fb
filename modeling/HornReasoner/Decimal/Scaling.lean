/-
# Reading decimals by scaling

The digits of a numeral, taken as one integer below `2 ^ 64`, become a float, and
this float is multiplied or divided by the float of a power of ten. Each of these
steps rounds to nearest, so the value read may be a neighbour of the nearest one.
It is the nearest one when neither the integer nor the power is rounded, that is
when they are at most `2 ^ 53` and `10 ^ 22`.

Digits that the integer has no room for count as zeros before the point and as
nothing after it.

Key definitions: `Decimal.takeDigits`, `Decimal.scaled?`, `Decimal.scaleDigits?`.
Key theorem: `Decimal.takeDigits_of_lt`.
-/
import HornReasoner.Decimal.Numeral

namespace HornReasoner
namespace Decimal

/-- Appends digits to a number as long as it stays below `2 ^ 64`; the digits that are left are the
second part. -/
def takeDigits (n : Nat) : List Char → Nat × List Char
  | [] => (n, [])
  | c :: cs =>
    let m := 10 * n + (c.toNat - '0'.toNat)
    if m < Nat.pow 2 64 then takeDigits m cs else (n, c :: cs)

theorem le_foldl_digits : ∀ (n : Nat) (cs : List Char),
    n ≤ cs.foldl (fun n c => 10 * n + (c.toNat - '0'.toNat)) n
  | _, [] => Nat.le_refl _
  | n, c :: cs => by
    have ih := le_foldl_digits (10 * n + (c.toNat - '0'.toNat)) cs
    rw [List.foldl_cons]
    omega

/-- Digits whose number is below `2 ^ 64` are all taken. -/
theorem takeDigits_of_lt : ∀ {n : Nat} {cs : List Char},
    cs.foldl (fun n c => 10 * n + (c.toNat - '0'.toNat)) n < Nat.pow 2 64 →
      takeDigits n cs = (cs.foldl (fun n c => 10 * n + (c.toNat - '0'.toNat)) n, [])
  | _, [], _ => rfl
  | n, c :: cs, h => by
    rw [List.foldl_cons] at h ⊢
    have hm := Nat.lt_of_le_of_lt (le_foldl_digits (10 * n + (c.toNat - '0'.toNat)) cs) h
    rw [takeDigits, if_pos hm]
    exact takeDigits_of_lt h

/-- The float nearest to a power of ten. -/
def powerOfTen (n : Nat) : Float :=
  OfScientific.ofScientific 1 false n

/-- A float over a power of ten. A power beyond the floats is split off in steps of `10 ^ 308` until
nothing is left of the float. -/
def scaleDown (x : Float) (n : Nat) : Float :=
  if n ≤ 308 then x / powerOfTen n
  else if x == 0.0 then x
  else scaleDown (x / powerOfTen 308) (n - 308)
termination_by n

/-- A float times a power of ten, unless that is beyond the finite floats. -/
def scaled? (x : Float) (exponent : Int) : Option Float :=
  if exponent < 0 then some (scaleDown x exponent.natAbs)
  else if x == 0.0 then some x
  else if 308 < exponent then none
  else
    let y := x * powerOfTen exponent.natAbs
    if y.isFinite then some y else none

/-- The float of the digits before and after a point, with an exponent and a sign. -/
def scaleDigits? (negative : Bool) (whole fraction : List Char) (exponent : Int) : Option Float :=
  let (n, zeros) := takeDigits 0 whole
  let (n, lost) := takeDigits n fraction
  let places : Int := (fraction.length : Int) - lost.length
  (scaled? (Float.ofNat n) (exponent + zeros.length - places)).map fun x =>
    if negative then -x else x

end Decimal
end HornReasoner
