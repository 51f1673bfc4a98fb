/-
# Floats that are numbers stand in a row

What a float encodes decides how it compares: the kind and the sign first, then the
exponent, then the significand. So each number has a place in a row, the two zeros the
same one, and of two numbers the one is below the other if its place is
(`Binary64.lt_iff`, `Binary64.le_iff`). What is no number has no place: it is neither
below nor above anything, itself included. Hence `¬ x < y` says `y ≤ x` of numbers only
(`Binary64.not_lt`), and to be at least something is to be a number.

Key definitions: `Binary64.parts`, `Binary64.place`, `Binary64.InUnit`.
Key theorems: `Binary64.lt_iff`, `Binary64.le_iff`, `Binary64.not_lt`, `Binary64.le_trans`.
-/
import Mathlib

namespace HornReasoner
namespace Binary64

open Float.Model (UnpackedFloat)

variable {x y z : Float} {u v : UnpackedFloat}

/-- What a float encodes: its kind and sign and, if it is finite, its significand and exponent. -/
def parts (x : Float) : UnpackedFloat :=
  x.toModel.unpack

/-- Where a number stands in the row of all numbers. -/
def place : UnpackedFloat → ℤ ×ₗ ℤ ×ₗ ℤ
  | .infinity .negative => toLex (-2, toLex (0, 0))
  | .finite .negative m e _ => toLex (-1, toLex (-e, -m))
  | .zero _ => toLex (0, toLex (0, 0))
  | .finite .positive m e _ => toLex (1, toLex (e, m))
  | .infinity .positive => toLex (2, toLex (0, 0))
  | .notANumber => toLex (3, toLex (0, 0))

/-! ### Comparing by place -/

theorem compare_natCast (m n : ℕ) : compare (m : ℤ) (n : ℤ) = compare m n := by
  rw [← cmp_eq_compare, ← cmp_eq_compare]
  exact Nat.strictMono_cast.cmp_map_eq m n

theorem compare_neg_neg (a b : ℤ) : compare (-a) (-b) = (compare a b).swap := by
  have hanti : StrictAnti fun i : ℤ => -i := fun _ _ h => Int.neg_lt_neg h
  rw [← cmp_eq_compare, ← cmp_eq_compare, cmp_swap]
  exact hanti.cmp_map_eq a b

theorem compare_toLex (a b c a' b' c' : ℤ) :
    compare (toLex (a, toLex (b, c))) (toLex (a', toLex (b', c'))) =
      (compare a a').then ((compare b b').then (compare c c')) :=
  rfl

theorem compare_eq (hu : u.isNaN = false) (hv : v.isNaN = false) :
    u.compare v = some (compare (place u) (place v)) := by
  rcases u with (_ | _) | _ | (_ | _) | ⟨_ | _, m, e, _⟩ <;>
    rcases v with (_ | _) | _ | (_ | _) | ⟨_ | _, m', e', _⟩ <;>
    simp only [UnpackedFloat.isNaN, reduceCtorEq] at hu hv <;>
    simp only [UnpackedFloat.compare, place, compare_toLex]
  all_goals try rfl
  · -- Of two negative numbers the one with the greater magnitude is the lower.
    rw [compare_neg_neg e e', compare_neg_neg m m', compare_natCast, Ordering.swap_then]
    rfl
  · rw [compare_natCast]
    rfl

theorem compare_of_isNaN (h : u.isNaN = true ∨ v.isNaN = true) : u.compare v = none := by
  cases u <;> cases v <;> first | rfl | simp [UnpackedFloat.isNaN] at h

/-! ### The order of numbers -/

theorem isNaN_eq (x : Float) : x.isNaN = (parts x).isNaN := rfl

theorem lt_iff_compare : x < y ↔ (parts x).compare (parts y) = some .lt := by
  show decide ((parts x).lt (parts y) = true) = true ↔ _
  simp [UnpackedFloat.lt]

theorem le_iff_compare : x ≤ y ↔ ((parts x).compare (parts y)).any (·.isLE) = true := by
  show decide ((parts x).le (parts y) = true) = true ↔ _
  rw [decide_eq_true_iff]
  rfl

theorem lt_iff : x < y ↔ x.isNaN = false ∧ y.isNaN = false ∧ place (parts x) < place (parts y) := by
  rw [lt_iff_compare, isNaN_eq, isNaN_eq]
  by_cases hnan : (parts x).isNaN = true ∨ (parts y).isNaN = true
  · rw [compare_of_isNaN hnan]
    rcases hnan with h | h <;> simp [h]
  · have hx : (parts x).isNaN = false := eq_false_of_ne_true fun h => hnan (Or.inl h)
    have hy : (parts y).isNaN = false := eq_false_of_ne_true fun h => hnan (Or.inr h)
    rw [compare_eq hx hy, Option.some.injEq, compare_lt_iff_lt]
    simp [hx, hy]

theorem le_iff : x ≤ y ↔ x.isNaN = false ∧ y.isNaN = false ∧ place (parts x) ≤ place (parts y) := by
  rw [le_iff_compare, isNaN_eq, isNaN_eq]
  by_cases hnan : (parts x).isNaN = true ∨ (parts y).isNaN = true
  · rw [compare_of_isNaN hnan]
    rcases hnan with h | h <;> simp [h]
  · have hx : (parts x).isNaN = false := eq_false_of_ne_true fun h => hnan (Or.inl h)
    have hy : (parts y).isNaN = false := eq_false_of_ne_true fun h => hnan (Or.inr h)
    rw [compare_eq hx hy, Option.any_some, ← compare_le_iff_le]
    simp [hx, hy, Ordering.isLE_iff_ne_gt]

protected theorem le_of_lt (h : x < y) : x ≤ y := by
  obtain ⟨hx, hy, hplace⟩ := lt_iff.mp h
  exact le_iff.mpr ⟨hx, hy, hplace.le⟩

protected theorem le_trans (hxy : x ≤ y) (hyz : y ≤ z) : x ≤ z := by
  obtain ⟨hx, -, h⟩ := le_iff.mp hxy
  obtain ⟨-, hz, h'⟩ := le_iff.mp hyz
  exact le_iff.mpr ⟨hx, hz, h.trans h'⟩

protected theorem le_refl (hx : x.isNaN = false) : x ≤ x :=
  le_iff.mpr ⟨hx, hx, le_rfl⟩

/-- **Of two numbers the one is below the other or not above it.** -/
protected theorem not_lt (hx : x.isNaN = false) (hy : y.isNaN = false) : ¬ x < y ↔ y ≤ x := by
  rw [lt_iff, le_iff, hx, hy]
  simp

protected theorem not_lt_of_le (h : y ≤ x) : ¬ x < y := by
  obtain ⟨hy, hx, -⟩ := le_iff.mp h
  exact (Binary64.not_lt hx hy).mpr h

/-- What is no number is not below anything. -/
theorem not_lt_of_isNaN (hx : x.isNaN = true) : ¬ x < y := by
  rw [lt_iff, hx]
  simp

/-! ### The unit interval -/

/-- The number is at least zero and at most one. -/
def InUnit (x : Float) : Prop :=
  0.0 ≤ x ∧ x ≤ 1.0

theorem InUnit.isNaN (h : InUnit x) : x.isNaN = false :=
  (le_iff.mp h.1).2.1

end Binary64
end HornReasoner
