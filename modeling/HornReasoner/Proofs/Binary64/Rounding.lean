/-
# Rounding stays on the grid

A positive value `m · 2 ^ e` is rounded to a multiple of `2 ^ grid m e`, where the grid is
as fine as 53 bits allow and not finer than `2 ^ -1074`. Of the significand, the bits below
the grid are dropped, and what is kept goes up by at most one; 54 bits are shifted once
more. So the result is a zero or canonical, lies at or just above the grid, and is not
below what was kept (`Binary64.roundsTo_roundWithAccuracy`). That is all that is needed of
rounding here: which of the two neighbours on the grid is the nearer does not matter.

Key definitions: `Binary64.grid`, `Binary64.RoundsTo`.
Key theorems: `Binary64.roundsTo_roundWithAccuracy`, `Binary64.RoundsTo.exists_canonical`.
-/
import HornReasoner.Proofs.Binary64.Packing

namespace HornReasoner
namespace Binary64

open Float.Model (UnpackedFloat Format totalExponent)
open Float.Model.UnpackedFloat

variable {s : Sign} {m n k : ℕ} {e : ℤ} {u : UnpackedFloat}

/-! ### The grid -/

/-- The exponent of the grid on which a value is rounded. -/
def grid (m : ℕ) (e : ℤ) : ℤ :=
  max (m.log2 + e - 52) (-1074)

theorem targetExponent_eq (m : ℕ) (e : ℤ) :
    Format.binary64.targetExponent (totalExponent m e) = grid m e := by
  show max ((m.log2 : ℤ) + 1 + e - 53) (-1074) = _
  unfold grid
  omega

theorem log2_mul_two_pow (hm : 0 < m) (k : ℕ) : (m * 2 ^ k).log2 = m.log2 + k := by
  have hne : m * 2 ^ k ≠ 0 := (Nat.mul_pos hm (Nat.two_pow_pos k)).ne'
  rw [Nat.log2_eq_iff hne, Nat.pow_add, Nat.add_right_comm, Nat.pow_add]
  exact ⟨Nat.mul_le_mul_right _ (Nat.log2_self_le hm.ne'),
    Nat.mul_lt_mul_of_pos_right Nat.lt_log2_self (Nat.two_pow_pos k)⟩

theorem grid_mul_two_pow (hm : 0 < m) (k : ℕ) (e : ℤ) : grid (m * 2 ^ k) (e - k) = grid m e := by
  unfold grid
  rw [log2_mul_two_pow hm]
  omega

theorem log2_lt_of_lt (h : m < 2 ^ 53) : m.log2 < 53 := by
  obtain rfl | hm := Nat.eq_zero_or_pos m
  · decide
  · exact (Nat.log2_lt hm.ne').mpr h

theorem grid_le_of_lt (h : m < 2 ^ 53) (he : -1074 ≤ e) : grid m e ≤ e := by
  have := log2_lt_of_lt h
  unfold grid
  omega

/-- A canonical value lies on its own grid. -/
theorem Canonical.grid_eq (h : Canonical m e) : grid m e = e := by
  obtain ⟨hlt, hle, hnormal⟩ := h
  refine le_antisymm (grid_le_of_lt hlt hle) ?_
  obtain hbits | rfl := hnormal
  · have : 52 ≤ m.log2 := (Nat.le_log2 (by omega)).mpr hbits
    unfold grid
    omega
  · exact le_max_right _ _

theorem shift_of_lt (h : m < 2 ^ 53) (he : -1074 ≤ e) : (grid m e - e).toNat = 0 := by
  have := grid_le_of_lt h he
  omega

theorem shift_two_pow (he : -1074 ≤ e) : (grid (2 ^ 53) e - e).toNat = 1 := by
  unfold grid
  rw [Nat.log2_two_pow]
  omega

/-- What is kept of a significand on the grid has at most 53 bits. -/
theorem kept_lt (m : ℕ) (e : ℤ) : m / 2 ^ (grid m e - e).toNat < 2 ^ 53 := by
  rw [Nat.div_lt_iff_lt_mul (Nat.two_pow_pos _), ← Nat.pow_add]
  calc m < 2 ^ (m.log2 + 1) := Nat.lt_log2_self
    _ ≤ 2 ^ (53 + (grid m e - e).toNat) := Nat.pow_le_pow_right (by decide) (by unfold grid; omega)

/-- It has exactly 53 bits above the least grid. -/
theorem le_kept (hm : 0 < m) (he : e ≤ grid m e) (hgrid : grid m e ≠ -1074) :
    2 ^ 52 ≤ m / 2 ^ (grid m e - e).toNat := by
  rw [Nat.le_div_iff_mul_le (Nat.two_pow_pos _), ← Nat.pow_add]
  calc 2 ^ (52 + (grid m e - e).toNat) ≤ 2 ^ m.log2 :=
        Nat.pow_le_pow_right (by decide) (by unfold grid at *; omega)
    _ ≤ m := Nat.log2_self_le hm.ne'

/-- Something is kept of a value that is not below the least grid. -/
theorem kept_pos (hm : 0 < m) (hlow : -1074 ≤ m.log2 + e) :
    0 < m / 2 ^ (grid m e - e).toNat := by
  refine Nat.div_pos ?_ (Nat.two_pow_pos _)
  calc 2 ^ (grid m e - e).toNat ≤ 2 ^ m.log2 :=
        Nat.pow_le_pow_right (by decide) (by unfold grid at *; omega)
    _ ≤ m := Nat.log2_self_le hm.ne'

/-! ### Shifting a significand -/

theorem mantissa_shiftRight (k : ℕ) (x : ExtendedMantissa) : (x >>> k).mantissa = x.mantissa / 2 ^ k := by
  induction k with
  | zero => exact (Nat.div_one _).symm
  | succ k ih =>
    show (x >>> k).mantissa / 2 = _
    rw [ih, Nat.div_div_eq_div_mul, Nat.pow_succ]

/-- Rounding keeps a significand or adds one to it. -/
theorem roundedMantissa_bounds (x : ExtendedMantissa) :
    x.mantissa ≤ x.roundedMantissa ∧ x.roundedMantissa ≤ x.mantissa + 1 := by
  obtain ⟨m, _ | _, _ | _⟩ := x <;>
    simp only [ExtendedMantissa.roundedMantissa, ExtendedMantissa.accuracy, Accuracy.roundToNearestEven] <;>
    omega

theorem mantissa_shiftToTargetExponent (m : ℕ) (e : ℤ) (a : Accuracy) :
    (shiftToTargetExponent .binary64 m e a).1.mantissa = m / 2 ^ (grid m e - e).toNat := by
  unfold shiftToTargetExponent shiftToExponent
  rw [targetExponent_eq, mantissa_shiftRight]
  obtain _ | (_ | _ | _) := a <;> rfl

theorem exponent_shiftToTargetExponent (m : ℕ) (e : ℤ) (a : Accuracy) :
    (shiftToTargetExponent .binary64 m e a).2 = e + (grid m e - e).toNat := by
  unfold shiftToTargetExponent shiftToExponent
  rw [targetExponent_eq]

/-! ### Rounding -/

/-- What a positive value with a sign may be rounded to: a zero, if nothing is kept on the grid, or a
canonical value that is not below what is kept. -/
inductive RoundsTo (s : Sign) (m : ℕ) (e : ℤ) : UnpackedFloat → Prop
  | zero (kept : m / 2 ^ (grid m e - e).toNat = 0) : RoundsTo s m e (.zero s)
  | finite {m' : ℕ} {e' : ℤ} (hm' : 0 < m') (canonical : Canonical m' e') (ge : grid m e ≤ e')
      (le : e' ≤ grid m e + 1) (kept : e' = grid m e → m / 2 ^ (grid m e - e).toNat ≤ m') :
      RoundsTo s m e (.finite s m' e' hm')

/-- **Rounding stays on the grid.** -/
theorem roundsTo_roundWithAccuracy (s : Sign) (hm : 0 < m) (he : e ≤ grid m e) (a : Accuracy) :
    RoundsTo s m e (roundWithAccuracy .binary64 s m e a) := by
  unfold roundWithAccuracy
  have hmantissa := mantissa_shiftToTargetExponent m e a
  have hexponent := exponent_shiftToTargetExponent m e a
  generalize shiftToTargetExponent .binary64 m e a = first at hmantissa hexponent
  obtain ⟨x, t⟩ := first
  dsimp only at hmantissa hexponent ⊢
  obtain rfl : t = grid m e := by omega
  obtain ⟨hle, hge⟩ := roundedMantissa_bounds x
  have hkept := kept_lt m e
  rw [hmantissa] at hle hge
  have hmantissa' := mantissa_shiftToTargetExponent x.roundedMantissa (grid m e) .exact
  have hexponent' := exponent_shiftToTargetExponent x.roundedMantissa (grid m e) .exact
  generalize shiftToTargetExponent .binary64 x.roundedMantissa (grid m e) .exact = second
    at hmantissa' hexponent'
  obtain ⟨y, t⟩ := second
  dsimp only at hmantissa' hexponent' ⊢
  have hlow : -1074 ≤ grid m e := le_max_right _ _
  by_cases hfits : x.roundedMantissa < 2 ^ 53
  · rw [shift_of_lt hfits hlow] at hmantissa' hexponent'
    rw [Nat.pow_zero, Nat.div_one] at hmantissa'
    split
    · exact .zero (by omega)
    · refine .finite _ ⟨by omega, by omega, ?_⟩ (by omega) (by omega) (fun _ => by omega)
      by_cases hgrid : grid m e = -1074
      · exact Or.inr (by omega)
      · exact Or.inl (by have := le_kept hm he hgrid; omega)
  · -- All 53 bits were set and went up: the significand is shifted once more.
    have hfull : x.roundedMantissa = 2 ^ 53 := by omega
    rw [hfull, shift_two_pow hlow] at hmantissa' hexponent'
    split
    · omega
    · exact .finite _ ⟨by omega, by omega, Or.inl (by omega)⟩ (by omega) (by omega) (fun _ => by omega)

/-- **A value that is not below the least grid is not lost.** -/
theorem RoundsTo.exists_canonical (h : RoundsTo s m e u) (hm : 0 < m) (hlow : -1074 ≤ m.log2 + e) :
    ∃ m' e' hm', u = .finite s m' e' hm' ∧ Canonical m' e' ∧ grid m e ≤ e' ∧ e' ≤ grid m e + 1 ∧
      (e' = grid m e → m / 2 ^ (grid m e - e).toNat ≤ m') := by
  cases h with
  | zero kept => exact absurd kept (kept_pos hm hlow).ne'
  | finite hm' canonical ge le kept => exact ⟨_, _, hm', rfl, canonical, ge, le, kept⟩

/-- A value above its grid is brought down to it first. -/
theorem roundsTo_round (s : Sign) (hm : 0 < m) (e : ℤ) :
    RoundsTo s (m * 2 ^ (e - grid m e).toNat) (e - (e - grid m e).toNat)
      (UnpackedFloat.round .binary64 s m e) := by
  unfold UnpackedFloat.round decreaseExponent
  rw [targetExponent_eq]
  dsimp only
  rw [Nat.shiftLeft_eq]
  refine roundsTo_roundWithAccuracy s (Nat.mul_pos hm (Nat.two_pow_pos _)) ?_ .exact
  rw [grid_mul_two_pow hm]
  omega

end Binary64
end HornReasoner
