/-
# Sums, products and quotients of numbers

Which operations give a number is a matter of kinds: a sum with a finite term does
(`Binary64.isNaN_add`), a product with a finite factor that is not zero, and a quotient with
such a side. That such an operation overflows or vanishes does no harm.

That a sum is not below its first term is a matter of rounding. A float is canonical, so it
lies on its own grid; the sum with a positive value is rounded on a grid that is as coarse
or coarser, and rounding keeps what lies on the grid (`Binary64.place_le_round`,
`Binary64.le_add`).

A count is converted through a product with one, or, from 53 bits on, rounded at once. With
64 bits it neither vanishes nor overflows (`Binary64.isFiniteValue_ofNat`).

Key definition: `Binary64.IsFiniteValue`.
Key theorems: `Binary64.isNaN_add`, `Binary64.isNaN_mul`, `Binary64.isNaN_div`,
`Binary64.zero_le_iff`, `Binary64.le_add`, `Binary64.hasSign_ofNat`,
`Binary64.isFiniteValue_ofNat`.
-/
import HornReasoner.Proofs.Binary64.Rounding

namespace HornReasoner
namespace Binary64

open Float.Model (UnpackedFloat Format)
open Float.Model.UnpackedFloat

variable {x y : Float} {s t : Sign} {m n : ℕ} {e : ℤ} {u v : UnpackedFloat}

/-! ### Operations on parts -/

theorem parts_add (x y : Float) : parts (x + y) = stored (add .binary64 (parts x) (parts y)) := rfl

theorem parts_sub (x y : Float) : parts (x - y) = stored (sub .binary64 (parts x) (parts y)) := rfl

theorem parts_mul (x y : Float) : parts (x * y) = stored (mul .binary64 (parts x) (parts y)) := rfl

theorem parts_div (x y : Float) : parts (x / y) = stored (div .binary64 (parts x) (parts y)) := rfl

/-! ### Signs -/

theorem hasSign_roundWithAccuracy (s : Sign) (m : ℕ) (e : ℤ) (a : Accuracy) :
    HasSign s (roundWithAccuracy .binary64 s m e a) := by
  unfold roundWithAccuracy
  dsimp only
  split <;> rfl

theorem hasSign_round (s : Sign) (m : ℕ) (e : ℤ) : HasSign s (UnpackedFloat.round .binary64 s m e) :=
  hasSign_roundWithAccuracy s _ _ _

theorem normalize_of_pos (hn : 0 < n) (e : ℤ) (s : Sign) :
    UnpackedFloat.normalize .binary64 n e s = UnpackedFloat.round .binary64 .positive n e := by
  unfold UnpackedFloat.normalize
  rw [show compare (n : ℤ) 0 = .gt from compare_gt_iff_gt.mpr (by omega)]
  rfl

theorem hasSign_normalize (n : ℕ) (e : ℤ) :
    HasSign .positive (UnpackedFloat.normalize .binary64 n e .positive) := by
  obtain rfl | hn := Nat.eq_zero_or_pos n
  · rfl
  · rw [normalize_of_pos hn]
    exact hasSign_round _ _ _

theorem isNaN_normalize (i e : ℤ) (s : Sign) :
    (UnpackedFloat.normalize .binary64 i e s).isNaN = false := by
  unfold UnpackedFloat.normalize
  split
  · exact (hasSign_round _ _ _).isNaN
  · rfl
  · exact (hasSign_round _ _ _).isNaN

/-- A sum of two positive finite values rounds their sum at the lower exponent. -/
theorem add_positive {m₁ m₂ : ℕ} {e₁ e₂ : ℤ} (h₁ : 0 < m₁) (h₂ : 0 < m₂) :
    add .binary64 (.finite .positive m₁ e₁ h₁) (.finite .positive m₂ e₂ h₂) =
      UnpackedFloat.round .binary64 .positive
        (m₁ * 2 ^ (e₁ - min e₁ e₂).toNat + m₂ * 2 ^ (e₂ - min e₁ e₂).toNat) (min e₁ e₂) := by
  rw [← normalize_of_pos (Nat.add_pos_left (Nat.mul_pos h₁ (Nat.two_pow_pos _)) _) _ .positive,
    ← Nat.shiftLeft_eq, ← Nat.shiftLeft_eq]
  rfl

theorem hasSign_add (hu : HasSign .positive u) (hv : HasSign .positive v) :
    HasSign .positive (add .binary64 u v) := by
  cases u <;> cases v <;> cases hu <;> cases hv <;> try rfl
  rw [add_positive]
  exact hasSign_round _ _ _

theorem hasSign_mul (hu : HasSign .positive u) (hm : 0 < m) :
    HasSign .positive (mul .binary64 u (.finite .positive m e hm)) := by
  cases u <;> cases hu <;> try rfl
  exact hasSign_roundWithAccuracy _ _ _ _

/-! ### Numbers -/

/-- A finite value is a number and no zero. -/
def IsFiniteValue : UnpackedFloat → Prop
  | .finite _ _ _ _ => True
  | _ => False

theorem isNaN_add_parts (hu : u.isNaN = false) (hv : v.isFinite = true) :
    (add .binary64 u v).isNaN = false := by
  cases u with
  | notANumber => cases hu
  | infinity s => cases v <;> cases hv <;> rfl
  | zero s =>
    cases v <;> cases hv
    · simp only [add]
      split <;> rfl
    · rfl
  | finite s m e hm =>
    cases v <;> cases hv
    · rfl
    · exact isNaN_normalize _ _ _

theorem sub_eq_add_neg (u v : UnpackedFloat) : sub .binary64 u v = add .binary64 u v.neg := by
  cases u <;> cases v <;> try rfl
  next s m e hm t m' e' hm' =>
    simp only [sub, add, neg]
    cases t <;> simp [Sign.apply, Int.sub_eq_add_neg]

/-- **A sum is a number** if one term is a number and the other is finite. -/
theorem isNaN_add (hx : x.isNaN = false) (hy : y.isFinite = true) : (x + y).isNaN = false := by
  rw [isNaN_eq, parts_add, isNaN_stored]
  exact isNaN_add_parts hx hy

theorem isNaN_sub (hx : x.isNaN = false) (hy : y.isFinite = true) : (x - y).isNaN = false := by
  rw [isNaN_eq, parts_sub, isNaN_stored, sub_eq_add_neg]
  refine isNaN_add_parts hx ?_
  replace hy : (parts y).isFinite = true := hy
  generalize parts y = v at hy
  cases v <;> cases hy <;> rfl

/-- **A product is a number** if one factor is a number and the other is finite and not zero. -/
theorem isNaN_mul (hx : IsFiniteValue (parts x)) (hy : y.isNaN = false) : (x * y).isNaN = false := by
  rw [isNaN_eq] at hy ⊢
  rw [parts_mul, isNaN_stored]
  generalize parts x = u, parts y = v at hx hy
  cases u <;> try exact hx.elim
  cases v with
  | notANumber => cases hy
  | infinity t => rfl
  | zero t => rfl
  | finite t m e hm => exact (hasSign_roundWithAccuracy _ _ _ _).isNaN

/-- **A quotient is a number** if both sides are, and one is finite and not zero. -/
theorem isNaN_div (hx : x.isNaN = false) (hy : y.isNaN = false)
    (h : IsFiniteValue (parts x) ∨ IsFiniteValue (parts y)) : (x / y).isNaN = false := by
  rw [isNaN_eq] at hx hy ⊢
  rw [parts_div, isNaN_stored]
  generalize parts x = u, parts y = v at hx hy h
  cases u with
  | notANumber => cases hx
  | infinity s =>
    cases v with
    | notANumber => cases hy
    | infinity t => exact (h.elim id id).elim
    | zero t => rfl
    | finite t m e hm => rfl
  | zero s =>
    cases v with
    | notANumber => cases hy
    | infinity t => rfl
    | zero t => exact (h.elim id id).elim
    | finite t m e hm => rfl
  | finite s m e hm =>
    cases v with
    | notANumber => cases hy
    | infinity t => rfl
    | zero t => rfl
    | finite t m' e' hm' => exact (hasSign_roundWithAccuracy _ _ _ _).isNaN

/-! ### Zero and above -/

theorem HasSign.zero_le (h : HasSign .positive (parts x)) : 0.0 ≤ x := by
  refine le_iff.mpr ⟨rfl, h.isNaN, ?_⟩
  show toLex ((0 : ℤ), toLex ((0 : ℤ), (0 : ℤ))) ≤ _
  generalize parts x = u at h
  cases u <;> cases h <;> simp [place, Prod.Lex.le_iff]

theorem zero_le_iff : 0.0 ≤ x ↔ HasSign .positive (parts x) ∨ parts x = .zero .negative := by
  constructor
  · intro h
    obtain ⟨-, hx, hplace⟩ := le_iff.mp h
    replace hplace : toLex ((0 : ℤ), toLex ((0 : ℤ), (0 : ℤ))) ≤ place (parts x) := hplace
    rw [isNaN_eq] at hx
    generalize parts x = u at hx hplace
    rcases u with (_ | _) | _ | (_ | _) | ⟨_ | _, m, e, hm⟩ <;>
      simp [place, Prod.Lex.le_iff, HasSign, UnpackedFloat.isNaN] at hx hplace ⊢
  · rintro (h | h)
    · exact h.zero_le
    · refine le_iff.mpr ⟨rfl, by rw [isNaN_eq, h]; rfl, ?_⟩
      rw [h]
      exact le_rfl

/-! ### A sum is not below its terms -/

/-- A canonical value is not above what a larger one is rounded to. -/
theorem place_le_round {m₀ : ℕ} {e₀ : ℤ} (hm₀ : 0 < m₀) (h : Canonical m₀ e₀) (he : e ≤ e₀)
    (hle : m₀ * 2 ^ (e₀ - e).toNat ≤ m) :
    place (.finite .positive m₀ e₀ hm₀) ≤ place (stored (UnpackedFloat.round .binary64 .positive m e)) := by
  have hm : 0 < m := (Nat.mul_pos hm₀ (Nat.two_pow_pos _)).trans_le hle
  -- The grid of the larger value is not below the exponent of the smaller one.
  have hlog : m₀.log2 + (e₀ - e).toNat ≤ m.log2 := by
    rw [← log2_mul_two_pow hm₀, Nat.le_log2 hm.ne']
    exact (Nat.log2_self_le (Nat.mul_pos hm₀ (Nat.two_pow_pos _)).ne').trans hle
  have hgrid : e₀ ≤ grid m e := by
    have heq := h.grid_eq
    unfold grid at *
    omega
  have hround := roundsTo_round .positive hm e
  rw [Int.toNat_of_nonpos (by omega), Nat.pow_zero, Nat.mul_one, Int.natCast_zero, Int.sub_zero] at hround
  have hlow : -1074 ≤ m.log2 + e := by
    have := h.le
    omega
  obtain ⟨m', e', hm', hround, hcanonical, hge, -, hkept⟩ := hround.exists_canonical hm hlow
  rw [hround]
  by_cases hoverflow : 972 ≤ e'
  · rw [stored_of_overflow hm' hoverflow]
    simp [place, Prod.Lex.le_iff]
  · rw [stored_of_canonical hm' hcanonical (by omega)]
    simp only [place, Prod.Lex.toLex_le_toLex]
    by_cases heq : e₀ = e'
    · have hkept' : m₀ ≤ m' := by
        refine le_trans ?_ (hkept (by omega))
        rw [Nat.le_div_iff_mul_le (Nat.two_pow_pos _)]
        rwa [show grid m e = e₀ by omega]
      exact Or.inr ⟨trivial, Or.inr ⟨heq, by exact_mod_cast hkept'⟩⟩
    · exact Or.inr ⟨trivial, Or.inl (by omega)⟩

theorem place_zero_le (s : Sign) (h : HasSign .positive u) : place (.zero s) ≤ place u := by
  cases u <;> cases h <;> simp [place, Prod.Lex.le_iff]

theorem place_le_infinity (h : HasSign s u) : place u ≤ place (.infinity .positive) := by
  rcases u with (_ | _) | _ | (_ | _) | ⟨_ | _, m, e, hm⟩ <;>
    first | exact h.elim | simp [place, Prod.Lex.le_iff]

theorem place_le_add (hu : HasSign .positive u) (hv : HasSign .positive v)
    (hcanonical : ∀ {s m e} {hm : 0 < m}, u = .finite s m e hm → Canonical m e ∧ e ≤ 971) :
    place u ≤ place (stored (add .binary64 u v)) := by
  cases u with
  | notANumber => exact hu.elim
  | zero s => exact place_zero_le s (hasSign_add hu hv).stored
  | infinity s =>
    cases hu
    cases v <;> cases hv <;> exact le_of_eq (congrArg place (stored_infinity _)).symm
  | finite s m e hm =>
    cases hu
    obtain ⟨hcanonical, hexponent⟩ := hcanonical rfl
    cases v with
    | notANumber => exact hv.elim
    | infinity t =>
      cases hv
      have hle : place (.finite .positive m e hm) ≤ place (.infinity .positive) :=
        place_le_infinity (s := .positive) rfl
      exact hle.trans (congrArg place (stored_infinity _)).ge
    | zero t => exact (congrArg place (stored_of_canonical hm hcanonical hexponent)).ge
    | finite t m' e' hm' =>
      cases hv
      rw [add_positive]
      exact place_le_round hm hcanonical (min_le_left _ _) (Nat.le_add_right _ _)

/-- **A sum is not below its first term** if that is at least zero and the other term is positive. -/
protected theorem le_add (hx : 0.0 ≤ x) (hy : HasSign .positive (parts y)) : x ≤ x + y := by
  have hcanonical : ∀ {s m e} {hm : 0 < m}, parts x = .finite s m e hm → Canonical m e ∧ e ≤ 971 :=
    canonical_of_parts
  have hxnum := (le_iff.mp hx).2.1
  rw [zero_le_iff] at hx
  rw [le_iff, isNaN_eq (x + y), parts_add]
  refine ⟨hxnum, ?_⟩
  generalize parts x = u, parts y = v at hx hy hcanonical
  rcases hx with hu | rfl
  · exact ⟨(hasSign_add hu hy).stored.isNaN, place_le_add hu hy hcanonical⟩
  · have hsum : HasSign .positive (add .binary64 (.zero .negative) v) := by
      cases v <;> cases hy <;> rfl
    exact ⟨hsum.stored.isNaN, place_zero_le _ hsum.stored⟩

/-! ### Counts -/

/-- A count of at most 53 bits is converted and then multiplied by one. -/
theorem parts_ofNat_of_lt (hn : n < 2 ^ 53) : parts (Float.ofNat n) =
    stored (mul .binary64 (stored (UnpackedFloat.normalize .binary64 n 0 .positive))
      (.finite .positive (2 ^ 52) (-52) (by decide))) := by
  have hword : n.toUInt64.toNat = n := Nat.mod_eq_of_lt (by omega)
  have hone : parts Float.exactlyRepresentablePowersOfTen[0] =
      .finite .positive (2 ^ 52) (-52) (by decide) := rfl
  show parts (Float.ofScientific n false 0) = _
  unfold Float.ofScientific
  rw [dif_pos ⟨hn, by decide⟩]
  show stored (mul .binary64 (stored (UnpackedFloat.normalize .binary64 n.toUInt64.toNat 0 .positive))
    (parts Float.exactlyRepresentablePowersOfTen[0])) = _
  rw [hword, hone]

/-- A greater count is rounded at once. -/
theorem parts_ofNat_of_le (hn : 2 ^ 53 ≤ n) : parts (Float.ofNat n) =
    stored (roundWithAccuracy .binary64 .positive (n * 2 ^ 53) (-53) .exact) := by
  show parts (Float.ofScientific n false 0) = _
  unfold Float.ofScientific
  rw [dif_neg (by omega)]
  show stored (ofScientific .binary64 n 0) = _
  unfold ofScientific
  have hrange : ¬ (0 : ℤ) < -(2 ^ 11 + n.log2) := by omega
  rw [dif_neg (by omega), if_neg (by decide), if_neg hrange, if_pos le_rfl]
  show stored (roundWithAccuracy .binary64 .positive (n <<< 53 * 1) (-53 + 0) .exact) = _
  rw [Nat.shiftLeft_eq, Nat.mul_one]
  rfl

/-- A count as a float is a number from zero on. -/
theorem hasSign_ofNat (n : ℕ) : HasSign .positive (parts (Float.ofNat n)) := by
  by_cases hn : n < 2 ^ 53
  · rw [parts_ofNat_of_lt hn]
    exact (hasSign_mul (hasSign_normalize n 0).stored (by decide)).stored
  · rw [parts_ofNat_of_le (by omega)]
    exact (hasSign_roundWithAccuracy _ _ _ _).stored

/-- A value is stored as it was rounded if it neither vanishes nor overflows. -/
theorem RoundsTo.exists_stored (h : RoundsTo s m e u) (hm : 0 < m) (hlow : -1074 ≤ m.log2 + e)
    (hhigh : grid m e ≤ 970) :
    ∃ m' e' hm', stored u = .finite s m' e' hm' ∧ Canonical m' e' ∧ e' ≤ grid m e + 1 := by
  obtain ⟨m', e', hm', rfl, hcanonical, -, hle, -⟩ := h.exists_canonical hm hlow
  exact ⟨m', e', hm', stored_of_canonical hm' hcanonical (by omega), hcanonical, hle⟩

/-- The conversion of a count of at most 53 bits gives a canonical value `m · 2 ^ e`, and the product
with one has its grid. -/
theorem isFiniteValue_ofNat_of_lt (hn : 0 < n) (hsmall : n < 2 ^ 53) :
    IsFiniteValue (parts (Float.ofNat n)) := by
  have hlog : n.log2 < 53 := (Nat.log2_lt hn.ne').mpr hsmall
  have hgrid := grid_mul_two_pow hn (0 - grid n 0).toNat 0
  obtain ⟨m, e, hm, hstored, hcanonical, hle⟩ := (roundsTo_round .positive hn 0).exists_stored
    (Nat.mul_pos hn (Nat.two_pow_pos _)) (by rw [log2_mul_two_pow hn]; unfold grid; omega)
    (by rw [hgrid]; unfold grid; omega)
  have hlow := hcanonical.le
  have hgrid' : grid (m * 2 ^ 52) (e + -52) = e := (grid_mul_two_pow hm 52 e).trans hcanonical.grid_eq
  have hproduct : RoundsTo .positive (m * 2 ^ 52) (e + -52) (mul .binary64
      (.finite .positive m e hm) (.finite .positive (2 ^ 52) (-52) (by decide))) :=
    roundsTo_roundWithAccuracy .positive (Nat.mul_pos hm (by decide)) (by omega) .exact
  obtain ⟨m', e', hm', hstored', -⟩ := hproduct.exists_stored (Nat.mul_pos hm (by decide))
    (by rw [log2_mul_two_pow hm]; omega) (by rw [hgrid']; unfold grid at *; omega)
  rw [parts_ofNat_of_lt hsmall, normalize_of_pos hn, hstored, hstored']
  trivial

theorem isFiniteValue_ofNat_of_le (hle : 2 ^ 53 ≤ n) (hlt : n < 2 ^ 64) :
    IsFiniteValue (parts (Float.ofNat n)) := by
  have hn : 0 < n := (Nat.two_pow_pos 53).trans_le hle
  have hlog : n.log2 < 64 := (Nat.log2_lt hn.ne').mpr hlt
  have hgrid : grid (n * 2 ^ 53) (-53) = grid n 0 := grid_mul_two_pow hn 53 0
  have hround := roundsTo_roundWithAccuracy .positive (Nat.mul_pos hn (Nat.two_pow_pos 53))
    (by rw [hgrid]; unfold grid; omega) .exact
  obtain ⟨m, e, hm, hstored, -⟩ := hround.exists_stored (Nat.mul_pos hn (Nat.two_pow_pos 53))
    (by rw [log2_mul_two_pow hn]; omega) (by rw [hgrid]; unfold grid; omega)
  rw [parts_ofNat_of_le hle, hstored]
  trivial

/-- **A count from one on is, as a float, finite and not zero**, provided it has 64 bits. -/
theorem isFiniteValue_ofNat (hn : 0 < n) (hlt : n < 2 ^ 64) : IsFiniteValue (parts (Float.ofNat n)) := by
  by_cases hsmall : n < 2 ^ 53
  · exact isFiniteValue_ofNat_of_lt hn hsmall
  · exact isFiniteValue_ofNat_of_le (by omega) hlt

end Binary64
end HornReasoner
