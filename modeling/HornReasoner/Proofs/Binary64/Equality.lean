/-
# Floats that are equal as numbers

Two floats are equal as numbers if both are numbers and stand at the same place in the row
of numbers (`Binary64.beq_iff`). The place tells what a float encodes, but for the sign of a
zero (`Binary64.alike_of_place_eq`). Adding and dividing keep such likeness
(`Binary64.Alike.add`, `Binary64.Alike.div`): of equal terms the sums are equal, or both are
no numbers, and that happens only if the terms are opposite infinities
(`Binary64.infinite_of_isNaN_add`).

Key definition: `Binary64.Alike`.
Key theorems: `Binary64.beq_iff`, `Binary64.alike_of_place_eq`, `Binary64.Alike.beq_or_isNaN`,
`Binary64.Alike.add`, `Binary64.Alike.div`, `Binary64.infinite_of_isNaN_add`.
-/
import HornReasoner.Proofs.Binary64.Arithmetic

namespace HornReasoner
namespace Binary64

open Float.Model (UnpackedFloat Format)
open Float.Model.UnpackedFloat

variable {x y x' y' : Float} {u v u' v' : UnpackedFloat}

/-- **Equality as numbers** is to be numbers at the same place. -/
theorem beq_iff : (x == y) = true ↔
    x.isNaN = false ∧ y.isNaN = false ∧ place (parts x) = place (parts y) := by
  have hbeq : (x == y) = true ↔ (parts x).compare (parts y) = some .eq := by
    show ((parts x).compare (parts y) == some .eq) = true ↔ _
    rw [beq_iff_eq]
  rw [hbeq, isNaN_eq, isNaN_eq]
  by_cases hnan : (parts x).isNaN = true ∨ (parts y).isNaN = true
  · rw [compare_of_isNaN hnan]
    rcases hnan with h | h <;> simp [h]
  · have hx : (parts x).isNaN = false := eq_false_of_ne_true fun h => hnan (Or.inl h)
    have hy : (parts y).isNaN = false := eq_false_of_ne_true fun h => hnan (Or.inr h)
    rw [compare_eq hx hy, Option.some.injEq, compare_eq_iff_eq]
    simp [hx, hy]

/-- The two encode the same, but perhaps for the sign of a zero. -/
inductive Alike : UnpackedFloat → UnpackedFloat → Prop
  | same (u : UnpackedFloat) : Alike u u
  | zeros (s t : Float.Model.UnpackedFloat.Sign) : Alike (.zero s) (.zero t)

theorem Alike.isNaN_eq (h : Alike u v) : u.isNaN = v.isNaN := by
  cases h <;> rfl

theorem Alike.place_eq (h : Alike u v) : place u = place v := by
  cases h <;> rfl

/-- **Numbers at the same place are alike.** -/
theorem alike_of_place_eq (hu : u.isNaN = false) (hv : v.isNaN = false) (h : place u = place v) :
    Alike u v := by
  rcases u with (_ | _) | _ | s | ⟨_ | _, m, e, hm⟩ <;>
    rcases v with (_ | _) | _ | t | ⟨_ | _, m', e', hm'⟩ <;>
    simp only [UnpackedFloat.isNaN, reduceCtorEq] at hu hv <;>
    simp only [place, EmbeddingLike.apply_eq_iff_eq, Prod.mk.injEq] at h
  all_goals try omega
  · exact .same _
  · exact .same _
  · exact .zeros s t
  · obtain ⟨-, he, hm⟩ := h
    obtain rfl : e = e' := by omega
    obtain rfl : m = m' := by omega
    exact .same _
  · obtain ⟨-, rfl, hm⟩ := h
    obtain rfl : m = m' := by omega
    exact .same _

/-- Alike floats are equal as numbers, or neither is a number. -/
theorem Alike.beq_or_isNaN (h : Alike (parts x) (parts y)) :
    (x == y) = true ∨ x.isNaN = true ∧ y.isNaN = true := by
  cases hx : x.isNaN with
  | true => exact Or.inr ⟨rfl, by rw [← hx, Binary64.isNaN_eq, Binary64.isNaN_eq, h.isNaN_eq]⟩
  | false =>
    refine Or.inl (beq_iff.mpr ⟨hx, ?_, h.place_eq⟩)
    rw [← hx, Binary64.isNaN_eq, Binary64.isNaN_eq, h.isNaN_eq]

theorem Alike.stored (h : Alike u v) : Alike (stored u) (stored v) := by
  cases h with
  | same => exact .same _
  | zeros s t =>
    rw [stored_zero, stored_zero]
    exact .zeros s t

/-- A sum of zeros is a zero. -/
theorem exists_add_zeros (s t : Sign) : ∃ r, add .binary64 (.zero s) (.zero t) = .zero r := by
  cases s <;> cases t <;> exact ⟨_, rfl⟩

theorem alike_add_zeros (s t : Sign) (hv : Alike v v') :
    Alike (add .binary64 (.zero s) v) (add .binary64 (.zero t) v') := by
  have hzeros : ∀ s t s' t' : Sign,
      Alike (add .binary64 (.zero s) (.zero t)) (add .binary64 (.zero s') (.zero t')) := by
    intro s t s' t'
    obtain ⟨r, hr⟩ := exists_add_zeros s t
    obtain ⟨r', hr'⟩ := exists_add_zeros s' t'
    rw [hr, hr']
    exact .zeros r r'
  cases hv with
  | zeros s' t' => exact hzeros s s' t t'
  | same =>
    cases v with
    | zero r => exact hzeros s r t r
    | _ => exact .same _

theorem alike_add (hu : Alike u u') (hv : Alike v v') : Alike (add .binary64 u v) (add .binary64 u' v') := by
  cases hu with
  | zeros s t => exact alike_add_zeros s t hv
  | same =>
    cases hv with
    | same => exact .same _
    | zeros s t =>
      cases u with
      | zero r => exact alike_add_zeros r r (.zeros s t)
      | _ => exact .same _

/-- **Sums of equal terms are alike.** -/
theorem Alike.add (hx : Alike (parts x) (parts x')) (hy : Alike (parts y) (parts y')) :
    Alike (parts (x + y)) (parts (x' + y')) := by
  rw [parts_add, parts_add]
  exact (alike_add hx hy).stored

/-- **Quotients of equal dividends are alike.** -/
theorem Alike.div (hx : Alike (parts x) (parts x')) (y : Float) : Alike (parts (x / y)) (parts (x' / y)) := by
  rw [parts_div, parts_div]
  refine Alike.stored ?_
  generalize parts x = u, parts x' = u' at hx
  cases hx with
  | same => exact .same _
  | zeros s t =>
    cases parts y with
    | infinity r => exact .zeros _ _
    | finite r m e hm => exact .zeros _ _
    | _ => exact .same _

theorem isNaN_add_cases (hx : x.isNaN = false) (hy : y.isNaN = false) (h : (x + y).isNaN = true) :
    ∃ s t, parts x = .infinity s ∧ parts y = .infinity t ∧ s ≠ t := by
  cases hfinite : y.isFinite with
  | true =>
    rw [isNaN_add hx hfinite] at h
    cases h
  | false =>
    rw [isNaN_eq, parts_add, isNaN_stored] at h
    rw [isNaN_eq] at hx hy
    replace hfinite : (parts y).isFinite = false := hfinite
    generalize parts x = u, parts y = v at hx hy hfinite h
    cases v with
    | notANumber => cases hy
    | zero t => cases hfinite
    | finite t m e hm => cases hfinite
    | infinity t =>
      cases u with
      | infinity s =>
        refine ⟨s, t, rfl, rfl, ?_⟩
        rintro rfl
        cases s <;> cases h
      | notANumber => cases hx
      | _ => cases h

/-- **A sum of numbers is no number** only if one is minus infinity and the other infinity. -/
theorem infinite_of_isNaN_add (hle : x ≤ y) (h : (x + y).isNaN = true) :
    x.isInf = true ∧ y.isInf = true ∧ x < y := by
  obtain ⟨hx, hy, hplace⟩ := le_iff.mp hle
  obtain ⟨s, t, hs, ht, hne⟩ := isNaN_add_cases hx hy h
  have hinf : ∀ {z : Float} {r : Sign}, parts z = .infinity r → z.isInf = true := fun hz => by
    show (parts _).isInf = true
    rw [hz]
    rfl
  refine ⟨hinf hs, hinf ht, lt_iff.mpr ⟨hx, hy, lt_of_le_of_ne hplace ?_⟩⟩
  rw [hs, ht]
  cases s <;> cases t <;> first | exact absurd rfl hne | decide

end Binary64
end HornReasoner
