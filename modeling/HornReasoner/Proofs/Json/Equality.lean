/-
# Values of documents equal themselves

Values are compared with their floats as numbers, and a float that is not a number
differs from itself. No document holds one: the floats of a canonical value are
finite, and so the value equals itself, whatever its nesting (`Json.same_self`).

Key theorems: `beq_self_of_isFinite`, `Json.same_self`.
-/
import HornReasoner.Json.Value

namespace HornReasoner

/-! ### Numbers -/

/-- A finite float equals itself. -/
theorem beq_self_of_isFinite {x : Float} (h : x.isFinite = true) : (x == x) = true := by
  -- comparison and finiteness are both read off sign, mantissa and exponent
  have hself : ∀ u : Float.Model.UnpackedFloat, u.isFinite = true → u.beq u = true := by
    intro u hu
    cases u with
    | notANumber => cases hu
    | infinity sign => cases hu
    | zero sign => rfl
    | finite sign mantissa exponent hpos =>
      have horder : (compare exponent exponent).then (compare mantissa mantissa) = .eq := by simp
      cases sign with
      | positive =>
        show (some ((compare exponent exponent).then (compare mantissa mantissa)) == some .eq) = true
        rw [horder]
        rfl
      | negative =>
        show (some ((compare exponent exponent).then (compare mantissa mantissa)).swap == some .eq) = true
        rw [horder]
        rfl
  exact hself x.toModel.unpack h

theorem Number.same_self {n : Number} (h : n.isCanonical = true) : n.same n = true := by
  cases n with
  | int i => exact beq_self_eq_true i
  | float x => exact beq_self_of_isFinite h

/-! ### Values -/

namespace Json

mutual

/-- **A canonical value equals itself.** -/
theorem same_self : ∀ {j : Json}, j.isCanonical = true → j.same j = true
  | .null, _ => rfl
  | .bool b, _ => beq_self_eq_true b
  | .number _, h => Number.same_self h
  | .string s, _ => beq_self_eq_true s
  | .array _, h => sameItems_self h
  | .object _, h => sameMembers_self (Bool.and_eq_true_iff.mp h).2

theorem sameItems_self : ∀ {js : List Json}, areCanonical js = true → sameItems js js = true
  | [], _ => rfl
  | j :: js, h => by
    obtain ⟨hj, hjs⟩ := Bool.and_eq_true_iff.mp h
    exact Bool.and_eq_true_iff.mpr ⟨same_self hj, sameItems_self hjs⟩

theorem sameMembers_self : ∀ {ms : List (String × Json)}, membersCanonical ms = true →
    sameMembers ms ms = true
  | [], _ => rfl
  | (k, j) :: ms, h => by
    obtain ⟨hj, hms⟩ := Bool.and_eq_true_iff.mp h
    refine Bool.and_eq_true_iff.mpr ⟨Bool.and_eq_true_iff.mpr ⟨beq_self_eq_true k, ?_⟩, ?_⟩
    · exact same_self hj
    · exact sameMembers_self hms

end

theorem Value.same_self (v : Value) : v.same v = true :=
  Json.same_self v.canonical

end Json
end HornReasoner
