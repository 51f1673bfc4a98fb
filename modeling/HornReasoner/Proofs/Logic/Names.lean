/-
# Well-formed names

An atom is well formed if its predicate and arguments are, and there is an argument
(`Atom.validate_eq_ok_iff`). The characters of names are ASCII letters, digits and
underscores, none of them blank, so no well-formed name is blank
(`isBlankText_of_isConstantName`).

Key theorems: `Atom.validate_eq_ok_iff`, `isBlankText_of_isConstantName`.
-/
import HornReasoner.Logic.Clause

namespace HornReasoner

/-! ### Characters -/

theorem isUpper_iff {c : Char} : c.isUpper = true ↔ 65 ≤ c.toNat ∧ c.toNat ≤ 90 := by
  change decide (c.val ≥ 'A'.val ∧ c.val ≤ 'Z'.val) = true ↔ _
  simp [UInt32.le_iff_toNat_le, ← Char.toNat_val]

theorem isLower_iff {c : Char} : c.isLower = true ↔ 97 ≤ c.toNat ∧ c.toNat ≤ 122 := by
  change (decide (c.val ≥ 'a'.val) && decide (c.val ≤ 'z'.val)) = true ↔ _
  simp [UInt32.le_iff_toNat_le, ← Char.toNat_val]

theorem isDigit_iff {c : Char} : c.isDigit = true ↔ 48 ≤ c.toNat ∧ c.toNat ≤ 57 :=
  Char.isDigit_iff_toNat

theorem isAlpha_iff {c : Char} : c.isAlpha = true ↔ c.isUpper = true ∨ c.isLower = true :=
  Bool.or_eq_true_iff

theorem isNameChar_iff {c : Char} :
    isNameChar c = true ↔ (c.isAlpha = true ∨ c.isDigit = true) ∨ c = '_' := by
  simp [isNameChar, Char.isAlphanum]

theorem isAlpha_of_isLower {c : Char} (h : c.isLower = true) : c.isAlpha = true :=
  isAlpha_iff.mpr (Or.inr h)

theorem isNameChar_of_isAlpha {c : Char} (h : c.isAlpha = true) : isNameChar c = true :=
  isNameChar_iff.mpr (Or.inl (Or.inl h))

/-- Blanks lie below the digits or above the ASCII characters. -/
theorem toNat_of_isBlank {c : Char} (h : Text.isBlank c = true) : c.toNat < 48 ∨ 122 < c.toNat := by
  simp only [Text.isBlank, Bool.or_eq_true, Bool.and_eq_true, decide_eq_true_eq, beq_iff_eq,
    Char.le_def, UInt32.le_iff_toNat_le, Char.toNat_val] at h
  -- Single characters are compared; of the two ranges one ends below and one starts above.
  rcases h with (((((((((h | rfl) | rfl) | rfl) | rfl) | h) | rfl) | rfl) | rfl) | rfl) | rfl
  any_goals decide
  · exact Or.inl (Nat.lt_of_le_of_lt h.2 (by decide))
  · exact Or.inr (Nat.lt_of_lt_of_le (by decide) h.1)

theorem isBlank_of_isNameChar {c : Char} (h : isNameChar c = true) : Text.isBlank c = false := by
  rw [isNameChar_iff, isAlpha_iff, isUpper_iff, isLower_iff, isDigit_iff] at h
  rw [Bool.eq_false_iff]
  intro hblank
  have hcode := toNat_of_isBlank hblank
  rcases h with h | rfl
  · omega
  · exact absurd hcode (by decide)

/-! ### Names -/

/-- A name starts with a character that is not blank. -/
theorem isBlankText_of_head {s : String} {c : Char} {cs : List Char} (hs : s.toList = c :: cs)
    (hc : isNameChar c = true) : Text.isBlankText s = false := by
  unfold Text.isBlankText
  rw [hs, List.all_cons, isBlank_of_isNameChar hc, Bool.false_and]

theorem isConstantName_of_isPredicateName {s : String} (h : isPredicateName s = true) :
    isConstantName s = true := by
  unfold isPredicateName at h
  unfold isConstantName
  cases hs : s.toList with
  | nil => rw [hs] at h; cases h
  | cons c cs =>
    rw [hs] at h
    obtain ⟨hlower, htail⟩ := Bool.and_eq_true_iff.mp h
    simp [hlower, htail]

/-- **Well-formed names are not blank.** -/
theorem isBlankText_of_isConstantName {s : String} (h : isConstantName s = true) :
    Text.isBlankText s = false := by
  unfold isConstantName at h
  cases hs : s.toList with
  | nil => rw [hs] at h; cases h
  | cons c cs =>
    rw [hs] at h
    obtain ⟨hstart, -⟩ := Bool.and_eq_true_iff.mp h
    refine isBlankText_of_head hs (isNameChar_iff.mpr (Or.inl ?_))
    exact (Bool.or_eq_true_iff.mp hstart).imp_left isAlpha_of_isLower

/-! ### Atoms and clauses -/

theorem Term.validate_const {c : String} :
    (Term.const c).validate = .ok () ↔ isConstantName c = true := by
  unfold Term.validate
  by_cases h : isConstantName c = true <;> simp [h]

theorem forM_eq_ok_iff {ε α : Type} (f : α → Except ε Unit) :
    ∀ {l : List α}, l.forM f = .ok () ↔ ∀ a ∈ l, f a = .ok ()
  | [] => by simp [List.forM, pure, Except.pure]
  | a :: l => by
    rw [List.forM, List.forall_mem_cons, ← @forM_eq_ok_iff ε α f l]
    cases f a with
    | ok u => cases u; simp [bind, Except.bind]
    | error e => simp [bind, Except.bind]

/-- **What makes an atom well formed.** -/
theorem Atom.validate_eq_ok_iff {a : Atom String} : a.validate = .ok () ↔
    isPredicateName a.predicate = true ∧ a.args ≠ [] ∧ ∀ t ∈ a.args, t.validate = .ok () := by
  unfold Atom.validate
  rw [← forM_eq_ok_iff]
  by_cases hp : isPredicateName a.predicate = true
  · by_cases hargs : a.args = [] <;> simp [hp, hargs]
  · simp [hp]

theorem Clause.validate_fact {a : Atom String} : (Clause.fact a).validate = a.validate := by
  unfold Clause.validate Clause.fact
  cases a.validate with
  | ok u => rfl
  | error e => rfl

theorem Clause.validate_head {c : Clause String} (h : c.validate = .ok ()) :
    c.head.validate = .ok () := by
  unfold Clause.validate at h
  cases hv : c.head.validate with
  | ok u => rfl
  | error e => rw [hv] at h; cases h

end HornReasoner
