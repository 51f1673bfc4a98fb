/-
# Asserted facts stay provable

A store proves a well-formed goal exactly if an instance of it is derivable within the
limit of rules (`KnowledgeStore.proves_iff`); for a predicate of a constant that is the
goal itself (`KnowledgeStore.proves_const_iff`). A fact that is asserted has a proof that
uses no rule, and so its atom, asked as a goal, has an answer whatever else is asserted,
and with it every instance of the atom (`KnowledgeStore.proves_of_instance`,
`KnowledgeStore.proves_of_fact`).

Key definitions: `KnowledgeStore.Proves`, `KnowledgeStore.Derives`, `Atom.InstanceOf`.
Key theorems: `KnowledgeStore.proves_iff`, `KnowledgeStore.proves_of_instance`,
`KnowledgeStore.proves_of_fact`, `KnowledgeStore.reason_truth_iff`.
-/
import HornReasoner.Proofs.Logic.Names
import HornReasoner.Proofs.Resolution.Growth
import HornReasoner.Proofs.Store.Query
import HornReasoner.Store.Reasoning

namespace HornReasoner

/-! ### Instances of atoms -/

/-- What a substitution for names makes of an atom does not change when its variables are told apart. -/
theorem Atom.subst_apart {μ : Type} {n : Nat} {σ : Slot → Term μ} {τ : String → Term μ}
    (hnamed : ∀ v, v ≠ "_" → σ (.named v) = τ v) (hblank : ∀ i, σ (.blank n i) = τ "_")
    (a : Atom String) : (a.apart n).subst σ = a.subst τ := by
  unfold apart subst
  congr 1
  refine List.ext_getElem (by simp) fun i _ hi => ?_
  rw [List.length_map] at hi
  simp only [List.getElem_map, List.getElem_mapIdx]
  cases a.args[i] with
  | const c => rfl
  | var v =>
    by_cases hv : v = "_"
    · simp [hv, hblank]
    · simp [hv, hnamed v hv]

/-- The first atom has terms in place of the variables of the second, each underscore with a term of
its own. -/
def Atom.InstanceOf (a b : Atom String) : Prop :=
  ∃ σ : Slot → Term String, a = (b.apart 0).subst σ

theorem Atom.instanceOf_self (a : Atom String) : a.InstanceOf a := by
  refine ⟨Slot.rec .var fun _ _ => .var "_", ?_⟩
  rw [subst_apart (τ := .var) (fun _ _ => rfl) (fun _ => rfl)]
  have hterm : (Term.subst .var : Term String → Term String) = id := by
    funext t
    cases t <;> rfl
  rw [subst, hterm, List.map_id]

namespace KnowledgeStore

variable {s : KnowledgeStore}

/-! ### Proofs -/

/-- The goal has an answer. -/
def Proves (s : KnowledgeStore) (goal : Atom String) : Prop :=
  ∃ bs, s.query goal = .ok bs ∧ bs ≠ []

/-- Only well-formed goals have answers. -/
theorem validate_of_proves {goal : Atom String} (h : s.Proves goal) : goal.validate = .ok () := by
  obtain ⟨bs, hquery, -⟩ := h
  exact validate_of_query hquery

/-- A goal is decided as true if it has an answer. -/
theorem reason_truth_iff {goal : Atom String} : (s.reason goal).truth = true ↔ s.Proves goal := by
  unfold reason Proves
  cases s.query goal with
  | error e => simp
  | ok bs => cases bs <;> simp

theorem answersOf_query {goal : Atom String} (hgoal : goal.validate = .ok ()) :
    answersOf (s.query goal) =
      (answersByRecursion s.clauses goal s.config.maxDepth).answers.take s.config.maxSolutions := by
  rw [s.query_eq_solve hgoal, answersOf_solve]

/-- A store that proves a goal may give an answer at all. -/
theorem room_of_proves {goal : Atom String} (h : s.Proves goal) : 1 ≤ s.config.maxSolutions := by
  obtain ⟨bs, hquery, hne⟩ := h
  have hanswers := answersOf_query (s := s) (validate_of_query hquery)
  by_contra hnone
  rw [hquery, show s.config.maxSolutions = 0 by omega, List.take_zero] at hanswers
  exact hne hanswers

/-- What a query gives, the recursion finds. -/
theorem mem_answers_of_query {goal : Atom String} {bs : List Binding} (h : s.query goal = .ok bs)
    {b : Binding} (hb : b ∈ bs) : b ∈ (answersByRecursion s.clauses goal s.config.maxDepth).answers := by
  have hanswers := answersOf_query (s := s) (validate_of_query h)
  rw [h] at hanswers
  replace hanswers : bs = _ := hanswers
  rw [hanswers] at hb
  exact List.mem_of_mem_take hb

/-- **A goal is proved if an instance of it is derivable** with no more rules on a path than the store
allows, provided it may give an answer at all. -/
theorem proves_iff {goal : Atom String} (hgoal : goal.validate = .ok ())
    (hroom : 1 ≤ s.config.maxSolutions) : s.Proves goal ↔
      ∃ θ : Slot → Term Empty, Derivable s.program s.config.maxDepth ((goal.apart 0).subst θ) := by
  rw [Proves, ← answersOf_ne_nil_iff, answersOf_query hgoal, ne_eq, List.take_eq_nil_iff,
    or_iff_right (by omega)]
  constructor
  · intro h
    obtain ⟨b, hb⟩ := List.exists_mem_of_ne_nil _ h
    obtain ⟨θ, -, hd⟩ := sound_answersByRecursion hb
    exact ⟨θ, hd⟩
  · rintro ⟨θ, hd⟩
    obtain ⟨b, hb, -⟩ := complete_answersByRecursion hd (Or.inl (Nat.le_refl _))
    exact List.ne_nil_of_mem hb

/-- The stored clauses derive that a predicate holds of a constant, with no more rules on a path than
the store allows, and both names are well formed. -/
def Derives (s : KnowledgeStore) (predicate constant : String) : Prop :=
  isPredicateName predicate = true ∧ isConstantName constant = true ∧
    Derivable s.program s.config.maxDepth ⟨predicate, [.const constant]⟩

theorem proves_const_iff {predicate constant : String} (hroom : 1 ≤ s.config.maxSolutions) :
    s.Proves ⟨predicate, [.const constant]⟩ ↔ s.Derives predicate constant := by
  have hvalid : Atom.validate ⟨predicate, [.const constant]⟩ = .ok () ↔
      isPredicateName predicate = true ∧ isConstantName constant = true := by
    simp [Atom.validate_eq_ok_iff, Term.validate_const]
  constructor
  · intro h
    have hgoal := validate_of_proves h
    obtain ⟨θ, hd⟩ := (proves_iff hgoal hroom).mp h
    exact ⟨(hvalid.mp hgoal).1, (hvalid.mp hgoal).2, hd⟩
  · rintro ⟨hpredicate, hconstant, hd⟩
    exact (proves_iff (hvalid.mpr ⟨hpredicate, hconstant⟩) hroom).mpr ⟨fun _ => .const "", hd⟩

/-- **Instances of asserted facts are provable**, at any depth and whatever else is asserted. -/
theorem proves_of_instance {a goal : Atom String} (h : Clause.fact a ∈ s.clauses)
    (hroom : 1 ≤ s.config.maxSolutions) (hgoal : goal.validate = .ok ()) (hinstance : goal.InstanceOf a) :
    s.Proves goal := by
  obtain ⟨σ, rfl⟩ := hinstance
  -- variables that the instance leaves may have any value
  refine (proves_iff hgoal hroom).mpr ⟨fun _ => .const "", ?_⟩
  rw [Atom.subst_apart (τ := fun _ => .const "") (fun _ _ => rfl) (fun _ => rfl), Atom.subst_subst]
  exact .fact (c := (Clause.fact a).apart) _ (List.mem_map.mpr ⟨_, h, rfl⟩) rfl

/-- **Asserted facts are provable.** -/
theorem proves_of_fact {a : Atom String} (h : Clause.fact a ∈ s.clauses)
    (hroom : 1 ≤ s.config.maxSolutions) : s.Proves a := by
  obtain ⟨assertion, hmem, hclause⟩ := List.mem_map.mp h
  have hvalid : a.validate = .ok () := by
    rw [← Clause.validate_fact, ← hclause]
    exact s.wellFormed assertion hmem
  exact proves_of_instance h hroom hvalid a.instanceOf_self

end KnowledgeStore
end HornReasoner
