/-
# Range-restricted clauses have constants for answers

A clause is range-restricted if its head has named variables only, and each of them
stands in the body too; a fact then has no variable at all
(`Clause.isRangeRestricted_fact`). From such clauses only atoms follow whose arguments
stand in the program: a fact brings its own constants, and a rule hands on what its
body has (`exists_mem_args_of_follows`).

An answer is an instance of the goal that follows from the clauses, with an underscore
as the value of a variable that the proof leaves open. A well-formed program has no
such constant, so no variable is left open (`KnowledgeStore.values_are_constants`).

Key definition: `Clause.isRangeRestricted`.
Key theorems: `exists_mem_args_of_follows`, `KnowledgeStore.values_are_constants`.
-/
import HornReasoner.Proofs.Logic.Slots
import HornReasoner.Proofs.Store.Transcript

namespace HornReasoner

/-! ### Range-restricted clauses -/

/-- The head has no underscore, and its variables all stand in the body. -/
def Clause.isRangeRestricted (c : Clause String) : Bool :=
  c.head.args.all fun t => !t.isVariable || (!t.isAnonymous && c.body.any fun a => a.args.contains t)

/-- The range-restricted facts are the ground ones. -/
theorem Clause.isRangeRestricted_fact (a : Atom String) : (fact a).isRangeRestricted = a.isGround := by
  simp [isRangeRestricted, fact, Atom.isGround]

theorem Clause.mem_body_of_isRangeRestricted {c : Clause String} (h : c.isRangeRestricted = true)
    {v : String} (hv : .var v ∈ c.head.args) : v ≠ "_" ∧ ∃ a ∈ c.body, .var v ∈ a.args := by
  have hterm := List.all_eq_true.mp h _ hv
  simpa [Term.isVariable, Term.isAnonymous] using hterm

/-- **What follows from range-restricted clauses is made of their constants.** -/
theorem exists_mem_args_of_follows {clauses : List (Clause String)}
    (hrange : ∀ c ∈ clauses, c.isRangeRestricted = true) {a : Atom Empty}
    (h : Follows (clauses.map Clause.apart) a) {x : String} (hx : .const x ∈ a.args) :
    ∃ c ∈ clauses, .const x ∈ c.args := by
  induction h with
  | @clause c' θ hc' _ ih =>
    obtain ⟨c, hc, rfl⟩ := List.mem_map.mp hc'
    rcases Atom.mem_subst_apart hx with hmem | ⟨v, hv, hvalue⟩
    · exact ⟨c, hc, Clause.mem_args.mpr (Or.inl hmem)⟩
    · -- a variable of the head has the value that it has in the body
      obtain ⟨hne, b, hb, hvb⟩ := Clause.mem_body_of_isRangeRestricted (hrange c hc) hv
      obtain ⟨i, hi, rfl⟩ := List.getElem_of_mem hb
      have hpremise : c.body[i].apart (i + 1) ∈ c.apart.body := List.mem_mapIdx.mpr ⟨i, hi, rfl⟩
      have hmem := Atom.subst_named_mem (i + 1) θ hvb hne
      rw [hvalue hne] at hmem
      exact ih _ hpremise hmem

/-! ### Answers -/

/-- The constants of a well-formed clause have names of constants. -/
theorem Clause.isConstantName_of_mem_args {c : Clause String} (hc : c.validate = .ok ()) {x : String}
    (hx : .const x ∈ c.args) : isConstantName x = true := by
  obtain ⟨hhead, hbody⟩ := Clause.validate_eq_ok_iff.mp hc
  refine Term.validate_const.mp ?_
  rcases Clause.mem_args.mp hx with hx | ⟨a, ha, hx⟩
  · exact (Atom.validate_eq_ok_iff.mp hhead).2.2 _ hx
  · exact (Atom.validate_eq_ok_iff.mp (hbody a ha)).2.2 _ hx

namespace KnowledgeStore

/-- **Range-restricted clauses leave no value open.** If every clause of a store is range-restricted,
each value of an answer is a constant of a stored clause, and none is the underscore of a variable
without a value. -/
theorem values_are_constants (s : KnowledgeStore)
    (hrange : ∀ c ∈ s.clauses, c.isRangeRestricted = true) (goal : Atom String) (bs : List Binding)
    (h : s.query goal = .ok bs) (b : Binding) (hb : b ∈ bs) (v x : String) (hx : b.get? v = some x) :
    x ≠ "_" ∧ ∃ c ∈ s.clauses, .const x ∈ c.args := by
  have hmem := mem_answers_of_query h hb
  obtain ⟨θ, hvalues, hderivable⟩ := derivable_shown hmem
  have hasked : v ∈ goal.asked := by
    obtain ⟨branch, -, rfl⟩ := List.mem_map.mp hmem
    rw [SortedMap.get?_ofList_map] at hx
    by_contra hv
    rw [if_neg hv] at hx
    cases hx
  have harg := Atom.subst_named_mem 0 θ (Atom.mem_asked.mp hasked).1
    (Atom.ne_blank_of_mem_asked hasked)
  rw [hvalues v x hx] at harg
  obtain ⟨c, hc, hconst⟩ := exists_mem_args_of_follows hrange (follows_iff.mpr ⟨_, hderivable⟩) harg
  refine ⟨?_, c, hc, hconst⟩
  rintro rfl
  have hname := Clause.isConstantName_of_mem_args (validate_of_mem_clauses hc) hconst
  revert hname
  decide

/-- The ancestors in the family are its members. -/
theorem family_values_are_constants :
    ("c" : String) ≠ "_" ∧ ∃ c ∈ family.clauses, .const "c" ∈ c.args :=
  values_are_constants family (by decide +kernel) ⟨"ancestor", [.const "a", .var "W"]⟩
    [.ofList [("W", "b")], .ofList [("W", "c")]] (by decide +kernel) (.ofList [("W", "c")])
    (by decide +kernel) "W" "c" (by decide +kernel)

end KnowledgeStore
end HornReasoner
