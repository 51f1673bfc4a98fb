/-
# The order of assertion decides the order of answers only

A branch of the recursion carries its own bindings and its own count of uses, and
nothing of the branches tried before it. So trying the clauses of a program in
another order leaves each branch as it is and only changes when it comes
(`permuted_proveAtom`): the same branches, each as often, and a cut on both sides or
on neither. A query that is not stopped for room gives all of them, and so the same
clauses asserted in another order give the same answers in another order
(`KnowledgeStore.query_permuted`).

Key definitions: `Outcome.Permuted`, `AnswersPermuted`.
Key theorems: `permuted_proveAtom`, `permuted_answersByRecursion`,
`KnowledgeStore.query_permuted`.
-/
import HornReasoner.Proofs.Store.Growth
import Mathlib.Data.List.Perm.Basic

namespace HornReasoner

/-! ### Outcomes in another order -/

/-- The same answers, each as often, in any order; and both searches were cut or neither. -/
structure Outcome.Permuted {α : Type} (o o' : Outcome α) : Prop where
  answers : o.answers.Perm o'.answers
  cut : o.cut = o'.cut

namespace Outcome

variable {α β : Type} {o o' : Outcome α}

theorem Permuted.refl (o : Outcome α) : Permuted o o :=
  ⟨.refl _, rfl⟩

theorem permuted_all {l l' : List α} (h : l.Perm l') : Permuted (all l) (all l') :=
  ⟨h, rfl⟩

/-- Going on from each answer, in whatever order they come. -/
theorem Permuted.bind {f f' : α → Outcome β} (h : Permuted o o') (hf : ∀ a, Permuted (f a) (f' a)) :
    Permuted (o.bind f) (o'.bind f') where
  answers := h.answers.flatMap fun a _ => (hf a).answers
  cut := by
    have hany : (o.answers.any fun a => (f a).cut) = o'.answers.any fun a => (f' a).cut := by
      rw [h.answers.any_eq]
      simp only [(hf _).cut]
    show (o.cut || _) = (o'.cut || _)
    rw [h.cut, hany]

theorem Permuted.map (f : α → β) (h : Permuted o o') : Permuted (o.map f) (o'.map f) :=
  ⟨h.answers.map f, h.cut⟩

end Outcome

open Outcome (Permuted)

/-! ### The recursion -/

variable {σ : Type}

theorem permuted_proveAll {prove prove' : Atom (Var σ) → Branch σ → Outcome (Branch σ)}
    (h : ∀ a b, Permuted (prove a b) (prove' a b)) :
    ∀ (as : List (Atom (Var σ))) (b : Branch σ), Permuted (proveAll prove as b) (proveAll prove' as b)
  | [], _ => .refl _
  | a :: as, b => by
    rw [proveAll_cons, proveAll_cons]
    exact (h a b).bind fun b' => permuted_proveAll h as b'

variable [DecidableEq σ] {program program' : List (Clause σ)}

theorem permuted_useClause {prove prove' : List (Atom (Var σ)) → Branch σ → Outcome (Branch σ)}
    (h : ∀ as b, Permuted (prove as b) (prove' as b)) (a : Atom (Var σ)) (b : Branch σ) (c : Clause σ) :
    Permuted (b.useClause prove a c) (b.useClause prove' a c) := by
  unfold Branch.useClause
  dsimp only
  split
  · exact .refl _
  · exact h _ _

/-- **The order of clauses decides when a branch comes, and nothing else.** -/
theorem permuted_proveAtom (hprogram : program.Perm program') (n : Nat) (a : Atom (Var σ))
    (b : Branch σ) : Permuted (proveAtom program n a b) (proveAtom program' n a b) := by
  induction n generalizing a b with
  | zero => exact (Outcome.permuted_all hprogram).bind (permuted_useClause (fun _ _ => .refl _) a b)
  | succ n ih =>
    exact (Outcome.permuted_all hprogram).bind (permuted_useClause (permuted_proveAll ih) a b)

theorem permuted_answersByRecursion {clauses clauses' : List (Clause String)}
    (hclauses : clauses.Perm clauses') (goal : Atom String) (depth : Nat) :
    Permuted (answersByRecursion clauses goal depth) (answersByRecursion clauses' goal depth) :=
  (permuted_proveAtom (hclauses.map _) depth _ _).map _

/-! ### Queries -/

/-- The same error, or the same bindings, each as often, in any order. -/
def AnswersPermuted : Except QueryError (List Binding) → Except QueryError (List Binding) → Prop
  | .error e, .error e' => e = e'
  | .ok bs, .ok bs' => bs.Perm bs'
  | _, _ => False

section
variable {clauses clauses' : List (Clause String)} {goal : Atom String} {depth room : Nat}

/-- A search gives as many answers, whatever the order of the clauses. -/
theorem length_answersOf_solve_of_perm (hclauses : clauses.Perm clauses') :
    (answersOf (solve clauses goal depth room)).length =
      (answersOf (solve clauses' goal depth room)).length := by
  have hanswers := (permuted_answersByRecursion hclauses goal depth).answers
  rw [answersOf_solve, answersOf_solve, List.length_take, List.length_take, hanswers.length_eq]

/-- If a search was not stopped for room, another order of the clauses gives its answers in another
order. -/
theorem answersPermuted_solve (hclauses : clauses.Perm clauses')
    (hroom : (answersOf (solve clauses goal depth room)).length < room) :
    AnswersPermuted (solve clauses goal depth room) (solve clauses' goal depth room) := by
  obtain ⟨hanswers, hcut⟩ := permuted_answersByRecursion hclauses goal depth
  rw [answersOf_solve, List.length_take] at hroom
  have hlength := hanswers.length_eq
  rw [solve_eq, solve_eq, ← hcut]
  by_cases hnil : (answersByRecursion clauses goal depth).answers = []
  · have hnil' : (answersByRecursion clauses' goal depth).answers = [] := by
      rw [hnil] at hanswers
      exact hanswers.nil_eq.symm
    rw [hnil, hnil']
    split
    · exact rfl
    · exact .refl _
  · have hnil' : (answersByRecursion clauses' goal depth).answers ≠ [] := fun h =>
      hnil (by rw [h] at hanswers; exact hanswers.eq_nil)
    rw [if_neg fun h => hnil h.2.1, if_neg fun h => hnil' h.2.1]
    -- neither row is shortened
    rw [List.take_of_length_le (by omega), List.take_of_length_le (by omega)]
    exact hanswers

end

namespace KnowledgeStore

variable {s s' : KnowledgeStore}

/-- **The order of assertion does not matter.** Two stores with the same clauses in different orders
and the same limits are both stopped at the number of answers they may give, or neither is. If they are
not, both queries give the same error, or the same bindings, each as often, in some order; and in any
case a goal is true in both stores or in neither. -/
theorem query_permuted (s s' : KnowledgeStore) (hclauses : s.clauses.Perm s'.clauses)
    (hdepth : s'.config.maxDepth = s.config.maxDepth)
    (hsolutions : s'.config.maxSolutions = s.config.maxSolutions) (goal : Atom String)
    (hgoal : goal.validate = .ok ()) :
    ((answersOf (s.query goal)).length < s.config.maxSolutions ↔
      (answersOf (s'.query goal)).length < s'.config.maxSolutions) ∧
    ((answersOf (s.query goal)).length < s.config.maxSolutions →
      AnswersPermuted (s.query goal) (s'.query goal)) ∧
    (s.reason goal).truth = (s'.reason goal).truth := by
  have hquery := query_eq_solve s hgoal
  have hquery' := query_eq_solve s' hgoal
  rw [hdepth, hsolutions] at hquery'
  have hlength : (answersOf (s.query goal)).length = (answersOf (s'.query goal)).length := by
    rw [hquery, hquery']
    exact length_answersOf_solve_of_perm hclauses
  refine ⟨by rw [hlength, hsolutions], fun hroom => ?_, ?_⟩
  · rw [hquery] at hroom
    rw [hquery, hquery']
    exact answersPermuted_solve hclauses hroom
  · rw [Bool.eq_iff_iff, reason_truth_iff_bindings, reason_truth_iff_bindings, reason_bindings,
      reason_bindings, ← List.length_pos_iff, ← List.length_pos_iff, hlength]

/-- The family with its clauses in the opposite order. -/
def familyReversed : KnowledgeStore :=
  ofClauses family.config family.clauses.reverse

/-- The descendants are found in another order. -/
theorem familyReversed_permuted :
    AnswersPermuted (family.query ⟨"ancestor", [.const "a", .var "W"]⟩)
        (familyReversed.query ⟨"ancestor", [.const "a", .var "W"]⟩) ∧
      family.query ⟨"ancestor", [.const "a", .var "W"]⟩ ≠
        familyReversed.query ⟨"ancestor", [.const "a", .var "W"]⟩ := by
  obtain ⟨-, hpermuted, -⟩ := query_permuted family familyReversed (by decide +kernel)
    (by decide +kernel) (by decide +kernel) ⟨"ancestor", [.const "a", .var "W"]⟩ (by decide +kernel)
  exact ⟨hpermuted (by decide +kernel), by decide +kernel⟩

end KnowledgeStore
end HornReasoner
