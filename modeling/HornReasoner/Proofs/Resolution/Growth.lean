/-
# A search with more to use finds no less

A branch of the recursion is made by the clauses used on it and numbered by their
uses, so the clauses that stand between them in the program leave it as it is. With
clauses inserted anywhere in the program and with more rules on a path, each branch
is found again and in the old order, others coming in between
(`sublist_proveAtom`). The same holds of the answers to a goal
(`sublist_answersByRecursion`), and of those that a search gives when it is not
stopped for room (`sublist_answersOf_solve`).

Key definition: `answersOf`.
Key theorems: `sublist_proveAtom`, `sublist_answersByRecursion`, `answersOf_solve`,
`length_answersOf_solve_le`, `sublist_answersOf_solve`.
-/
import HornReasoner.Proofs.Resolution.Refinement
import Mathlib.Data.List.Flatten

namespace HornReasoner

open List (Sublist)

/-! ### Outcomes -/

theorem Outcome.sublist_bind {α β : Type} {o o' : Outcome α} {f f' : α → Outcome β}
    (ho : o.answers.Sublist o'.answers) (hf : ∀ a, (f a).answers.Sublist (f' a).answers) :
    (o.bind f).answers.Sublist (o'.bind f').answers :=
  (ho.flatMap _).trans (Sublist.flatMap_right _ fun a _ => hf a)

/-! ### The recursion -/

variable {σ : Type}

theorem sublist_proveAll {prove prove' : Atom (Var σ) → Branch σ → Outcome (Branch σ)}
    (h : ∀ a b, (prove a b).answers.Sublist (prove' a b).answers) :
    ∀ (as : List (Atom (Var σ))) (b : Branch σ),
      (proveAll prove as b).answers.Sublist (proveAll prove' as b).answers
  | [], _ => Sublist.refl _
  | a :: as, b => by
    rw [proveAll_cons, proveAll_cons]
    exact Outcome.sublist_bind (h a b) fun b' => sublist_proveAll h as b'

variable [DecidableEq σ] {program program' : List (Clause σ)}

theorem sublist_useClause {prove prove' : List (Atom (Var σ)) → Branch σ → Outcome (Branch σ)}
    (h : ∀ as b, (prove as b).answers.Sublist (prove' as b).answers) (a : Atom (Var σ)) (b : Branch σ)
    (c : Clause σ) : (b.useClause prove a c).answers.Sublist (b.useClause prove' a c).answers := by
  unfold Branch.useClause
  dsimp only
  split
  · exact Sublist.refl _
  · exact h _ _

/-- **More clauses and more rules find no less.** -/
theorem sublist_proveAtom (hprogram : program.Sublist program') {n m : Nat} (hnm : n ≤ m)
    (a : Atom (Var σ)) (b : Branch σ) :
    (proveAtom program n a b).answers.Sublist (proveAtom program' m a b).answers := by
  induction n generalizing m a b with
  | zero =>
    rw [proveAtom_eq, proveAtom_eq]
    refine Outcome.sublist_bind hprogram (sublist_useClause (fun as b => ?_) a b)
    -- with no rule left a fact is done at once, as it is with `m` rules, and a rule leaves nothing
    cases as with
    | nil => cases m <;> exact Sublist.refl _
    | cons a as => exact List.nil_sublist _
  | succ n ih =>
    obtain ⟨m, rfl⟩ : ∃ k, m = k + 1 := ⟨m - 1, by omega⟩
    rw [proveAtom_eq, proveAtom_eq]
    refine Outcome.sublist_bind hprogram (sublist_useClause ?_ a b)
    exact sublist_proveAll fun a b => ih (by omega) a b

/-! ### The answers to a goal -/

variable {clauses clauses' : List (Clause String)} {d d' : Nat}

theorem sublist_answersByRecursion (hclauses : clauses.Sublist clauses') (hd : d ≤ d')
    (goal : Atom String) :
    (answersByRecursion clauses goal d).answers.Sublist (answersByRecursion clauses' goal d').answers :=
  (sublist_proveAtom (hclauses.map _) hd _ _).map _

/-- The answers of a result; an error has none. -/
def answersOf (result : Except QueryError (List Binding)) : List Binding :=
  result.toOption.getD []

theorem answersOf_ne_nil_iff {result : Except QueryError (List Binding)} :
    answersOf result ≠ [] ↔ ∃ bs, result = .ok bs ∧ bs ≠ [] := by
  cases result <;> simp [answersOf, Except.toOption]

/-- A search gives the first answers of the recursion, as many as there is room for. -/
theorem answersOf_solve (clauses : List (Clause String)) (goal : Atom String) (depth room : Nat) :
    answersOf (solve clauses goal depth room) =
      (answersByRecursion clauses goal depth).answers.take room := by
  rw [solve_eq]
  split
  · next h => rw [h.2.1, List.take_nil]; rfl
  · rfl

/-- Where one row has answers, a row that is no shorter has some too. -/
theorem ne_nil_of_length_le {α : Type} {l l' : List α} (h : l.length ≤ l'.length) (hl : l ≠ []) :
    l' ≠ [] :=
  List.ne_nil_of_length_pos (Nat.lt_of_lt_of_le (List.length_pos_iff.mpr hl) h)

/-- With more to use a search gives no fewer answers. -/
theorem length_answersOf_solve_le (hclauses : clauses.Sublist clauses') (hd : d ≤ d')
    (goal : Atom String) (room : Nat) :
    (answersOf (solve clauses goal d room)).length ≤ (answersOf (solve clauses' goal d' room)).length := by
  have hle := (sublist_answersByRecursion hclauses hd goal).length_le
  rw [answersOf_solve, answersOf_solve, List.length_take, List.length_take]
  omega

/-- If a search was not stopped for room, it gives all that one with less to use gives. -/
theorem sublist_answersOf_solve (hclauses : clauses.Sublist clauses') (hd : d ≤ d')
    {goal : Atom String} {room : Nat}
    (hroom : (answersOf (solve clauses' goal d' room)).length < room) :
    (answersOf (solve clauses goal d room)).Sublist (answersOf (solve clauses' goal d' room)) := by
  rw [answersOf_solve, List.length_take] at hroom
  rw [answersOf_solve, answersOf_solve]
  rw [List.take_of_length_le (l := (answersByRecursion clauses' goal d').answers) (by omega)]
  exact (List.take_sublist _ _).trans (sublist_answersByRecursion hclauses hd goal)

end HornReasoner
