/-
# Clauses that a goal does not come to

A goal is proved with clauses for its own symbol, that is for its predicate and number of
arguments, and the atoms of their bodies with clauses for theirs. The symbols met on the
way are the least set that has the goal's and, with the symbol of a clause's head, those
of its body (`Reaches`). A search never asks for any other, so a clause for another symbol
is passed over wherever it stands (`useClause_of_symbol_ne`). Programs that differ in such
clauses only leave the same branches in the same order and are cut alike
(`proveAtom_eq_of_differsBy`), and a query gives the same error or the same answers
(`KnowledgeStore.query_eq_of_unreached`).

Key definitions: `Atom.symbol`, `Reaches`, `ClosedUnder`, `DiffersBy`.
Key theorems: `Reaches.mem_of_closedUnder`, `proveAtom_eq_of_differsBy`,
`KnowledgeStore.query_eq_of_unreached`.
-/
import HornReasoner.Proofs.Store.Query

namespace HornReasoner

/-! ### Lists that differ by some elements -/

/-- The second list is the first with elements that satisfy `p` put in and taken out anywhere. -/
inductive DiffersBy {α : Type} (p : α → Prop) : List α → List α → Prop
  | nil : DiffersBy p [] []
  | keep (a : α) {l l' : List α} (h : DiffersBy p l l') : DiffersBy p (a :: l) (a :: l')
  | putIn {a : α} (ha : p a) {l l' : List α} (h : DiffersBy p l l') : DiffersBy p l (a :: l')
  | takeOut {a : α} (ha : p a) {l l' : List α} (h : DiffersBy p l l') : DiffersBy p (a :: l) l'

theorem DiffersBy.refl {α : Type} {p : α → Prop} : ∀ l : List α, DiffersBy p l l
  | [] => .nil
  | a :: l => .keep a (refl l)

theorem DiffersBy.append {α : Type} {p : α → Prop} {l l' m m' : List α} (h : DiffersBy p l l')
    (hm : DiffersBy p m m') : DiffersBy p (l ++ m) (l' ++ m') := by
  induction h with
  | nil => exact hm
  | keep a _ ih => exact .keep a ih
  | putIn ha _ ih => exact .putIn ha ih
  | takeOut ha _ ih => exact .takeOut ha ih

theorem DiffersBy.map {α β : Type} {p : α → Prop} {q : β → Prop} {f : α → β} (hpq : ∀ a, p a → q (f a))
    {l l' : List α} (h : DiffersBy p l l') : DiffersBy q (l.map f) (l'.map f) := by
  induction h with
  | nil => exact .nil
  | keep a _ ih => exact .keep (f a) ih
  | putIn ha _ ih => exact .putIn (hpq _ ha) ih
  | takeOut ha _ ih => exact .takeOut (hpq _ ha) ih

/-- Elements that lead to nothing may be put in and taken out of what is gone on from. -/
theorem Outcome.bind_of_differsBy {α β : Type} {p : α → Prop} {l l' : List α} {f f' : α → Outcome β}
    (h : DiffersBy p l l') (hf : ∀ a, p a → f a = .all []) (hf' : ∀ a, p a → f' a = .all [])
    (hsame : ∀ a ∈ l, f a = f' a) : (all l).bind f = (all l').bind f' := by
  induction h with
  | nil => rfl
  | keep a _ ih =>
    obtain ⟨ha, hl⟩ := List.forall_mem_cons.mp hsame
    rw [all_cons_bind, all_cons_bind, ha, ih hl]
  | putIn ha _ ih => rw [all_cons_bind, hf' _ ha, nothing_append, ih hsame]
  | takeOut ha _ ih =>
    rw [all_cons_bind, hf _ ha, nothing_append, ih (List.forall_mem_cons.mp hsame).2]

/-! ### Symbols -/

variable {ν μ : Type}

/-- Predicate and number of arguments. The same predicate with another number of arguments is another
symbol. -/
def Atom.symbol (a : Atom ν) : String × Nat :=
  (a.predicate, a.arity)

theorem Atom.symbol_map (f : ν → μ) (a : Atom ν) : (a.map f).symbol = a.symbol := by
  simp [symbol, map, arity]

theorem Atom.symbol_apart (place : Nat) (a : Atom String) : (a.apart place).symbol = a.symbol := by
  simp [symbol, apart, arity]

theorem Atom.sameSymbol_eq_false {a : Atom ν} {b : Atom μ} (h : a.symbol ≠ b.symbol) :
    a.sameSymbol b = false := by
  rw [Bool.eq_false_iff]
  intro hsame
  obtain ⟨hpredicate, hlength⟩ := Bool.and_eq_true_iff.mp hsame
  exact h (Prod.ext (beq_iff_eq.mp hpredicate) (beq_iff_eq.mp hlength))

/-- The symbols that a goal comes to: its own and, with the symbol of a clause's head, those of its
body. -/
inductive Reaches (clauses : List (Clause ν)) (goal : Atom ν) : String × Nat → Prop
  | goal : Reaches clauses goal goal.symbol
  | body {c : Clause ν} (hc : c ∈ clauses) (hhead : Reaches clauses goal c.head.symbol) {a : Atom ν}
      (ha : a ∈ c.body) : Reaches clauses goal a.symbol

/-- With the symbol of a clause's head, the set has those of its body. -/
def ClosedUnder (clauses : List (Clause ν)) (R : String × Nat → Prop) : Prop :=
  ∀ c ∈ clauses, R c.head.symbol → ∀ a ∈ c.body, R a.symbol

variable {R : String × Nat → Prop}

instance [DecidablePred R] (clauses : List (Clause ν)) : Decidable (ClosedUnder clauses R) :=
  inferInstanceAs (Decidable (∀ c ∈ clauses, R c.head.symbol → ∀ a ∈ c.body, R a.symbol))

theorem closedUnder_reaches (clauses : List (Clause ν)) (goal : Atom ν) :
    ClosedUnder clauses (Reaches clauses goal) :=
  fun _ hc hhead _ ha => .body hc hhead ha

/-- What a goal comes to is the least closed set with its symbol. -/
theorem Reaches.mem_of_closedUnder {clauses : List (Clause ν)} {goal : Atom ν} {p : String × Nat}
    (h : Reaches clauses goal p) (hclosed : ClosedUnder clauses R) (hgoal : R goal.symbol) : R p := by
  induction h with
  | goal => exact hgoal
  | body hc _ ha ih => exact hclosed _ hc ih _ ha

/-- Telling variables apart leaves the symbols. -/
theorem ClosedUnder.apart {clauses : List (Clause String)} (h : ClosedUnder clauses R) :
    ClosedUnder (clauses.map Clause.apart) R := by
  intro c' hc' hhead a' ha'
  obtain ⟨c, hc, rfl⟩ := List.mem_map.mp hc'
  obtain ⟨i, hi, rfl⟩ := List.mem_mapIdx.mp ha'
  rw [Clause.apart, Atom.symbol_apart] at hhead
  rw [Atom.symbol_apart]
  exact h c hc hhead _ (List.getElem_mem hi)

/-! ### The recursion -/

variable {σ : Type}

theorem proveAll_congr {prove prove' : Atom (Var σ) → Branch σ → Outcome (Branch σ)} :
    ∀ {as : List (Atom (Var σ))}, (∀ a ∈ as, ∀ b, prove a b = prove' a b) → ∀ b : Branch σ,
      proveAll prove as b = proveAll prove' as b
  | [], _, _ => rfl
  | a :: as, h, b => by
    obtain ⟨ha, has⟩ := List.forall_mem_cons.mp h
    rw [proveAll_cons, proveAll_cons, ha b]
    exact Outcome.bind_congr fun b' _ => proveAll_congr has b'

variable [DecidableEq σ] {program program' : List (Clause σ)} {a : Atom (Var σ)} {b : Branch σ}

/-- A clause for another symbol leads to nothing. -/
theorem useClause_of_symbol_ne (prove : List (Atom (Var σ)) → Branch σ → Outcome (Branch σ))
    {c : Clause σ} (h : c.head.symbol ≠ a.symbol) : b.useClause prove a c = .all [] := by
  have hcopy : (c.head.map (Var.mk (b.uses + 1))).sameSymbol a = false := by
    refine Atom.sameSymbol_eq_false ?_
    rwa [Atom.symbol_map]
  unfold Branch.useClause
  dsimp only [Clause.map]
  rw [Substitution.unifyAtoms_of_not_sameSymbol hcopy]

theorem useClause_congr {prove prove' : List (Atom (Var σ)) → Branch σ → Outcome (Branch σ)}
    {c : Clause σ} (h : ∀ u b, prove (c.body.map (Atom.map (Var.mk u))) b =
      prove' (c.body.map (Atom.map (Var.mk u))) b) :
    b.useClause prove a c = b.useClause prove' a c := by
  unfold Branch.useClause
  dsimp only [Clause.map]
  split
  · rfl
  · exact h _ _

/-- **Clauses for symbols outside a closed set do not matter** to an atom whose symbol is in it: put in
or taken out, the same branches are left in the same order, and the search is cut on both sides or
neither. -/
theorem proveAtom_eq_of_differsBy (hclosed : ClosedUnder program R)
    (hdiffers : DiffersBy (fun c => ¬ R c.head.symbol) program program') (n : Nat) (ha : R a.symbol) :
    proveAtom program n a b = proveAtom program' n a b := by
  have hother (prove : List (Atom (Var σ)) → Branch σ → Outcome (Branch σ)) {a : Atom (Var σ)}
      (ha : R a.symbol) (b : Branch σ) (c : Clause σ) (hc : ¬ R c.head.symbol) :
      b.useClause prove a c = .all [] :=
    useClause_of_symbol_ne prove fun heq => hc (heq ▸ ha)
  induction n generalizing a b with
  | zero =>
    exact Outcome.bind_of_differsBy hdiffers (hother _ ha b) (hother _ ha b) fun _ _ => rfl
  | succ n ih =>
    refine Outcome.bind_of_differsBy hdiffers (hother _ ha b) (hother _ ha b) fun c hc => ?_
    by_cases hhead : R c.head.symbol
    · refine useClause_congr fun u => proveAll_congr fun d hd b' => ih ?_
      obtain ⟨e, he, rfl⟩ := List.mem_map.mp hd
      rw [Atom.symbol_map]
      exact hclosed c hc hhead e he
    · rw [hother _ ha b c hhead, hother _ ha b c hhead]

/-! ### Queries -/

variable {clauses clauses' : List (Clause String)} {goal : Atom String}

theorem answersByRecursion_eq_of_differsBy
    (h : DiffersBy (fun c => ¬ Reaches clauses goal c.head.symbol) clauses clauses') (depth : Nat) :
    answersByRecursion clauses goal depth = answersByRecursion clauses' goal depth := by
  have hclosed := (closedUnder_reaches clauses goal).apart
  have hdiffers : DiffersBy (fun c => ¬ Reaches clauses goal c.head.symbol)
      (clauses.map Clause.apart) (clauses'.map Clause.apart) :=
    h.map fun c hc => by rwa [Clause.apart, Atom.symbol_apart]
  have hgoal : Reaches clauses goal ((goal.apart 0).map (Var.mk 0)).symbol := by
    rw [Atom.symbol_map, Atom.symbol_apart]
    exact .goal
  unfold answersByRecursion
  rw [proveAtom_eq_of_differsBy hclosed hdiffers depth hgoal]

namespace KnowledgeStore

/-- **Clauses that a goal does not come to do not matter.** Two stores with the same limits, the clauses
of the one being those of the other with clauses for symbols that the goal does not reach put in and
taken out anywhere, give the same error, or the same bindings in the same order. -/
theorem query_eq_of_unreached (s s' : KnowledgeStore) (goal : Atom String)
    (hdepth : s'.config.maxDepth = s.config.maxDepth)
    (hsolutions : s'.config.maxSolutions = s.config.maxSolutions)
    (hclauses : DiffersBy (fun c => ¬ Reaches s.clauses goal c.head.symbol) s.clauses s'.clauses) :
    s'.query goal = s.query goal := by
  unfold query
  rw [solve_eq, solve_eq, hdepth, hsolutions, answersByRecursion_eq_of_differsBy hclauses]

/-- A rule for another predicate. -/
def relatedRule : Clause String :=
  ⟨⟨"related", [.var "X", .var "Y"]⟩, [⟨"ancestor", [.var "X", .var "Y"]⟩]⟩

/-- A fact for the predicate of the goal, but with one argument. -/
def ancestorFact : Clause String :=
  .fact ⟨"ancestor", [.const "e"]⟩

/-- The family with the rule before it and the fact in its middle. -/
def widerFamily : KnowledgeStore :=
  ofClauses family.config
    ([relatedRule] ++ family.clauses.take 3 ++ ([ancestorFact] ++ family.clauses.drop 3))

/-- Neither changes what is found. -/
theorem widerFamily_query : widerFamily.query ⟨"ancestor", [.const "a", .var "W"]⟩ =
    .ok [.ofList [("W", "b")], .ofList [("W", "c")]] := by
  have hquery : family.query ⟨"ancestor", [.const "a", .var "W"]⟩ =
      .ok [.ofList [("W", "b")], .ofList [("W", "c")]] := by decide +kernel
  have hclosed : ClosedUnder family.clauses (· ∈ [("ancestor", 2), ("parent", 2)]) := by decide +kernel
  have hput {c : Clause String} (hc : c.head.symbol ∉ [("ancestor", 2), ("parent", 2)])
      (l : List (Clause String)) :
      DiffersBy (fun c => ¬ Reaches family.clauses ⟨"ancestor", [.const "a", .var "W"]⟩ c.head.symbol)
        l ([c] ++ l) :=
    .putIn (fun hreaches => hc (hreaches.mem_of_closedUnder hclosed (by decide))) (.refl l)
  have hclauses : widerFamily.clauses =
      ([relatedRule] ++ family.clauses.take 3) ++ ([ancestorFact] ++ family.clauses.drop 3) := by
    decide +kernel
  rw [← hquery]
  refine query_eq_of_unreached family widerFamily _ (by decide +kernel) (by decide +kernel) ?_
  rw [hclauses]
  have hdiffers := (hput (c := relatedRule) (by decide) (family.clauses.take 3)).append
    (hput (c := ancestorFact) (by decide) (family.clauses.drop 3))
  rwa [List.take_append_drop] at hdiffers

end KnowledgeStore
end HornReasoner
