/-
# Goals, choices and trials

Goals are proved from left to right, and the clauses for a goal are tried in the
order of the program, with variables of their own at each use. A goal carries a
budget: how many more rules a path below it may use. A rule passes one less to its
body, a fact costs nothing, and a rule that meets an empty budget is cut.

Key definitions: `Var`, `Goal`, `Choice`, `trial`.
-/
import HornReasoner.Logic.Clause
import HornReasoner.Resolution.Substitution

namespace HornReasoner

/-- A variable of a proof: a variable of the goal (use 0), or of the clause at one of its uses. -/
structure Var (σ : Type) where
  use : Nat
  slot : σ
  deriving DecidableEq, Repr

/-- An atom to prove, and how many more rules a path below it may use. -/
structure Goal (ν : Type) where
  atom : Atom ν
  budget : Nat
  deriving DecidableEq, Repr

/-- Replaces each variable of a goal by a term. -/
def Goal.subst {ν μ : Type} (f : ν → Term μ) (g : Goal ν) : Goal μ :=
  ⟨g.atom.subst f, g.budget⟩

/-- A point of the search: the goals left, the answer so far, and the clauses not yet tried on the
first goal. -/
structure Choice (σ : Type) where
  goals : List (Goal (Var σ))
  answer : List (Term (Var σ))
  untried : List (Clause σ)
  deriving DecidableEq, Repr

/-- What comes of a clause tried on a goal. -/
inductive Trial (σ : Type)
  | fails
  | cut
  | goesOn (goals : List (Goal (Var σ))) (answer : List (Term (Var σ)))
  deriving DecidableEq, Repr

variable {σ : Type} [DecidableEq σ]

/-- Tries a clause on the first goal, with variables of the given use. The head is unified with the
goal before the budget is looked at. -/
def trial (use : Nat) (c : Clause σ) (g : Goal (Var σ)) (rest : List (Goal (Var σ)))
    (answer : List (Term (Var σ))) : Trial σ :=
  let copy := c.map (Var.mk use)
  match Substitution.empty.unifyAtoms copy.head g.atom with
  | none => .fails
  | some s =>
    let others := rest.map (Goal.subst s.apply)
    let answer := answer.map (Term.subst s.apply)
    match copy.body, g.budget with
    | [], _ => .goesOn others answer
    | _ :: _, 0 => .cut
    | a :: as, b + 1 => .goesOn ((a :: as).map (fun a => ⟨a.subst s.apply, b⟩) ++ others) answer

end HornReasoner
