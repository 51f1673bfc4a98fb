/-
# How long a search can take

A goal with budget `b` causes at most `goalWeight program b` steps of its own,
whatever it is: each clause is tried once, and a rule leaves goals with budget
`b - 1`. Goals one after another multiply, since each answer of the first starts
the second anew. A choice weighs what its untried clauses can still cause.

Key definitions: `sumOver`, `goalWeight`, `goalsWeight`, `choiceWeight`.
Key theorems: `choiceWeight_le`, `goalsWeight_of_trial`.
-/
import HornReasoner.Resolution.Goal

namespace HornReasoner

variable {σ ν : Type}

/-- The weights of the elements of a list, added up. -/
def sumOver {α : Type} (l : List α) (weight : α → Nat) : Nat :=
  l.foldr (fun a n => weight a + n) 0

/-- A bound on the steps that a goal can cause, the goals after it apart. -/
def goalWeight (program : List (Clause σ)) : Nat → Nat
  | 0 => 1 + sumOver program fun _ => 2
  | b + 1 => 1 + sumOver program fun c => 1 + Nat.pow (goalWeight program b) c.body.length

/-- The weight of the goals that a clause leaves in place of a goal with the given budget. -/
def bodyWeight (program : List (Clause σ)) (budget : Nat) (c : Clause σ) : Nat :=
  match budget with
  | 0 => 1
  | b + 1 => Nat.pow (goalWeight program b) c.body.length

/-- A bound on the steps that a row of goals can cause. -/
def goalsWeight (program : List (Clause σ)) : List (Goal ν) → Nat
  | [] => 1
  | g :: gs => goalWeight program g.budget * goalsWeight program gs

/-- A bound on the steps that a choice can cause. -/
def choiceWeight (program : List (Clause σ)) (c : Choice σ) : Nat :=
  match c.goals with
  | [] => 1
  | g :: gs => 1 + sumOver c.untried fun c => 1 + bodyWeight program g.budget c * goalsWeight program gs

@[simp] theorem sumOver_nil {α : Type} (weight : α → Nat) : sumOver [] weight = 0 := rfl

@[simp] theorem sumOver_cons {α : Type} (a : α) (l : List α) (weight : α → Nat) :
    sumOver (a :: l) weight = weight a + sumOver l weight := rfl

theorem goalWeight_eq (program : List (Clause σ)) : ∀ b : Nat, goalWeight program b =
    1 + sumOver program fun c => 1 + bodyWeight program b c
  | 0 => rfl
  | _ + 1 => rfl

theorem one_le_goalsWeight (program : List (Clause σ)) :
    ∀ gs : List (Goal ν), 1 ≤ goalsWeight program gs
  | [] => Nat.le_refl 1
  | g :: gs => by
    have h : 1 ≤ goalWeight program g.budget := by
      rw [goalWeight_eq]
      omega
    exact Nat.mul_le_mul h (one_le_goalsWeight program gs)

theorem sumOver_le_mul {α : Type} (f : α → Nat) {w : Nat} (hw : 1 ≤ w) :
    ∀ l : List α, sumOver l (fun a => 1 + f a * w) ≤ sumOver l (fun a => 1 + f a) * w
  | [] => Nat.zero_le _
  | a :: l => by
    have ih := sumOver_le_mul f hw l
    simp only [sumOver_cons, Nat.add_mul, Nat.one_mul]
    omega

/-- A choice that has tried nothing weighs no more than its goals. -/
theorem choiceWeight_le (program : List (Clause σ)) (gs : List (Goal (Var σ)))
    (answer : List (Term (Var σ))) :
    choiceWeight program ⟨gs, answer, program⟩ ≤ goalsWeight program gs := by
  cases gs with
  | nil => exact Nat.le_refl 1
  | cons g gs =>
    have h1 := one_le_goalsWeight program gs
    have h2 := sumOver_le_mul (bodyWeight program g.budget) h1 program
    rw [goalsWeight, goalWeight_eq, Nat.add_mul, Nat.one_mul]
    simp only [choiceWeight]
    omega

theorem goalsWeight_append (program : List (Clause σ)) : ∀ gs hs : List (Goal ν),
    goalsWeight program (gs ++ hs) = goalsWeight program gs * goalsWeight program hs
  | [], _ => (Nat.one_mul _).symm
  | g :: gs, hs => by
    rw [List.cons_append, goalsWeight, goalsWeight, goalsWeight_append program gs hs, Nat.mul_assoc]

/-- Substitution leaves weights alone. -/
theorem goalsWeight_map_subst {μ : Type} (program : List (Clause σ)) (f : ν → Term μ) :
    ∀ gs : List (Goal ν), goalsWeight program (gs.map (Goal.subst f)) = goalsWeight program gs
  | [] => rfl
  | g :: gs => congrArg (goalWeight program g.budget * ·) (goalsWeight_map_subst program f gs)

/-- Goals with one budget weigh a power. -/
theorem goalsWeight_same (program : List (Clause σ)) (f : Atom ν → Atom ν) (b : Nat) :
    ∀ as : List (Atom ν), goalsWeight program (as.map fun a => ⟨f a, b⟩) =
      Nat.pow (goalWeight program b) as.length
  | [] => rfl
  | a :: as => by
    rw [List.map_cons, goalsWeight, goalsWeight_same program f b as, Nat.mul_comm]
    rfl

/-- The goals that a trial leaves weigh no more than the clause's body times the other goals. -/
theorem goalsWeight_of_trial [DecidableEq σ] {use : Nat} {program : List (Clause σ)} {c : Clause σ}
    {g : Goal (Var σ)} {rest goals : List (Goal (Var σ))} {answer answer' : List (Term (Var σ))}
    (h : trial use c g rest answer = .goesOn goals answer') :
    goalsWeight program goals ≤ bodyWeight program g.budget c * goalsWeight program rest := by
  unfold trial at h
  dsimp only at h
  split at h
  · cases h
  · next s _ =>
    split at h
    · next hb =>
      have hc : c.body = [] := by simpa [Clause.map] using hb
      cases h
      rw [goalsWeight_map_subst]
      unfold bodyWeight
      cases g.budget <;> simp [hc]
    · cases h
    · next a as b hb hbudget =>
      have hc : (a :: as).length = c.body.length := by
        simp only [Clause.map] at hb
        simp [← hb]
      cases h
      exact Nat.le_of_eq (by
        rw [goalsWeight_append, goalsWeight_map_subst, goalsWeight_same, hbudget, bodyWeight, hc])

end HornReasoner
