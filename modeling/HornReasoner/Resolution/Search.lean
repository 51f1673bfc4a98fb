/-
# Depth-first search for proofs

The search keeps its open choices on a stack, the newest on top. It ends when the
stack is empty or as many answers are found as there was room for. A branch that
is cut fails on its own; the others are searched as before. That the search ends
follows from its weight: each step takes more from the stack than it puts there.

Key definitions: `Search`, `Search.step`, `Search.run`, `prove`.
Key theorem: `Search.weight_step_lt`.
-/
import HornReasoner.Resolution.Weight

namespace HornReasoner

/-- The state of a search. -/
structure Search (σ : Type) where
  /-- Open choices, the newest first. -/
  stack : List (Choice σ)
  /-- Answers found, the newest first. -/
  found : List (List (Term (Var σ)))
  /-- How many more answers are wanted. -/
  room : Nat
  /-- How many times a clause has been tried on a goal with its predicate. -/
  uses : Nat
  /-- Some branch was cut. -/
  cut : Bool
  deriving DecidableEq, Repr

namespace Search

variable {σ : Type}

/-- A bound on the steps that are left. -/
def weight (program : List (Clause σ)) (s : Search σ) : Nat :=
  sumOver s.stack (choiceWeight program)

variable [DecidableEq σ]

/-- One step: an answer is taken when no goal is left, a choice is dropped when no clause is left,
and otherwise its next clause is tried. A search that is over has no step. -/
def step (program : List (Clause σ)) (s : Search σ) : Option (Search σ) :=
  match s.room, s.stack with
  | 0, _ => none
  | _, [] => none
  | room + 1, ⟨[], answer, _⟩ :: below =>
    some { s with stack := below, found := answer :: s.found, room }
  | _, ⟨_ :: _, _, []⟩ :: below => some { s with stack := below }
  | _, ⟨g :: rest, answer, c :: untried⟩ :: below =>
    let waiting := ⟨g :: rest, answer, untried⟩ :: below
    if c.head.sameSymbol g.atom then
      let uses := s.uses + 1
      match trial uses c g rest answer with
      | .fails => some { s with stack := waiting, uses }
      | .cut => some { s with stack := waiting, uses, cut := true }
      | .goesOn goals answer => some { s with stack := ⟨goals, answer, program⟩ :: waiting, uses }
    else some { s with stack := waiting }

/-- **Every step takes weight from the stack.** -/
theorem weight_step_lt {program : List (Clause σ)} {s s' : Search σ}
    (h : s.step program = some s') : s'.weight program < s.weight program := by
  obtain ⟨stack, found, room, uses, cut⟩ := s
  unfold step at h
  dsimp only at h
  split at h
  · cases h
  · cases h
  · cases h
    simp [weight, choiceWeight]
  · cases h
    simp [weight, choiceWeight]
  · next g rest answer c untried below _ =>
    split at h
    · split at h
      · cases h
        simp only [weight, choiceWeight, sumOver_cons]
        omega
      · cases h
        simp only [weight, choiceWeight, sumOver_cons]
        omega
      · next goals answer' ht =>
        cases h
        have h1 := @goalsWeight_of_trial _ _ _ program _ _ _ _ _ _ ht
        have h2 := choiceWeight_le program goals answer'
        simp only [weight, sumOver_cons]
        simp only [choiceWeight, sumOver_cons] at h2 ⊢
        omega
    · cases h
      simp only [weight, choiceWeight, sumOver_cons]
      omega

/-- The state in which the search is over. -/
def run (program : List (Clause σ)) (s : Search σ) : Search σ :=
  match _h : s.step program with
  | none => s
  | some s' => run program s'
termination_by s.weight program
decreasing_by exact weight_step_lt _h

/-- Before the first step: the goal alone, with the terms that make up its answer. -/
def start (program : List (Clause σ)) (goal : Atom σ) (answer : List (Term σ)) (depth room : Nat) :
    Search σ where
  stack := [⟨[⟨goal.map (Var.mk 0), depth⟩], answer.map (Term.map (Var.mk 0)), program⟩]
  found := []
  room := room
  uses := 0
  cut := false

end Search

/-- What is known of a goal: the answers found, in order, or that nothing was found and some branch
was cut. -/
inductive Verdict (σ : Type)
  | answers (found : List (List (Term (Var σ))))
  | undecided
  deriving DecidableEq, Repr

/-- Proves a goal with at most `depth` rules on a path, until `room` answers are found. An answer is
what the proof makes of the given terms. -/
def prove {σ : Type} [DecidableEq σ] (program : List (Clause σ)) (goal : Atom σ)
    (answer : List (Term σ)) (depth room : Nat) : Verdict σ :=
  let final := (Search.start program goal answer depth room).run program
  if final.cut && final.found.isEmpty then .undecided else .answers final.found.reverse

end HornReasoner
