/-
# What a choice leads to

A choice on the stack stands for everything that the recursion finds from its goals
on (`Choice.outcome`), and so does a stack of choices (`stackOutcome`). Where the
recursion keeps bindings, a choice has them written into its goals; and where the
recursion numbers the uses of clauses along a branch, the search numbers them over
all branches. Branches that are alike show the same answers, so neither matters
(`proveGoals_subst`, `Choice.outcome_mono`), and using a clause leads to what the
trial of it leads to (`useClause_eq_trial`).

Key definitions: `proveGoals`, `Branch.shows`, `Choice.outcome`, `Trial.outcome`,
`stackOutcome`.
Key theorems: `proveGoals_subst`, `Choice.outcome_mono`, `useClause_eq_trial`.
-/
import HornReasoner.Proofs.Resolution.Variant

namespace HornReasoner

variable {σ : Type} [DecidableEq σ] {program : List (Clause σ)}

/-! ### Goals and choices by recursion -/

/-- Proves goals from left to right, each with its own budget. -/
def proveGoals (program : List (Clause σ)) : List (Goal (Var σ)) → Branch σ → Outcome (Branch σ)
  | [], b => .all [b]
  | g :: gs, b => (proveAtom program g.budget g.atom b).bind (proveGoals program gs)

/-- The answer as a branch shows it. -/
def Branch.shows (answer : List (Term (Var σ))) (b : Branch σ) : List String :=
  answer.map fun t => (b.subst.walk t).shown

/-- What a choice leads to when `uses` clauses have been used. -/
def Choice.outcome (program : List (Clause σ)) (uses : Nat) (c : Choice σ) : Outcome (List String) :=
  match c.goals with
  | [] => .all [c.answer.map Term.shown]
  | g :: gs =>
    (((Outcome.all c.untried).bind
      (Branch.useClause (proveBody program g.budget) g.atom ⟨.empty, uses⟩)).bind
        (proveGoals program gs)).map (Branch.shows c.answer)

/-- What a trial leads to. -/
def Trial.outcome (program : List (Clause σ)) (uses : Nat) : Trial σ → Outcome (List String)
  | .fails => .all []
  | .cut => .cutOff
  | .goesOn goals answer => Choice.outcome program uses ⟨goals, answer, program⟩

/-- What open choices lead to, the newest first. -/
def stackOutcome (program : List (Clause σ)) (uses : Nat) (stack : List (Choice σ)) :
    Outcome (List String) :=
  (Outcome.all stack).bind (Choice.outcome program uses)

theorem proveGoals_append (gs hs : List (Goal (Var σ))) (b : Branch σ) :
    proveGoals program (gs ++ hs) b = (proveGoals program gs b).bind (proveGoals program hs) := by
  induction gs generalizing b with
  | nil => exact (Outcome.one_bind b _).symm
  | cons g gs ih =>
    rw [List.cons_append, proveGoals, proveGoals, Outcome.bind_assoc]
    exact Outcome.bind_congr fun b' _ => ih b'

theorem proveAll_eq_proveGoals (n : Nat) (as : List (Atom (Var σ))) (b : Branch σ) :
    proveAll (proveAtom program n) as b = proveGoals program (as.map fun a => ⟨a, n⟩) b := by
  induction as generalizing b with
  | nil => rfl
  | cons a as ih =>
    rw [List.map_cons, proveAll_cons, proveGoals]
    exact Outcome.bind_congr fun b' _ => ih b'

/-- A choice that has tried nothing leads to what its goals lead to. -/
theorem Choice.outcome_untried (uses : Nat) (goals : List (Goal (Var σ))) (answer : List (Term (Var σ))) :
    Choice.outcome program uses ⟨goals, answer, program⟩ =
      (proveGoals program goals ⟨.empty, uses⟩).map (Branch.shows answer) := by
  cases goals with
  | nil => rfl
  | cons g gs => rw [proveGoals, proveAtom_eq]; rfl

/-! ### Branches that are alike show the same -/

omit [DecidableEq σ] in
theorem Term.shown_map {τ : Type} (f : σ → τ) (t : Term σ) : (t.map f).shown = t.shown := by
  cases t <;> rfl

variable {P : Term (Var σ) → Term (Var σ) → Prop} {b b' : Branch σ}

/-- Branches that are alike show the same value for paired terms. -/
theorem Branch.Alike.shown_eq (h : b.Alike P b') {x x' : Term (Var σ)} (hx : P x x') :
    (b.subst.walk x).shown = (b'.subst.walk x').shown := by
  obtain ⟨r, hr⟩ := h.agrees
  have hwalk : (b.subst.walk x).map r.name = b'.subst.walk x' := hr x x' hx
  rw [← hwalk, Term.shown_map]

theorem Branch.Alike.shows_eq (h : b.Alike P b') {answer answer' : List (Term (Var σ))}
    (ha : List.Forall₂ P answer answer') : b.shows answer = b'.shows answer' := by
  induction ha with
  | nil => rfl
  | cons hx _ ih => exact congrArg₂ List.cons (h.shown_eq hx) ih

/-- The goals have the same budget, and their atoms are paired by `P`. -/
structure Goal.Paired (P : Term (Var σ) → Term (Var σ) → Prop) (g g' : Goal (Var σ)) : Prop where
  atom : g.atom.Paired P g'.atom
  budget : g.budget = g'.budget

theorem alike_proveGoals {gs gs' : List (Goal (Var σ))} (h : b.Alike P b')
    (hg : List.Forall₂ (Goal.Paired P) gs gs') :
    Outcome.Related (Branch.Alike P) (proveGoals program gs b) (proveGoals program gs' b') := by
  induction hg generalizing b b' with
  | nil => exact Outcome.related_one h
  | cons hg _ ih =>
    rw [proveGoals, proveGoals, ← hg.budget]
    exact (alike_proveAtom (Clause.variants_refl program) _ h hg.atom).bind fun b b' hb => ih hb

/-! ### Bindings written into the goals -/

/-- Every variable of the choice belongs to the first `n` uses. -/
structure Choice.Within (n : Nat) (c : Choice σ) : Prop where
  goals : ∀ g ∈ c.goals, g.atom.Within (Var.UpTo n)
  answer : ∀ t ∈ c.answer, t.Within (Var.UpTo n)

omit [DecidableEq σ] in
theorem Choice.Within.mono {n m : Nat} {c : Choice σ} (h : c.Within n) (hnm : n ≤ m) : c.Within m where
  goals g hg t ht := (h.goals g hg t ht).mono (Var.UpTo.mono hnm)
  answer t ht := (h.answer t ht).mono (Var.UpTo.mono hnm)

omit [DecidableEq σ] in
theorem forall₂_map_of_mem {α β : Type} {R : α → β → Prop} {f : α → β} {l : List α}
    (h : ∀ a ∈ l, R a (f a)) : List.Forall₂ R l (l.map f) :=
  List.forall₂_map_right_iff.mpr (List.forall₂_same.mpr h)

/-- A term of the first `n` uses, and the same term with the bindings of `s` written into it. -/
def Written (s : Substitution (Var σ)) (n : Nat) (x x' : Term (Var σ)) : Prop :=
  x.Within (Var.UpTo n) ∧ x' = x.subst s.apply

theorem alike_written {s : Substitution (Var σ)} {n m : Nat} (hs : s.Within (Var.UpTo n)) (hnm : n ≤ m) :
    Branch.Alike (Written s n) ⟨s, n⟩ ⟨.empty, m⟩ where
  left := hs
  right := Substitution.within_empty _
  leftTerms x x' hx := hx.1
  rightTerms x x' hx := by
    rw [hx.2]
    exact (hs.subst_apply hx.1).mono (Var.UpTo.mono hnm)
  agrees := by
    refine ⟨.keep hnm, fun x x' hx => ?_⟩
    show (s.walk x).map id = x'
    rw [hx.2, s.subst_apply, Term.map_id]

/-- Instead of keeping the bindings of a branch, they may be written into goals and answer. -/
theorem proveGoals_subst {s : Substitution (Var σ)} {n : Nat} {gs : List (Goal (Var σ))}
    {answer : List (Term (Var σ))} (hs : s.Within (Var.UpTo n))
    (hgs : ∀ g ∈ gs, g.atom.Within (Var.UpTo n)) (ha : ∀ t ∈ answer, t.Within (Var.UpTo n)) :
    (proveGoals program gs ⟨s, n⟩).map (Branch.shows answer) =
      (proveGoals program (gs.map (Goal.subst s.apply)) ⟨.empty, n⟩).map
        (Branch.shows (answer.map (Term.subst s.apply))) := by
  have hgoals : List.Forall₂ (Goal.Paired (Written s n)) gs (gs.map (Goal.subst s.apply)) :=
    forall₂_map_of_mem fun g hg =>
      ⟨⟨rfl, forall₂_map_of_mem fun t ht => ⟨hgs g hg t ht, rfl⟩⟩, rfl⟩
  have hanswer : List.Forall₂ (Written s n) answer (answer.map (Term.subst s.apply)) :=
    forall₂_map_of_mem fun t ht => ⟨ha t ht, rfl⟩
  exact (alike_proveGoals (alike_written hs (Nat.le_refl n)) hgoals).map_eq
    fun b b' hb => hb.shows_eq hanswer

theorem written_self {n : Nat} {l : List (Term (Var σ))} (hl : ∀ t ∈ l, t.Within (Var.UpTo n)) :
    List.Forall₂ (Written .empty n) l l :=
  List.forall₂_same.mpr fun t ht => ⟨hl t ht, (Substitution.subst_apply .empty t).symm⟩

/-- What a choice leads to does not depend on how many clauses have been used elsewhere. -/
theorem Choice.outcome_mono {n m : Nat} {c : Choice σ} (hc : c.Within n) (hnm : n ≤ m) :
    c.outcome program m = c.outcome program n := by
  obtain ⟨goals, answer, untried⟩ := c
  cases goals with
  | nil => rfl
  | cons g gs =>
    have halike : Branch.Alike (σ := σ) (Written .empty n) ⟨.empty, n⟩ ⟨.empty, m⟩ :=
      alike_written (Substitution.within_empty _) hnm
    have hatom : g.atom.Paired (Written .empty n) g.atom :=
      ⟨rfl, written_self (hc.goals g List.mem_cons_self)⟩
    have hgoals : List.Forall₂ (Goal.Paired (Written .empty n)) gs gs :=
      List.forall₂_same.mpr fun g' hg' =>
        ⟨⟨rfl, written_self (hc.goals g' (List.mem_cons_of_mem _ hg'))⟩, rfl⟩
    refine (Outcome.Related.map_eq (R := Branch.Alike (Written .empty n)) ?_ fun b b' hb =>
      hb.shows_eq (written_self hc.answer)).symm
    refine Outcome.Related.bind ?_ fun b b' hb => alike_proveGoals hb hgoals
    exact (Outcome.related_all (Clause.variants_refl untried)).bind fun d d' hd =>
      alike_useClause (alike_proveBody (Clause.variants_refl program) _) halike hatom hd

/-! ### A trial by recursion -/

/-- Using a clause on the first goal and going on with the rest is what a trial leads to. -/
theorem useClause_eq_trial {n : Nat} {c : Clause σ} {g : Goal (Var σ)} {rest : List (Goal (Var σ))}
    {answer : List (Term (Var σ))} (hc : Choice.Within n ⟨g :: rest, answer, []⟩) :
    (((Branch.useClause (proveBody program g.budget) g.atom ⟨.empty, n⟩ c).bind
      (proveGoals program rest)).map (Branch.shows answer)) =
        (trial (n + 1) c g rest answer).outcome program (n + 1) := by
  have hup := Var.UpTo.mono (σ := σ) (Nat.le_succ n)
  unfold Branch.useClause trial
  dsimp only [Clause.map]
  cases hu : Substitution.empty.unifyAtoms (c.head.map (Var.mk (n + 1))) g.atom with
  | none => rfl
  | some s =>
    have hs : s.Within (Var.UpTo (n + 1)) :=
      (Substitution.within_empty _).unifyAtoms (Atom.within_copy _ _)
        (fun t ht => (hc.goals g List.mem_cons_self t ht).mono hup) hu
    have hrest : ∀ g ∈ rest, g.atom.Within (Var.UpTo (n + 1)) := fun g' hg' t ht =>
      (hc.goals g' (List.mem_cons_of_mem _ hg') t ht).mono hup
    have hanswer : ∀ t ∈ answer, t.Within (Var.UpTo (n + 1)) := fun t ht => (hc.answer t ht).mono hup
    have hbody : ∀ a ∈ c.body.map (Atom.map (Var.mk (n + 1))), a.Within (Var.UpTo (n + 1)) := by
      intro a ha
      obtain ⟨d, -, rfl⟩ := List.mem_map.mp ha
      exact d.within_copy _
    dsimp only
    generalize c.body.map (Atom.map (Var.mk (n + 1))) = body at hbody ⊢
    cases body with
    | nil =>
      have hnil : proveBody program g.budget [] ⟨s, n + 1⟩ = .all [⟨s, n + 1⟩] := by
        cases g.budget <;> rfl
      rw [hnil, Outcome.one_bind, proveGoals_subst hs hrest hanswer]
      exact (Choice.outcome_untried _ _ _).symm
    | cons a as =>
      cases g.budget with
      | zero => rfl
      | succ b =>
        show ((proveAll (proveAtom program b) (a :: as) ⟨s, n + 1⟩).bind _).map _ = _
        rw [proveAll_eq_proveGoals]
        have hgoals : ∀ g ∈ (a :: as).map (Goal.mk · b) ++ rest, g.atom.Within (Var.UpTo (n + 1)) := by
          intro g' hg'
          rcases List.mem_append.mp hg' with hg' | hg'
          · obtain ⟨d, hd, rfl⟩ := List.mem_map.mp hg'
            exact hbody d hd
          · exact hrest g' hg'
        rw [← proveGoals_append, proveGoals_subst hs hgoals hanswer, ← Choice.outcome_untried,
          List.map_append, List.map_map]
        rfl

end HornReasoner
