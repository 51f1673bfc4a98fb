/-
# Resolution ends under a limit of rules

A search need not write its bindings into goals and answers. The resolver keeps them
beside the goals of each choice, follows them when it unifies, and looks up the values of
the variables asked for at the end. With its bindings written out it is the search, step
by step (`Resolver.step_written`): the variables of a new copy are free, so unifying the
head with the goal comes to the same before and after writing. So what bounds the steps
of the search bounds those of the resolver, whatever the clauses are, and each chain of
bindings that it follows ends (`resolution_terminates`).

Key definitions: `Substitution.followedBy`, `Frame`, `Resolver`, `Resolver.step`,
`Resolver.written`, `Resolver.Sound`.
Key theorems: `Substitution.unifyAtoms_eq`, `Resolver.step_written`, `Resolver.Sound.step`,
`resolution_terminates`.
-/
import HornReasoner.Proofs.Resolution.Chain
import HornReasoner.Proofs.Resolution.Depth

namespace HornReasoner

/-! ### Bindings made later -/

namespace Substitution

variable {ν : Type} [DecidableEq ν]

/-- The bindings of one substitution and then those of another. -/
def followedBy (s t : Substitution ν) : Substitution ν :=
  ⟨s.bindings ++ t.bindings⟩

theorem walk_followedBy (s t : Substitution ν) (x : Term ν) :
    (s.followedBy t).walk x = t.walk (s.walk x) :=
  List.foldl_append

theorem subst_followedBy (s t : Substitution ν) (x : Term ν) :
    x.subst (s.followedBy t).apply = (x.subst s.apply).subst t.apply := by
  rw [subst_apply, subst_apply, subst_apply, walk_followedBy]

theorem map_term_subst_followedBy (s t : Substitution ν) (xs : List (Term ν)) :
    xs.map (Term.subst (s.followedBy t).apply) =
      (xs.map (Term.subst s.apply)).map (Term.subst t.apply) := by
  rw [List.map_map]
  exact List.map_congr_left fun x _ => s.subst_followedBy t x

theorem atom_subst_followedBy (s t : Substitution ν) (a : Atom ν) :
    a.subst (s.followedBy t).apply = (a.subst s.apply).subst t.apply :=
  congrArg (Atom.mk a.predicate) (s.map_term_subst_followedBy t a.args)

theorem map_goal_subst_followedBy (s t : Substitution ν) (gs : List (Goal ν)) :
    gs.map (Goal.subst (s.followedBy t).apply) =
      (gs.map (Goal.subst s.apply)).map (Goal.subst t.apply) := by
  rw [List.map_map]
  exact List.map_congr_left fun g _ => congrArg (Goal.mk · g.budget) (s.atom_subst_followedBy t g.atom)

omit [DecidableEq ν] in
theorem followedBy_bind (s t : Substitution ν) (v : ν) (x : Term ν) :
    (s.followedBy t).bind v x = s.followedBy (t.bind v x) :=
  congrArg Substitution.mk (List.append_assoc ..)

omit [DecidableEq ν] in
theorem followedBy_empty (s : Substitution ν) : s.followedBy .empty = s :=
  congrArg Substitution.mk (List.append_nil _)

/-- Earlier bindings may be followed before terms are unified. -/
theorem unify_followedBy (s t : Substitution ν) (l r : Term ν) :
    (s.followedBy t).unify l r = (t.unify (s.walk l) (s.walk r)).map s.followedBy := by
  unfold unify
  rw [walk_followedBy, walk_followedBy]
  cases t.walk (s.walk l) with
  | const a =>
    cases t.walk (s.walk r) with
    | const b =>
      dsimp only
      split <;> rfl
    | var v => exact congrArg some (s.followedBy_bind t v _)
  | var v =>
    dsimp only
    split
    · rfl
    · exact congrArg some (s.followedBy_bind t v _)

theorem unifyArgs_followedBy (s : Substitution ν) : ∀ (t : Substitution ν) (ls rs : List (Term ν)),
    (s.followedBy t).unifyArgs ls rs = (t.unifyArgs (ls.map s.walk) (rs.map s.walk)).map s.followedBy
  | _, [], [] => rfl
  | t, l :: ls, r :: rs => by
    rw [unifyArgs, unify_followedBy, List.map_cons, List.map_cons, unifyArgs]
    cases t.unify (s.walk l) (s.walk r) with
    | none => rfl
    | some u => exact unifyArgs_followedBy s u ls rs
  | _, [], _ :: _ => rfl
  | _, _ :: _, [] => rfl

/-- **Bindings may be written into atoms before these are unified.** -/
theorem unifyAtoms_eq (s : Substitution ν) (a b : Atom ν) :
    s.unifyAtoms a b = (empty.unifyAtoms (a.subst s.apply) (b.subst s.apply)).map s.followedBy := by
  have hwalk : Term.subst s.apply = s.walk := funext s.subst_apply
  unfold unifyAtoms Atom.subst
  dsimp only
  split
  · rw [hwalk, ← unifyArgs_followedBy, followedBy_empty]
  · rfl

end Substitution

variable {σ : Type} [DecidableEq σ]

/-- The variables of a later use are free. -/
theorem Substitution.Within.subst_copy {s : Substitution (Var σ)} {n : Nat} (h : s.Within (Var.UpTo n))
    (a : Atom σ) : (a.map (Var.mk (n + 1))).subst s.apply = a.map (Var.mk (n + 1)) := by
  have hterm : ∀ t : Term σ, (t.map (Var.mk (n + 1))).subst s.apply = t.map (Var.mk (n + 1)) := by
    intro t
    cases t with
    | const c => rfl
    | var v => exact h.walk_var (Nat.not_succ_le_self n)
  unfold Atom.subst Atom.map
  dsimp only
  rw [List.map_map]
  exact congrArg _ (List.map_congr_left fun t _ => hterm t)

/-- Into the goals of a later use only later bindings are written. -/
theorem Substitution.Within.map_goal_subst_copies {s : Substitution (Var σ)} {n : Nat}
    (h : s.Within (Var.UpTo n)) (t : Substitution (Var σ)) (b : Nat) (as : List (Atom σ)) :
    ((as.map (Atom.map (Var.mk (n + 1)))).map fun a => (⟨a, b⟩ : Goal (Var σ))).map
        (Goal.subst (s.followedBy t).apply) =
      (as.map (Atom.map (Var.mk (n + 1)))).map fun a => ⟨a.subst t.apply, b⟩ := by
  rw [List.map_map, List.map_map, List.map_map]
  refine List.map_congr_left fun a _ => congrArg (Goal.mk · b) ?_
  rw [s.atom_subst_followedBy, h.subst_copy]

/-! ### A search that keeps its bindings -/

/-- A point of the search that keeps its bindings: the goals left, the bindings so far, and the clauses
not yet tried on the first goal. -/
structure Frame (σ : Type) where
  goals : List (Goal (Var σ))
  subst : Substitution (Var σ)
  untried : List (Clause σ)
  deriving DecidableEq, Repr

/-- The state of a search that keeps its bindings; an answer is the bindings of a proof. -/
structure Resolver (σ : Type) where
  /-- Open frames, the newest first. -/
  stack : List (Frame σ)
  /-- The bindings of the proofs found, the newest first. -/
  found : List (Substitution (Var σ))
  /-- How many more answers are wanted. -/
  room : Nat
  /-- How many times a clause has been tried on a goal with its predicate. -/
  uses : Nat
  /-- Some branch was cut. -/
  cut : Bool
  deriving DecidableEq, Repr

namespace Resolver

variable {program : List (Clause σ)} {s s' : Resolver σ}

/-- Tries a clause on the first goal of a frame: its head is unified with the goal under the bindings
of the frame. -/
def tryClause (program : List (Clause σ)) (c : Clause σ) (g : Goal (Var σ)) (rest : List (Goal (Var σ)))
    (subst : Substitution (Var σ)) (s : Resolver σ) : Resolver σ :=
  let copy := c.map (Var.mk (s.uses + 1))
  match subst.unifyAtoms copy.head g.atom with
  | none => { s with uses := s.uses + 1 }
  | some subst =>
    match copy.body, g.budget with
    | [], _ => { s with stack := ⟨rest, subst, program⟩ :: s.stack, uses := s.uses + 1 }
    | _ :: _, 0 => { s with uses := s.uses + 1, cut := true }
    | a :: as, b + 1 =>
      { s with stack := ⟨(a :: as).map (fun a => ⟨a, b⟩) ++ rest, subst, program⟩ :: s.stack,
               uses := s.uses + 1 }

/-- One step of the search. -/
def step (program : List (Clause σ)) (s : Resolver σ) : Option (Resolver σ) :=
  match s.room, s.stack with
  | 0, _ => none
  | _, [] => none
  | room + 1, ⟨[], subst, _⟩ :: below => some { s with stack := below, found := subst :: s.found, room }
  | _, ⟨_ :: _, _, []⟩ :: below => some { s with stack := below }
  | _, ⟨g :: rest, subst, c :: untried⟩ :: below =>
    let waiting := { s with stack := ⟨g :: rest, subst, untried⟩ :: below }
    some (if c.head.sameSymbol g.atom then waiting.tryClause program c g rest subst else waiting)

/-- Before the first step. -/
def start (program : List (Clause σ)) (goal : Atom σ) (depth room : Nat) : Resolver σ where
  stack := [⟨[⟨goal.map (Var.mk 0), depth⟩], .empty, program⟩]
  found := []
  room := room
  uses := 0
  cut := false

end Resolver

/-! ### Bindings written out -/

/-- A frame with its bindings written into the goals and into the terms of the answer. -/
def Frame.written (answer : List (Term (Var σ))) (f : Frame σ) : Choice σ where
  goals := f.goals.map (Goal.subst f.subst.apply)
  answer := answer.map (Term.subst f.subst.apply)
  untried := f.untried

omit [DecidableEq σ] in
/-- A search starts with what its goal weighs. -/
theorem Search.weight_start_le (program : List (Clause σ)) (goal : Atom σ) (answer : List (Term σ))
    (depth room : Nat) :
    (Search.start program goal answer depth room).weight program ≤ goalWeight program depth := by
  have hchoice := choiceWeight_le program [⟨goal.map (Var.mk 0), depth⟩] (answer.map (Term.map (Var.mk 0)))
  rw [goalsWeight, goalsWeight, Nat.mul_one] at hchoice
  exact hchoice

/-- Where rounds of a search lead, its run leads. -/
theorem Search.run_of_rounds {program : List (Clause σ)} {n : Nat} {s s' : Search σ}
    (h : rounds (Search.step program) n s = some s') : s.run program = s'.run program :=
  (rounds_induction (I := fun t => s.run program = t.run program)
    (fun _ _ ht hstep => ht.trans (run_of_step_eq_some hstep)) rfl h)

namespace Resolver

variable {program : List (Clause σ)} {s s' : Resolver σ}

/-- The search with all bindings written out. -/
def written (answer : List (Term (Var σ))) (s : Resolver σ) : Search σ where
  stack := s.stack.map (Frame.written answer)
  found := s.found.map fun θ => answer.map (Term.subst θ.apply)
  room := s.room
  uses := s.uses
  cut := s.cut

/-- Putting a frame on the stack is going on with what the frame is when its bindings are written out. -/
theorem written_push (answer : List (Term (Var σ))) (s : Resolver σ) (f : Frame σ)
    {goals : List (Goal (Var σ))} {answer' : List (Term (Var σ))}
    (hgoals : f.goals.map (Goal.subst f.subst.apply) = goals)
    (hanswer : answer.map (Term.subst f.subst.apply) = answer') :
    written answer { s with stack := f :: s.stack, uses := s.uses + 1 } =
      (s.written answer).afterTrial f.untried (.goesOn goals answer') := by
  rw [← hgoals, ← hanswer]
  rfl

/-- Trying a clause on a frame is trying it on what the frame says with its bindings written out. -/
theorem written_tryClause (answer : List (Term (Var σ))) (c : Clause σ) (g : Goal (Var σ))
    (rest : List (Goal (Var σ))) {subst : Substitution (Var σ)} {s : Resolver σ}
    (h : subst.Within (Var.UpTo s.uses)) :
    (s.tryClause program c g rest subst).written answer =
      (s.written answer).afterTrial program (trial (s.uses + 1) c (g.subst subst.apply)
        (rest.map (Goal.subst subst.apply)) (answer.map (Term.subst subst.apply))) := by
  obtain ⟨head, body⟩ := c
  obtain ⟨atom, budget⟩ := g
  have hatom : (Goal.subst subst.apply ⟨atom, budget⟩).atom = atom.subst subst.apply := rfl
  unfold tryClause trial
  dsimp only [Clause.map]
  rw [subst.unifyAtoms_eq, h.subst_copy, hatom]
  cases Substitution.empty.unifyAtoms (head.map (Var.mk (s.uses + 1))) (atom.subst subst.apply) with
  | none => rfl
  | some t =>
    have hrest := subst.map_goal_subst_followedBy t rest
    have hanswer := subst.map_term_subst_followedBy t answer
    cases body with
    | nil => exact written_push answer s ⟨rest, subst.followedBy t, program⟩ hrest hanswer
    | cons d ds =>
      cases budget with
      | zero => rfl
      | succ b =>
        have hgoals := h.map_goal_subst_copies t b (d :: ds)
        refine written_push answer s ⟨_ ++ rest, subst.followedBy t, program⟩ ?_ hanswer
        rw [List.map_append, hrest]
        exact congrArg (· ++ _) hgoals

/-! ### What the resolver keeps -/

end Resolver

/-- The frame has variables of the first `n` uses only, and the chains of its bindings end. -/
structure Frame.Sound (n : Nat) (f : Frame σ) : Prop where
  goals : ∀ g ∈ f.goals, g.atom.Within (Var.UpTo n)
  within : f.subst.Within (Var.UpTo n)
  chains : f.subst.ChainsEnd

theorem Frame.Sound.mono {n m : Nat} {f : Frame σ} (h : f.Sound n) (hnm : n ≤ m) : f.Sound m where
  goals g hg t ht := (h.goals g hg t ht).mono (Var.UpTo.mono hnm)
  within := h.within.mono (Var.UpTo.mono hnm)
  chains := h.chains

namespace Resolver

variable {program : List (Clause σ)} {s s' : Resolver σ}

/-- Every frame is sound, and the chains of the bindings found end. -/
structure Sound (s : Resolver σ) : Prop where
  stack : ∀ f ∈ s.stack, f.Sound s.uses
  found : ∀ θ ∈ s.found, θ.ChainsEnd

theorem Sound.start (program : List (Clause σ)) (goal : Atom σ) (depth room : Nat) :
    (start program goal depth room).Sound where
  stack f hf := by
    rw [List.mem_singleton.mp hf]
    refine ⟨fun g hg => ?_, Substitution.within_empty _, Substitution.chainsEnd_empty⟩
    rw [List.mem_singleton.mp hg]
    exact goal.within_copy 0
  found θ hθ := absurd hθ List.not_mem_nil

theorem Sound.tryClause {c : Clause σ} {g : Goal (Var σ)} {rest : List (Goal (Var σ))}
    {subst : Substitution (Var σ)} {untried : List (Clause σ)} (h : s.Sound)
    (hf : Frame.Sound s.uses ⟨g :: rest, subst, untried⟩) :
    (s.tryClause program c g rest subst).Sound := by
  have hstack : ∀ f ∈ s.stack, f.Sound (s.uses + 1) := fun f hf => (h.stack f hf).mono (Nat.le_succ _)
  obtain ⟨hgoals, hwithin, hchains⟩ := hf.mono (Nat.le_succ s.uses)
  obtain ⟨hg, hrest⟩ := List.forall_mem_cons.mp hgoals
  unfold Resolver.tryClause
  dsimp only [Clause.map]
  split
  · exact ⟨hstack, h.found⟩
  · next t hu =>
    have ht := hwithin.unifyAtoms (c.head.within_copy _) hg hu
    have htchains := hchains.unifyAtoms hu
    split
    · exact ⟨List.forall_mem_cons.mpr ⟨⟨hrest, ht, htchains⟩, hstack⟩, h.found⟩
    · exact ⟨hstack, h.found⟩
    · next a as b hb _ =>
      refine ⟨List.forall_mem_cons.mpr ⟨⟨fun g' hg' => ?_, ht, htchains⟩, hstack⟩, h.found⟩
      rcases List.mem_append.mp hg' with hg' | hg'
      · obtain ⟨d, hd, rfl⟩ := List.mem_map.mp hg'
        obtain ⟨e, -, rfl⟩ := List.mem_map.mp (hb ▸ hd)
        exact e.within_copy _
      · exact hrest g' hg'

/-- **Every step keeps the resolver sound.** -/
theorem Sound.step (h : s.Sound) (hstep : s.step program = some s') : s'.Sound := by
  obtain ⟨stack, found, room, uses, cut⟩ := s
  unfold Resolver.step at hstep
  dsimp only at hstep
  split at hstep
  · cases hstep
  · cases hstep
  · cases hstep
    obtain ⟨hf, hbelow⟩ := List.forall_mem_cons.mp h.stack
    exact ⟨hbelow, List.forall_mem_cons.mpr ⟨hf.chains, h.found⟩⟩
  · cases hstep
    exact ⟨(List.forall_mem_cons.mp h.stack).2, h.found⟩
  · next g rest subst c untried below _ =>
    obtain ⟨hf, hbelow⟩ := List.forall_mem_cons.mp h.stack
    have hwaits : Frame.Sound uses ⟨g :: rest, subst, untried⟩ := ⟨hf.goals, hf.within, hf.chains⟩
    have hwaiting : Sound ⟨⟨g :: rest, subst, untried⟩ :: below, found, room, uses, cut⟩ :=
      ⟨List.forall_mem_cons.mpr ⟨hwaits, hbelow⟩, h.found⟩
    cases hstep
    split
    · exact hwaiting.tryClause hwaits
    · exact hwaiting

/-- **With its bindings written out the resolver is the search**, step by step. -/
theorem step_written (answer : List (Term (Var σ))) (h : s.Sound) :
    (s.written answer).step program = (s.step program).map (written answer) := by
  obtain ⟨stack, found, room, uses, cut⟩ := s
  cases room with
  | zero => rfl
  | succ room =>
    rcases stack with _ | ⟨⟨_ | ⟨g, rest⟩, subst, _ | ⟨c, untried⟩⟩, below⟩
    any_goals rfl
    -- what is left is a goal with a clause to try
    have hsame : c.head.sameSymbol (g.subst subst.apply).atom = c.head.sameSymbol g.atom := by
      simp [Atom.sameSymbol, Goal.subst, Atom.subst]
    have hwithin : subst.Within (Var.UpTo uses) := (h.stack _ List.mem_cons_self).within
    unfold step
    dsimp only [Option.map_some]
    cases hsymbol : c.head.sameSymbol g.atom with
    | true =>
      rw [if_pos rfl, written_tryClause answer c g rest hwithin]
      exact Search.step_try (hsame.trans hsymbol)
    | false =>
      rw [if_neg Bool.false_ne_true]
      exact Search.step_skip (hsame.trans hsymbol)

theorem rounds_written (answer : List (Term (Var σ))) {n : Nat} (h : s.Sound)
    (hrounds : rounds (step program) n s = some s') :
    rounds (Search.step program) n (s.written answer) = some (s'.written answer) := by
  induction n generalizing s with
  | zero =>
    cases hrounds
    rfl
  | succ n ih =>
    obtain ⟨t, ht, hrest⟩ := Option.bind_eq_some_iff.mp hrounds
    have hwritten : (s.written answer).step program = some (t.written answer) := by
      rw [step_written answer h, ht, Option.map_some]
    rw [rounds_succ_of_eq_some hwritten, ih (h.step ht) hrest]

/-- Where the resolver stops, the search stops that is written out. -/
theorem run_written (answer : List (Term (Var σ))) {n : Nat} (h : s.Sound)
    (hstops : StopsAfter (step program) n s s') :
    (s.written answer).run program = s'.written answer := by
  obtain ⟨hrounds, hstop⟩ := hstops
  have hsound : s'.Sound := rounds_induction (fun _ _ ht hstep => ht.step hstep) h hrounds
  have hover : (s'.written answer).step program = none := by
    rw [step_written answer hsound, hstop, Option.map_none]
  rw [Search.run_of_rounds (rounds_written answer h hrounds), Search.run_of_step_eq_none hover]

/-- **The resolver stops**, after at most as many steps as its stack weighs. -/
theorem exists_stopsAfter_step (program : List (Clause σ)) (h : s.Sound) :
    ∃ n ≤ (s.written []).weight program, ∃ s', StopsAfter (step program) n s s' := by
  refine exists_stopsAfter (fun s => (s.written []).weight program) (fun t t' ht hstep => ?_) h
  have hwritten : (t.written []).step program = some (t'.written []) := by
    rw [step_written [] ht, hstep, Option.map_some]
  exact ⟨ht.step hstep, Search.weight_step_lt hwritten⟩

theorem written_start (program : List (Clause σ)) (goal : Atom σ) (answer : List (Term σ))
    (depth room : Nat) :
    (start program goal depth room).written (answer.map (Term.map (Var.mk 0))) =
      Search.start program goal answer depth room := by
  have hid : Term.subst (Substitution.empty : Substitution (Var σ)).apply = id :=
    funext fun x => Substitution.subst_apply .empty x
  unfold written start Search.start
  simp [Frame.written, Goal.subst, Atom.subst, hid]

/-- The bindings that a resolver keeps, of its frames and of the proofs found. -/
def kept (s : Resolver σ) : List (Substitution (Var σ)) :=
  s.stack.map Frame.subst ++ s.found

theorem Sound.chainsEnd_of_mem_kept (h : s.Sound) {θ : Substitution (Var σ)} (hθ : θ ∈ s.kept) :
    θ.ChainsEnd := by
  rcases List.mem_append.mp hθ with hθ | hθ
  · obtain ⟨f, hf, rfl⟩ := List.mem_map.mp hθ
    exact (h.stack f hf).chains
  · exact h.found θ hθ

/-- The answers to a goal when the resolver is over: the values of the variables asked for, under the
bindings of each proof. -/
def result (goal : Atom String) (depth : Nat) (s : Resolver Slot) : Except QueryError (List Binding) :=
  if s.cut && s.found.isEmpty then .error (.depthLimitExceeded depth)
  else .ok (s.found.reverse.map fun θ =>
    SortedMap.ofList (goal.asked.map fun v => (v, (θ.walk (.var ⟨0, .named v⟩)).shown)))

/-- The rows that the search shows are those of the bindings that the resolver finds. -/
theorem prove_shown_eq {goal : Atom σ} {depth room n : Nat} {final : Resolver σ}
    (h : StopsAfter (step program) n (start program goal depth room) final) (answer : List (Term σ)) :
    (prove program goal answer depth room).shown =
      if final.cut && final.found.isEmpty then none
      else some (final.found.reverse.map fun θ => answer.map fun t => (θ.walk (t.map (Var.mk 0))).shown) := by
  have hrun := run_written (answer.map (Term.map (Var.mk 0))) (.start _ _ _ _) h
  rw [written_start] at hrun
  unfold prove
  dsimp only
  rw [hrun]
  unfold written
  dsimp only
  rw [List.isEmpty_map]
  cases final.cut && final.found.isEmpty with
  | true => rfl
  | false =>
    show some (List.map _ (List.map _ final.found).reverse) = some _
    rw [← List.map_reverse, List.map_map]
    refine congrArg some (List.map_congr_left fun θ _ => ?_)
    rw [Function.comp_apply, List.map_map, List.map_map]
    exact List.map_congr_left fun t _ => congrArg Term.shown (θ.subst_apply _)

/-- The resolver answers what `solve` answers, also on variants of the clauses, and if other slots of the
goal than its names are renamed. -/
theorem solve_eq_result_of_variants {clauses : List (Clause String)} {program : List (Clause Slot)}
    {goal : Atom String} {e : Slot → Slot} {depth room n : Nat} {final : Resolver Slot}
    (hprogram : List.Forall₂ Clause.Variant (clauses.map Clause.apart) program) (he : Function.Injective e)
    (hnames : ∀ v ∈ goal.asked, e (.named v) = .named v)
    (h : StopsAfter (step program) n (start program ((goal.apart 0).map e) depth room) final) :
    solve clauses goal depth room = final.result goal depth := by
  have hasked : (goal.asked.map fun v => .var (.named v)).map (Term.map e) =
      goal.asked.map fun v => .var (.named v) := by
    rw [List.map_map]
    exact List.map_congr_left fun v hv => congrArg Term.var (hnames v hv)
  have hrows := proveRows_variant hprogram he (goal.apart 0) (goal.asked.map fun v => .var (.named v)) depth
  rw [hasked] at hrows
  rw [solve_eq_shown, prove_shown, ← hrows, ← prove_shown, prove_shown_eq h, result]
  cases final.cut && final.found.isEmpty with
  | true => rfl
  | false =>
    show Except.ok (List.map _ (List.map _ final.found.reverse)) = Except.ok _
    rw [List.map_map]
    refine congrArg Except.ok (List.map_congr_left fun θ _ => congrArg SortedMap.ofList ?_)
    rw [List.map_prod_left_eq_zip]
    exact congrArg goal.asked.zip List.map_map

theorem solve_eq_result {clauses : List (Clause String)} {goal : Atom String} {depth room n : Nat}
    {final : Resolver Slot} (h : StopsAfter (step (clauses.map Clause.apart)) n
      (start (clauses.map Clause.apart) (goal.apart 0) depth room) final) :
    solve clauses goal depth room = final.result goal depth := by
  rw [← (goal.apart 0).map_id] at h
  exact solve_eq_result_of_variants (Clause.variants_refl _) Function.injective_id (fun _ _ => rfl) h

end Resolver

/-- **Resolution ends under a limit of rules**, whatever the clauses are and the goal is. The resolver
stops after at most as many steps as the goal weighs, and what it then answers is the answer. On the way
there, and in the middle of a unification, every chain of bindings ends after at most as many steps as
there are bindings. -/
theorem resolution_terminates (clauses : List (Clause String)) (goal : Atom String) (depth room : Nat) :
    (∃ n ≤ goalWeight (clauses.map Clause.apart) depth, ∃ final,
      StopsAfter (Resolver.step (clauses.map Clause.apart)) n
        (.start (clauses.map Clause.apart) (goal.apart 0) depth room) final ∧
      solve clauses goal depth room = final.result goal depth) ∧
    ∀ n s, rounds (Resolver.step (clauses.map Clause.apart)) n
        (.start (clauses.map Clause.apart) (goal.apart 0) depth room) = some s →
      ∀ θ ∈ s.kept, ∀ ls rs θ', θ.unifyArgs ls rs = some θ' →
        ∀ x, ∃ m ≤ θ'.bindings.length, StopsAfter θ'.next? m x (θ'.walk x) := by
  have hstart := Resolver.Sound.start (clauses.map Clause.apart) (goal.apart 0) depth room
  constructor
  · obtain ⟨n, hn, final, hstops⟩ := Resolver.exists_stopsAfter_step (clauses.map Clause.apart) hstart
    have hweight := Search.weight_start_le (clauses.map Clause.apart) (goal.apart 0) [] depth room
    rw [← Resolver.written_start] at hweight
    exact ⟨n, Nat.le_trans hn hweight, final, hstops, Resolver.solve_eq_result hstops⟩
  · intro n s hrounds θ hθ ls rs θ' hunify
    have hsound := rounds_induction (fun _ _ ht hstep => ht.step hstep) hstart hrounds
    exact (hsound.chainsEnd_of_mem_kept hθ).unifyArgs hunify

/-- Who is a friend of `b` is found although friendship is mutual; on the way the rule's own variable
leads in two steps to `a`. -/
theorem friends_terminate :
    (∃ n ≤ goalWeight (friends.map Clause.apart) 4, ∃ final,
      StopsAfter (Resolver.step (friends.map Clause.apart)) n
        (.start (friends.map Clause.apart) (Atom.apart 0 ⟨"friend", [.const "b", .var "W"]⟩) 4 8) final ∧
      solve friends ⟨"friend", [.const "b", .var "W"]⟩ 4 8 =
        final.result ⟨"friend", [.const "b", .var "W"]⟩ 4) ∧
    ∃ m ≤ 3, StopsAfter (Substitution.next? ⟨[(⟨2, .named "X"⟩, .const "b"),
      (⟨2, .named "Y"⟩, .var ⟨0, .named "W"⟩), (⟨0, .named "W"⟩, .const "a")]⟩)
        m (.var (⟨2, .named "Y"⟩ : Var Slot)) (.const "a") := by
  obtain ⟨hstops, hchains⟩ := resolution_terminates friends ⟨"friend", [.const "b", .var "W"]⟩ 4 8
  refine ⟨hstops, ?_⟩
  obtain ⟨s, hs, hkept⟩ : ∃ s, rounds (Resolver.step (friends.map Clause.apart)) 3
      (.start (friends.map Clause.apart) (Atom.apart 0 ⟨"friend", [.const "b", .var "W"]⟩) 4 8) = some s ∧
      ⟨[(⟨2, .named "X"⟩, .const "b"), (⟨2, .named "Y"⟩, .var ⟨0, .named "W"⟩),
        (⟨0, .named "W"⟩, .const "a")]⟩ ∈ s.kept := ⟨_, rfl, by decide +kernel⟩
  exact hchains 3 s hs _ hkept [] [] _ rfl (.var ⟨2, .named "Y"⟩)

end HornReasoner
