/-
# The search does what the recursion does

Everything a search finds is what it has found and what its open choices lead to, as
far as there is room (`Search.total`). No step changes that (`Search.Move.total_eq`),
so when the search is over it has found what the recursion finds, in the same order
and as often, and it knows of a cut unless it stopped for room (`Search.run_spec`).

Key definitions: `Search.Move`, `Search.Within`, `Search.total`.
Key theorems: `Search.move_of_step`, `Search.Move.total_eq`, `Search.run_spec`,
`prove_shown`, `solve_refines_recursion`.
-/
import HornReasoner.Proofs.Resolution.Choice

namespace HornReasoner

variable {σ : Type} [DecidableEq σ] {program : List (Clause σ)}

/-! ### What a step does -/

/-- The six things that a step can do. -/
inductive Search.Move (program : List (Clause σ)) : Search σ → Search σ → Prop
  | answer {answer untried below found room uses cut} :
      Move program ⟨⟨[], answer, untried⟩ :: below, found, room + 1, uses, cut⟩
        ⟨below, answer :: found, room, uses, cut⟩
  | drop {g rest answer below found room uses cut} :
      Move program ⟨⟨g :: rest, answer, []⟩ :: below, found, room + 1, uses, cut⟩
        ⟨below, found, room + 1, uses, cut⟩
  | skip {c g rest answer untried below found room uses cut} (h : c.head.sameSymbol g.atom = false) :
      Move program ⟨⟨g :: rest, answer, c :: untried⟩ :: below, found, room + 1, uses, cut⟩
        ⟨⟨g :: rest, answer, untried⟩ :: below, found, room + 1, uses, cut⟩
  | fails {c g rest answer untried below found room uses cut}
      (h : trial (uses + 1) c g rest answer = .fails) :
      Move program ⟨⟨g :: rest, answer, c :: untried⟩ :: below, found, room + 1, uses, cut⟩
        ⟨⟨g :: rest, answer, untried⟩ :: below, found, room + 1, uses + 1, cut⟩
  | cut {c g rest answer untried below found room uses cut}
      (h : trial (uses + 1) c g rest answer = .cut) :
      Move program ⟨⟨g :: rest, answer, c :: untried⟩ :: below, found, room + 1, uses, cut⟩
        ⟨⟨g :: rest, answer, untried⟩ :: below, found, room + 1, uses + 1, true⟩
  | goesOn {c g rest answer untried below found room uses cut goals answer'}
      (h : trial (uses + 1) c g rest answer = .goesOn goals answer') :
      Move program ⟨⟨g :: rest, answer, c :: untried⟩ :: below, found, room + 1, uses, cut⟩
        ⟨⟨goals, answer', program⟩ :: ⟨g :: rest, answer, untried⟩ :: below, found, room + 1, uses + 1,
          cut⟩

namespace Search

variable {s s' : Search σ}

theorem move_of_step (h : s.step program = some s') : Move program s s' := by
  obtain ⟨stack, found, room, uses, cut⟩ := s
  cases room with
  | zero => cases h
  | succ room =>
    unfold step at h
    dsimp only at h
    split at h
    · next h0 => cases h0
    · cases h
    · next hr => cases hr; cases h; exact .answer
    · cases h; exact .drop
    · next g rest answer c untried below _ =>
      split at h
      · split at h
        · next ht => cases h; exact .fails ht
        · next ht => cases h; exact .cut ht
        · next ht => cases h; exact .goesOn ht
      · next hsym => cases h; exact .skip (Bool.eq_false_iff.mpr hsym)

/-- A search is over when there is no room or nothing open. -/
theorem of_step_eq_none (h : s.step program = none) : s.room = 0 ∨ s.stack = [] := by
  obtain ⟨stack, found, room, uses, cut⟩ := s
  unfold step at h
  dsimp only at h
  split at h
  · exact Or.inl rfl
  · exact Or.inr rfl
  · cases h
  · cases h
  · split at h
    · split at h <;> cases h
    · cases h

/-- What no step changes, the whole search does not change; and then it is over. -/
theorem run_induction (program : List (Clause σ)) {I : Search σ → Prop}
    (hI : ∀ s s', I s → Move program s s' → I s') :
    ∀ s : Search σ, I s →
      I (s.run program) ∧ ((s.run program).room = 0 ∨ (s.run program).stack = []) := by
  intro s
  fun_induction run program s with
  | case1 s h => exact fun hs => ⟨hs, of_step_eq_none h⟩
  | case2 s s' h ih => exact fun hs => ih (hI s s' hs (move_of_step h))

/-- Every variable of an open choice belongs to a use that has been. -/
def Within (s : Search σ) : Prop := ∀ c ∈ s.stack, c.Within s.uses

theorem within_of_trial {n : Nat} {c : Clause σ} {g : Goal (Var σ)} {rest goals : List (Goal (Var σ))}
    {answer answer' : List (Term (Var σ))} {untried untried' : List (Clause σ)}
    (hc : Choice.Within n ⟨g :: rest, answer, untried⟩)
    (h : trial (n + 1) c g rest answer = .goesOn goals answer') :
    Choice.Within (n + 1) ⟨goals, answer', untried'⟩ := by
  have hc' := hc.mono (Nat.le_succ n)
  unfold trial at h
  dsimp only [Clause.map] at h
  split at h
  · cases h
  · next t hu =>
    have ht : t.Within (Var.UpTo (n + 1)) :=
      (Substitution.within_empty _).unifyAtoms (Atom.within_copy _ _) (hc'.goals g List.mem_cons_self) hu
    have hanswer : ∀ x ∈ answer.map (Term.subst t.apply), x.Within (Var.UpTo (n + 1)) := by
      intro x hx
      obtain ⟨y, hy, rfl⟩ := List.mem_map.mp hx
      exact ht.subst_apply (hc'.answer y hy)
    have hatom : ∀ a : Atom (Var σ), a.Within (Var.UpTo (n + 1)) →
        (a.subst t.apply).Within (Var.UpTo (n + 1)) := by
      intro a ha x hx
      obtain ⟨y, hy, rfl⟩ := List.mem_map.mp hx
      exact ht.subst_apply (ha y hy)
    have hrest : ∀ g' ∈ rest.map (Goal.subst t.apply), g'.atom.Within (Var.UpTo (n + 1)) := by
      intro g' hg'
      obtain ⟨d, hd, rfl⟩ := List.mem_map.mp hg'
      exact hatom d.atom (hc'.goals d (List.mem_cons_of_mem _ hd))
    split at h
    · cases h; exact ⟨hrest, hanswer⟩
    · cases h
    · next hb _ =>
      cases h
      refine ⟨fun g' hg' => ?_, hanswer⟩
      rcases List.mem_append.mp hg' with hg' | hg'
      · obtain ⟨d, hd, rfl⟩ := List.mem_map.mp hg'
        obtain ⟨e, -, rfl⟩ := List.mem_map.mp (hb ▸ hd)
        exact hatom _ (e.within_copy _)
      · exact hrest g' hg'

omit [DecidableEq σ] in
/-- The choice stays within the uses when it goes on to its next clause. -/
theorem Within.waiting {c : Clause σ} {g : Goal (Var σ)} {rest : List (Goal (Var σ))}
    {answer : List (Term (Var σ))} {untried : List (Clause σ)} {below : List (Choice σ)}
    {found : List (List (Term (Var σ)))} {room uses : Nat} {cut : Bool}
    (hs : Within ⟨⟨g :: rest, answer, c :: untried⟩ :: below, found, room, uses, cut⟩) :
    ∀ d ∈ ⟨g :: rest, answer, untried⟩ :: below, Choice.Within uses d := by
  obtain ⟨⟨hgoals, hanswer⟩, hbelow⟩ := List.forall_mem_cons.mp hs
  exact List.forall_mem_cons.mpr ⟨⟨hgoals, hanswer⟩, hbelow⟩

theorem Move.within (h : Move program s s') (hs : s.Within) : s'.Within := by
  have hup : ∀ {stack : List (Choice σ)} {n : Nat}, (∀ c ∈ stack, c.Within n) →
      ∀ c ∈ stack, c.Within (n + 1) := fun hb c hc => (hb c hc).mono (Nat.le_succ _)
  cases h with
  | answer => exact fun c hc => hs c (List.mem_cons_of_mem _ hc)
  | drop => exact fun c hc => hs c (List.mem_cons_of_mem _ hc)
  | skip h => exact hs.waiting
  | fails h => exact hup hs.waiting
  | cut h => exact hup hs.waiting
  | goesOn h =>
    exact List.forall_mem_cons.mpr ⟨within_of_trial (hs.waiting _ List.mem_cons_self) h, hup hs.waiting⟩

/-! ### No step changes what a search finds in all -/

/-- What a search has found, and what it still leads to as far as there is room. -/
def total (program : List (Clause σ)) (s : Search σ) : Outcome (List String) where
  answers := s.found.reverse.map (List.map Term.shown) ++
    (stackOutcome program s.uses s.stack).answers.take s.room
  cut := s.cut || (stackOutcome program s.uses s.stack).cut

theorem stackOutcome_cons (uses : Nat) (c : Choice σ) (below : List (Choice σ)) :
    stackOutcome program uses (c :: below) =
      (c.outcome program uses).append (stackOutcome program uses below) :=
  rfl

theorem stackOutcome_succ {n : Nat} {stack : List (Choice σ)} (h : ∀ c ∈ stack, c.Within n) :
    stackOutcome program (n + 1) stack = stackOutcome program n stack :=
  Outcome.bind_congr fun c hc => Choice.outcome_mono (h c hc) (Nat.le_succ n)

/-- The newest choice leads to what its next clause leads to, and then to what the others lead to. -/
theorem stackOutcome_next {n : Nat} {c : Clause σ} {g : Goal (Var σ)} {rest : List (Goal (Var σ))}
    {answer : List (Term (Var σ))} {untried : List (Clause σ)} {below : List (Choice σ)}
    (hc : Choice.Within n ⟨g :: rest, answer, untried⟩) :
    stackOutcome program n (⟨g :: rest, answer, c :: untried⟩ :: below) =
      ((trial (n + 1) c g rest answer).outcome program (n + 1)).append
        (stackOutcome program n (⟨g :: rest, answer, untried⟩ :: below)) := by
  have hnext : Choice.outcome program n ⟨g :: rest, answer, c :: untried⟩ =
      ((trial (n + 1) c g rest answer).outcome program (n + 1)).append
        (Choice.outcome program n ⟨g :: rest, answer, untried⟩) := by
    rw [← useClause_eq_trial ⟨hc.goals, hc.answer⟩]
    unfold Choice.outcome
    dsimp only
    rw [Outcome.all_cons_bind, Outcome.append_bind, Outcome.map_append]
  rw [stackOutcome_cons, stackOutcome_cons, hnext, Outcome.append_assoc]

theorem trial_of_not_sameSymbol {n : Nat} {c : Clause σ} {g : Goal (Var σ)} {rest : List (Goal (Var σ))}
    {answer : List (Term (Var σ))} (h : c.head.sameSymbol g.atom = false) :
    trial n c g rest answer = .fails := by
  have hcopy : (c.head.map (Var.mk n)).sameSymbol g.atom = false := by
    simpa [Atom.sameSymbol, Atom.map] using h
  unfold trial
  dsimp only [Clause.map]
  rw [Substitution.unifyAtoms_of_not_sameSymbol hcopy]

/-- **No step changes what a search finds in all.** -/
theorem Move.total_eq (h : Move program s s') (hs : s.Within) : s'.total program = s.total program := by
  unfold total
  cases h with
  | @answer answer untried below found room uses cut =>
    dsimp only
    rw [stackOutcome_cons]
    simp [Choice.outcome, Outcome.append, Outcome.all]
  | @drop g rest answer below found room uses cut =>
    have hnil : Choice.outcome program uses ⟨g :: rest, answer, []⟩ = .all [] := rfl
    dsimp only
    rw [stackOutcome_cons, hnil, Outcome.nothing_append]
  | @skip c g rest answer untried below found room uses cut h =>
    dsimp only
    rw [stackOutcome_next (hs.waiting _ List.mem_cons_self), trial_of_not_sameSymbol h, Trial.outcome,
      Outcome.nothing_append]
  | @fails c g rest answer untried below found room uses cut h =>
    dsimp only
    rw [stackOutcome_next (hs.waiting _ List.mem_cons_self), h, Trial.outcome, Outcome.nothing_append,
      stackOutcome_succ hs.waiting]
  | @cut c g rest answer untried below found room uses cut h =>
    dsimp only
    rw [stackOutcome_next (hs.waiting _ List.mem_cons_self), h, Trial.outcome, stackOutcome_succ hs.waiting]
    simp [Outcome.append, Outcome.cutOff]
  | @goesOn c g rest answer untried below found room uses cut goals answer' h =>
    dsimp only
    rw [stackOutcome_next (hs.waiting _ List.mem_cons_self), h, Trial.outcome, stackOutcome_cons,
      stackOutcome_succ hs.waiting]

/-- Room is given up for answers only. -/
theorem Move.room_eq (h : Move program s s') :
    s'.found.length + s'.room = s.found.length + s.room := by
  cases h with
  | answer => simp; omega
  | _ => rfl

/-- **What a search has found when it is over.** It has found what was to be found, as far as there
was room, and if room is left it knows whether a branch was cut. -/
theorem run_spec (program : List (Clause σ)) (hs : s.Within) :
    (s.run program).found.reverse.map (List.map Term.shown) = (s.total program).answers ∧
      ((s.run program).found.length < s.found.length + s.room →
        (s.run program).cut = (s.total program).cut) := by
  obtain ⟨⟨-, htotal, hroom⟩, hover⟩ := run_induction program
    (I := fun s' => s'.Within ∧ s'.total program = s.total program ∧
      s'.found.length + s'.room = s.found.length + s.room)
    (fun _ _ ⟨hw, ht, hr⟩ hm => ⟨hm.within hw, (hm.total_eq hw).trans ht, hm.room_eq.trans hr⟩)
    s ⟨hs, rfl, rfl⟩
  rw [← htotal]
  refine ⟨?_, fun hlt => ?_⟩
  · unfold total
    rcases hover with h | h
    · rw [h]; simp
    · rw [h]; simp [stackOutcome, Outcome.bind, Outcome.all]
  · have hstack : (s.run program).stack = [] := hover.resolve_left (by omega)
    unfold total
    rw [hstack]
    simp [stackOutcome, Outcome.bind, Outcome.all]

theorem run_of_step_eq_none (h : s.step program = none) : s.run program = s := by
  unfold run
  split
  · rfl
  · next h' => rw [h] at h'; cases h'

end Search

/-! ### The answers to a goal -/

/-- The rows of an answered verdict as they are shown. -/
def Verdict.shown : Verdict σ → Option (List (List String))
  | .answers found => some (found.map (List.map Term.shown))
  | .undecided => none

/-- What the recursion finds for a goal, as the given terms show it. -/
def proveRows (program : List (Clause σ)) (goal : Atom σ) (answer : List (Term σ)) (depth : Nat) :
    Outcome (List String) :=
  (proveAtom program depth (goal.map (Var.mk 0)) ⟨.empty, 0⟩).map
    (Branch.shows (answer.map (Term.map (Var.mk 0))))

/-- The recursion finds the same for variants. -/
theorem proveRows_variant {program' : List (Clause σ)} (hprogram : List.Forall₂ Clause.Variant program program')
    {e : σ → σ} (he : Function.Injective e) (goal : Atom σ) (answer : List (Term σ)) (depth : Nat) :
    proveRows program' (goal.map e) (answer.map (Term.map e)) depth = proveRows program goal answer depth := by
  have hrel := alike_proveAtom hprogram depth (alike_start he) (goal.paired_copies 0 0 e)
  exact (hrel.map_eq fun b b' hb => hb.shows_eq (forall₂_copies 0 0 e answer)).symm

omit [DecidableEq σ] in
theorem within_start (goal : Atom σ) (answer : List (Term σ)) (depth room : Nat) :
    (Search.start program goal answer depth room).Within := by
  intro c hc
  rw [List.mem_singleton.mp hc]
  refine ⟨fun g hg => ?_, fun t ht => ?_⟩
  · rw [List.mem_singleton.mp hg]
    exact goal.within_copy 0
  · obtain ⟨u, -, rfl⟩ := List.mem_map.mp ht
    exact u.within_copy 0

/-- At its start a search leads to what the recursion finds. -/
theorem stackOutcome_start (goal : Atom σ) (answer : List (Term σ)) (depth room : Nat) :
    stackOutcome program 0 (Search.start program goal answer depth room).stack =
      proveRows program goal answer depth := by
  unfold stackOutcome Search.start proveRows
  dsimp only
  rw [Outcome.one_bind, Choice.outcome_untried, proveGoals]
  exact congrArg (Outcome.map _) (Outcome.bind_one _)

/-- **The search is the recursion.** It gives the first answers of the recursion, as many as there is
room for, and is undecided if there is room, no answer, and a branch that was cut. -/
theorem prove_shown (program : List (Clause σ)) (goal : Atom σ) (answer : List (Term σ))
    (depth room : Nat) :
    (prove program goal answer depth room).shown =
      if room ≠ 0 ∧ (proveRows program goal answer depth).answers = [] ∧
        (proveRows program goal answer depth).cut = true then none
      else some ((proveRows program goal answer depth).answers.take room) := by
  set start := Search.start program goal answer depth room with hstart
  set rows := proveRows program goal answer depth with hrows
  have htotal : start.total program = ⟨rows.answers.take room, rows.cut⟩ := by
    rw [hrows, ← stackOutcome_start goal answer depth room]
    rfl
  obtain ⟨hfound, hcut⟩ := Search.run_spec program (within_start goal answer depth room)
  rw [← hstart, htotal] at hfound hcut
  dsimp only at hfound hcut
  have hverdict : (prove program goal answer depth room).shown =
      if (start.run program).cut = true ∧ (start.run program).found = [] then none
      else some (rows.answers.take room) := by
    unfold prove
    dsimp only
    rw [← hstart, ← hfound]
    by_cases h : (start.run program).cut = true ∧ (start.run program).found = []
    · rw [if_pos h, h.1, h.2]; rfl
    · rw [if_neg h, if_neg (by simpa [List.isEmpty_iff] using h)]; rfl
  rw [hverdict]
  by_cases hroom : room = 0
  · -- without room the search is over before it starts
    have hrun : start.run program = start := Search.run_of_step_eq_none (by rw [hstart, hroom]; rfl)
    rw [hrun, if_neg fun h => Bool.false_ne_true h.1, if_neg fun h => h.1 hroom]
  · have hempty : (start.run program).found = [] ↔ rows.answers = [] := by
      rw [← List.reverse_eq_nil_iff, ← List.map_eq_nil_iff (f := List.map Term.shown), hfound,
        List.take_eq_nil_iff]
      exact or_iff_right hroom
    refine if_congr ⟨fun h => ⟨hroom, hempty.mp h.2, ?_⟩, fun h => ⟨?_, hempty.mpr h.2.1⟩⟩ rfl rfl
    · rw [← h.1]
      exact (hcut (by rw [h.2]; show 0 < 0 + room; omega)).symm
    · rw [← h.2.2]
      exact hcut (by rw [hempty.mpr h.2.1]; show 0 < 0 + room; omega)

/-- What `solve` answers, by the rows that the search shows. -/
theorem solve_eq_shown (clauses : List (Clause String)) (goal : Atom String) (depth room : Nat) :
    solve clauses goal depth room =
      match (prove (clauses.map Clause.apart) (goal.apart 0) (goal.asked.map fun v => .var (.named v))
        depth room).shown with
      | none => .error (.depthLimitExceeded depth)
      | some found => .ok (found.map fun row => SortedMap.ofList (goal.asked.zip row)) := by
  unfold solve
  cases prove (clauses.map Clause.apart) (goal.apart 0) (goal.asked.map fun v => .var (.named v))
    depth room with
  | undecided => rfl
  | answers found => simp [Verdict.shown, Function.comp_def]

/-- What `solve` answers, by recursion. -/
theorem solve_eq (clauses : List (Clause String)) (goal : Atom String) (depth room : Nat) :
    solve clauses goal depth room =
      if room ≠ 0 ∧ (answersByRecursion clauses goal depth).answers = [] ∧
        (answersByRecursion clauses goal depth).cut = true then .error (.depthLimitExceeded depth)
      else .ok ((answersByRecursion clauses goal depth).answers.take room) := by
  set answer : List (Term Slot) := goal.asked.map fun v => .var (.named v) with hanswer
  set rows := proveRows (clauses.map Clause.apart) (goal.apart 0) answer depth with hrows
  have hrec : answersByRecursion clauses goal depth =
      rows.map fun row => SortedMap.ofList (goal.asked.zip row) := by
    have hzip : ∀ b : Branch Slot, goal.asked.zip (b.shows (answer.map (Term.map (Var.mk 0)))) =
        goal.asked.map fun v => (v, (b.subst.apply ⟨0, .named v⟩).shown) := by
      intro b
      unfold Branch.shows
      rw [hanswer, List.map_map, List.map_map, List.map_prod_left_eq_zip]
      rfl
    ext1
    · show List.map _ _ = List.map _ (List.map _ _)
      rw [List.map_map]
      exact List.map_congr_left fun b _ => congrArg SortedMap.ofList (hzip b).symm
    · rfl
  rw [solve_eq_shown, prove_shown, ← hanswer, ← hrows, hrec]
  by_cases h : room ≠ 0 ∧ rows.answers = [] ∧ rows.cut = true
  · rw [if_pos h, if_pos ⟨h.1, List.map_eq_nil_iff.mpr h.2.1, h.2.2⟩]
  · rw [if_neg h, if_neg fun h' => h ⟨h'.1, List.map_eq_nil_iff.mp h'.2.1, h'.2.2⟩]
    show Except.ok _ = Except.ok (List.take room (List.map _ _))
    rw [List.map_take]

/-- **The search refines the recursion.** It is undecided exactly if the recursion finds nothing and a
branch was cut, and otherwise it gives the first answers of the recursion, as many as there is room
for, in the same order and as often. -/
theorem solve_refines_recursion (clauses : List (Clause String)) (goal : Atom String) (depth room : Nat)
    (hroom : 1 ≤ room) :
    (solve clauses goal depth room = .error (.depthLimitExceeded depth) ↔
      (answersByRecursion clauses goal depth).answers = [] ∧
        (answersByRecursion clauses goal depth).cut = true) ∧
    (¬ ((answersByRecursion clauses goal depth).answers = [] ∧
        (answersByRecursion clauses goal depth).cut = true) →
      solve clauses goal depth room =
        .ok ((answersByRecursion clauses goal depth).answers.take room)) := by
  have hroom' : room ≠ 0 := by omega
  rw [solve_eq]
  by_cases h : (answersByRecursion clauses goal depth).answers = [] ∧
      (answersByRecursion clauses goal depth).cut = true
  · rw [if_pos ⟨hroom', h⟩]
    exact ⟨iff_of_true rfl h, fun hn => absurd h hn⟩
  · rw [if_neg fun h' => h h'.2]
    refine ⟨iff_of_false ?_ h, fun _ => rfl⟩
    intro he
    cases he

/-- A search for two of three proofs stops in the middle; and one that finds nothing within four rules
does not know. -/
theorem friends_solve :
    solve friends ⟨"friend", [.const "a", .const "b"]⟩ 4 2 = .ok [.empty, .empty] ∧
      solve friends ⟨"friend", [.const "a", .const "c"]⟩ 4 2 = .error (.depthLimitExceeded 4) := by
  have hfound : answersByRecursion friends ⟨"friend", [.const "a", .const "b"]⟩ 4 =
      ⟨[.empty, .empty, .empty], true⟩ := by decide +kernel
  have hnone : answersByRecursion friends ⟨"friend", [.const "a", .const "c"]⟩ 4 = ⟨[], true⟩ := by
    decide +kernel
  refine ⟨?_, (solve_refines_recursion friends _ 4 2 (by decide)).1.mpr (by rw [hnone]; exact ⟨rfl, rfl⟩)⟩
  have hne : ¬ ((answersByRecursion friends ⟨"friend", [.const "a", .const "b"]⟩ 4).answers = [] ∧
      (answersByRecursion friends ⟨"friend", [.const "a", .const "b"]⟩ 4).cut = true) := by
    rw [hfound]
    rintro ⟨h, -⟩
    cases h
  rw [(solve_refines_recursion friends _ 4 2 (by decide)).2 hne, hfound]
  rfl

end HornReasoner
