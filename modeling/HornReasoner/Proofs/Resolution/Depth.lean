/-
# A larger limit of rules loses nothing

The limit of rules on a path is looked at in one place: a rule that meets an empty
budget is cut. So a search that cuts nothing goes the same way under a larger limit,
step by step, every budget on its stack being larger by the difference
(`Search.step_deepen`), and it ends with the same answers (`Search.run_deepen`). This
holds also of a search that stopped for room before it came to a branch it would
have cut.

When something was cut the two searches part, and what is compared is what they
find: with a larger limit no fewer answers, all the old ones among them if the
search was not stopped for room, and an undecided goal was undecided before
(`solve_mono_depth`).

Key definitions: `Search.deepen`, `prunes`.
Key theorems: `trial_deepen`, `Search.step_deepen`, `Search.run_deepen`,
`solve_eq_of_not_prunes`, `solve_mono_depth`.
-/
import HornReasoner.Proofs.Resolution.Growth

namespace HornReasoner

variable {σ ν : Type}

/-! ### Larger budgets -/

/-- The goal with `k` more rules for the paths below it. -/
def Goal.deepen (k : Nat) (g : Goal ν) : Goal ν :=
  { g with budget := g.budget + k }

/-- The choice with `k` more rules for each of its goals. -/
def Choice.deepen (k : Nat) (c : Choice σ) : Choice σ :=
  { c with goals := c.goals.map (Goal.deepen k) }

/-- The result of a trial with `k` more rules for each goal that it leaves. -/
def Trial.deepen (k : Nat) : Trial σ → Trial σ
  | .fails => .fails
  | .cut => .cut
  | .goesOn goals answer => .goesOn (goals.map (Goal.deepen k)) answer

/-- The search with `k` more rules for each goal on its stack. -/
def Search.deepen (k : Nat) (s : Search σ) : Search σ :=
  { s with stack := s.stack.map (Choice.deepen k) }

theorem map_deepen_subst {μ : Type} (k : Nat) (f : ν → Term μ) (gs : List (Goal ν)) :
    (gs.map (Goal.subst f)).map (Goal.deepen k) = (gs.map (Goal.deepen k)).map (Goal.subst f) := by
  rw [List.map_map, List.map_map]
  rfl

theorem Search.deepen_start (program : List (Clause σ)) (goal : Atom σ) (answer : List (Term σ))
    (depth room k : Nat) :
    (Search.start program goal answer depth room).deepen k =
      Search.start program goal answer (depth + k) room := rfl

variable [DecidableEq σ] {program : List (Clause σ)}

/-- A trial that is not cut comes to the same with larger budgets. -/
theorem trial_deepen (k : Nat) {use : Nat} {c : Clause σ} {g : Goal (Var σ)}
    {rest : List (Goal (Var σ))} {answer : List (Term (Var σ))}
    (h : trial use c g rest answer ≠ .cut) :
    trial use c (g.deepen k) (rest.map (Goal.deepen k)) answer =
      (trial use c g rest answer).deepen k := by
  unfold trial at h ⊢
  dsimp only [Goal.deepen] at h ⊢
  cases hu : Substitution.empty.unifyAtoms (c.map (Var.mk use)).head g.atom with
  | none => rfl
  | some s =>
    rw [hu] at h
    dsimp only at h ⊢
    cases hbody : (c.map (Var.mk use)).body with
    | nil =>
      dsimp only [Trial.deepen]
      rw [map_deepen_subst]
    | cons a as =>
      cases hbudget : g.budget with
      | zero =>
        rw [hbody, hbudget] at h
        exact absurd rfl h
      | succ b =>
        have hgoals : ((a :: as).map fun a => (⟨a.subst s.apply, b⟩ : Goal (Var σ))).map (Goal.deepen k) =
            (a :: as).map fun a => ⟨a.subst s.apply, b + k⟩ := List.map_map
        rw [Nat.succ_add]
        dsimp only [Trial.deepen]
        rw [List.map_append, hgoals, map_deepen_subst]

/-! ### Two searches in step -/

namespace Search

/-- A search after a trial, from the choices that wait for its outcome. -/
def afterTrial (program : List (Clause σ)) (s : Search σ) : Trial σ → Search σ
  | .fails => { s with uses := s.uses + 1 }
  | .cut => { s with uses := s.uses + 1, cut := true }
  | .goesOn goals answer => { s with stack := ⟨goals, answer, program⟩ :: s.stack, uses := s.uses + 1 }

omit [DecidableEq σ] in
theorem deepen_afterTrial (k : Nat) (s : Search σ) (t : Trial σ) :
    (s.afterTrial program t).deepen k = (s.deepen k).afterTrial program (t.deepen k) := by
  cases t <;> rfl

variable {c : Clause σ} {g : Goal (Var σ)} {rest : List (Goal (Var σ))} {answer : List (Term (Var σ))}
  {untried : List (Clause σ)} {below : List (Choice σ)} {found : List (List (Term (Var σ)))}
  {room uses : Nat} {cut : Bool}

theorem step_try (h : c.head.sameSymbol g.atom = true) :
    step program ⟨⟨g :: rest, answer, c :: untried⟩ :: below, found, room + 1, uses, cut⟩ =
      some (afterTrial program ⟨⟨g :: rest, answer, untried⟩ :: below, found, room + 1, uses, cut⟩
        (trial (uses + 1) c g rest answer)) := by
  unfold step
  dsimp only
  rw [if_pos h]
  cases trial (uses + 1) c g rest answer <;> rfl

theorem step_skip (h : c.head.sameSymbol g.atom = false) :
    step program ⟨⟨g :: rest, answer, c :: untried⟩ :: below, found, room + 1, uses, cut⟩ =
      some ⟨⟨g :: rest, answer, untried⟩ :: below, found, room + 1, uses, cut⟩ := by
  unfold step
  dsimp only
  rw [if_neg (Bool.eq_false_iff.mp h)]

/-- **A step that cuts nothing is the same with larger budgets.** -/
theorem step_deepen (k : Nat) (s : Search σ) (h : ∀ s', s.step program = some s' → s'.cut = false) :
    (s.deepen k).step program = (s.step program).map (deepen k) := by
  obtain ⟨stack, found, room, uses, cut⟩ := s
  cases room with
  | zero => rfl
  | succ room =>
    rcases stack with _ | ⟨⟨_ | ⟨g, rest⟩, answer, _ | ⟨c, untried⟩⟩, below⟩
    any_goals rfl
    -- what is left is a goal with a clause to try
    cases hsymbol : c.head.sameSymbol g.atom with
    | true =>
      rw [step_try hsymbol] at h ⊢
      have hcut : trial (uses + 1) c g rest answer ≠ .cut := by
        intro hcut
        rw [hcut] at h
        exact Bool.false_ne_true (h _ rfl).symm
      rw [Option.map_some, deepen_afterTrial, ← trial_deepen k hcut]
      exact step_try hsymbol
    | false =>
      rw [step_skip hsymbol]
      exact step_skip hsymbol

/-! ### Two runs in step -/

variable {s s' : Search σ}

theorem run_of_step_eq_some (h : s.step program = some s') : s.run program = s'.run program := by
  conv_lhs => unfold run
  split
  · next h' => rw [h] at h'; cases h'
  · next h' => rw [h] at h'; cases h'; rfl

theorem Move.cut_mono (h : Move program s s') (hcut : s.cut = true) : s'.cut = true := by
  cases h with
  | cut _ => rfl
  | _ => exact hcut

/-- A branch that was cut stays known. -/
theorem cut_run (program : List (Clause σ)) (h : s.cut = true) : (s.run program).cut = true :=
  (run_induction program (I := fun s' => s'.cut = true) (fun _ _ hs hm => hm.cut_mono hs) s h).1

/-- **A search that cuts nothing is the same with larger budgets.** -/
theorem run_deepen (k : Nat) (s : Search σ) (h : (s.run program).cut = false) :
    (s.deepen k).run program = (s.run program).deepen k := by
  fun_induction run program s with
  | case1 s hnone =>
    have hstep : (s.deepen k).step program = none := by
      rw [step_deepen k s (by rw [hnone]; simp), hnone]
      rfl
    exact run_of_step_eq_none hstep
  | case2 s s' hsome ih =>
    have hcut : s'.cut = false := by
      rw [Bool.eq_false_iff]
      intro hs'
      rw [cut_run program hs'] at h
      cases h
    have hstep : (s.deepen k).step program = some (s'.deepen k) := by
      rw [step_deepen k s (by rw [hsome]; rintro _ ⟨⟩; exact hcut), hsome]
      rfl
    rw [run_of_step_eq_some hstep, ih h]

end Search

/-! ### The answers to a goal -/

/-- Where a search cuts nothing, a larger limit gives the same verdict. -/
theorem prove_eq_of_not_cut (goal : Atom σ) (answer : List (Term σ)) {d d' : Nat} (hd : d ≤ d')
    (room : Nat) (h : ((Search.start program goal answer d room).run program).cut = false) :
    prove program goal answer d' room = prove program goal answer d room := by
  obtain ⟨k, rfl⟩ := Nat.exists_eq_add_of_le hd
  unfold prove
  rw [← Search.deepen_start, Search.run_deepen k _ h]
  rfl

/-- A search that cut nothing has an answered verdict. -/
theorem exists_prove_eq_answers (goal : Atom σ) (answer : List (Term σ)) (depth room : Nat)
    (h : ((Search.start program goal answer depth room).run program).cut = false) :
    ∃ found, prove program goal answer depth room = .answers found := by
  unfold prove
  dsimp only
  rw [h]
  exact ⟨_, rfl⟩

/-- The search for the answers to a goal cuts some branch before it is over. -/
def prunes (clauses : List (Clause String)) (goal : Atom String) (depth room : Nat) : Bool :=
  ((Search.start (clauses.map Clause.apart) (goal.apart 0) (goal.asked.map fun v => .var (.named v))
    depth room).run (clauses.map Clause.apart)).cut

variable {clauses : List (Clause String)} {goal : Atom String} {d d' room : Nat}

/-- Where a search cuts nothing, a larger limit gives the same result. -/
theorem solve_eq_of_not_prunes (hd : d ≤ d') (h : prunes clauses goal d room = false) :
    solve clauses goal d' room = solve clauses goal d room := by
  obtain ⟨found, hfound⟩ := exists_prove_eq_answers _ _ _ _ h
  unfold solve
  rw [prove_eq_of_not_cut _ _ hd _ h, hfound]

/-- A goal that is undecided under a larger limit is undecided under a smaller one. -/
theorem solve_undecided_of_le (hd : d ≤ d')
    (h : solve clauses goal d' room = .error (.depthLimitExceeded d')) :
    solve clauses goal d room = .error (.depthLimitExceeded d) := by
  rw [solve_eq] at h ⊢
  split at h
  · next hcut =>
    obtain ⟨hroom, hnil, hcut⟩ := hcut
    have hnil' : (answersByRecursion clauses goal d).answers = [] := by
      have hsub := sublist_answersByRecursion (List.Sublist.refl clauses) hd goal
      rw [hnil] at hsub
      exact List.sublist_nil.mp hsub
    refine if_pos ⟨hroom, hnil', ?_⟩
    by_contra hcut'
    -- without a cut the larger limit would have changed nothing
    rw [answersByRecursion_eq_of_not_cut hd (Bool.eq_false_iff.mpr hcut')] at hcut
    exact hcut' hcut
  · cases h

/-- **A larger limit loses nothing.** Its answers, if it was not stopped for room, have those of the
smaller limit among them in their order; it finds something where the smaller one does, is undecided only
where the smaller one is, and where that cut nothing the results are equal. -/
theorem solve_mono_depth (clauses : List (Clause String)) (goal : Atom String) {d d' : Nat}
    (hd : d ≤ d') (room : Nat) :
    ((answersOf (solve clauses goal d' room)).length < room →
      (answersOf (solve clauses goal d room)).Sublist (answersOf (solve clauses goal d' room))) ∧
    ((∃ bs, solve clauses goal d room = .ok bs ∧ bs ≠ []) →
      ∃ bs, solve clauses goal d' room = .ok bs ∧ bs ≠ []) ∧
    (solve clauses goal d' room = .error (.depthLimitExceeded d') →
      solve clauses goal d room = .error (.depthLimitExceeded d)) ∧
    (prunes clauses goal d room = false → solve clauses goal d' room = solve clauses goal d room) := by
  refine ⟨sublist_answersOf_solve (List.Sublist.refl clauses) hd, fun h => ?_,
    solve_undecided_of_le hd, solve_eq_of_not_prunes hd⟩
  have hlength := length_answersOf_solve_le (List.Sublist.refl clauses) hd goal room
  exact answersOf_ne_nil_iff.mp (ne_nil_of_length_le hlength (answersOf_ne_nil_iff.mpr h))

/-- With three rules the friend of `b` is found once more than with one, and that `c` is a friend stays
undecided. A search for one answer finds the fact before it comes to a rule, so it cuts nothing. -/
theorem friends_solve_deeper :
    (answersOf (solve friends ⟨"friend", [.const "b", .var "X"]⟩ 1 8)).Sublist
        (answersOf (solve friends ⟨"friend", [.const "b", .var "X"]⟩ 3 8)) ∧
      (∃ bs, solve friends ⟨"friend", [.const "b", .var "X"]⟩ 3 8 = .ok bs ∧ bs ≠ []) ∧
      solve friends ⟨"friend", [.const "a", .const "c"]⟩ 1 8 = .error (.depthLimitExceeded 1) ∧
      solve friends ⟨"friend", [.const "a", .const "b"]⟩ 3 1 =
        solve friends ⟨"friend", [.const "a", .const "b"]⟩ 0 1 := by
  obtain ⟨hsublist, hfound, -, -⟩ :=
    solve_mono_depth friends ⟨"friend", [.const "b", .var "X"]⟩ (by decide : 1 ≤ 3) 8
  obtain ⟨-, -, hundecided, -⟩ :=
    solve_mono_depth friends ⟨"friend", [.const "a", .const "c"]⟩ (by decide : 1 ≤ 3) 8
  obtain ⟨-, -, -, hequal⟩ :=
    solve_mono_depth friends ⟨"friend", [.const "a", .const "b"]⟩ (by decide : 0 ≤ 3) 1
  exact ⟨hsublist (by decide +kernel), hfound ⟨[.ofList [("X", "a")]], by decide +kernel, by decide⟩,
    hundecided (by decide +kernel), hequal (by decide +kernel)⟩

end HornReasoner
