/-
# What the answers of a store mean

The answers of a query are right: each comes from a ground instance of the goal that
the stored clauses derive with no more rules on a path than the store allows
(`query_sound`). They are all there are: each instance that is derivable within the
limit is met by an answer, unless the query stopped at the number of answers it may
give (`query_complete`). And an empty list of answers is final: no instance follows
from the clauses at all, and a larger limit finds nothing either (`query_nil_final`);
a search that found nothing but was cut says so.

An instance of a goal gives each variable a constant, each underscore one of its own.

Key definitions: `KnowledgeStore.program`, `KnowledgeStore.withDepth`.
Key theorems: `KnowledgeStore.query_sound`, `KnowledgeStore.query_complete`,
`KnowledgeStore.query_nil_final`.
-/
import HornReasoner.Proofs.Resolution.Inference
import HornReasoner.Proofs.Resolution.Refinement
import HornReasoner.Proofs.Store.Additions

namespace HornReasoner

variable {clauses : List (Clause String)} {goal : Atom String} {depth : Nat}

/-! ### Answers by recursion -/

/-- Every answer is a derivable instance of the goal, with an underscore as the value of the variables
that a proof leaves open. -/
theorem derivable_shown {b : Binding} (h : b ∈ (answersByRecursion clauses goal depth).answers) :
    ∃ θ : Slot → Term Empty, (∀ v x, b.get? v = some x → θ (.named v) = .const x) ∧
      Derivable (clauses.map Clause.apart) depth ((goal.apart 0).subst θ) := by
  obtain ⟨branch, hbranch, rfl⟩ := List.mem_map.mp h
  obtain ⟨hext, hderivable⟩ := sound_proveAtom _ _ _ _ _ hbranch
  have hsettled : branch.subst.Settled := hext.settled .empty
  -- variables that are still free may have any value, so also the one that is shown for them
  set τ : Var Slot → Term Empty := fun v => (branch.subst.apply v).subst fun _ => .const "_" with hτ
  refine ⟨fun v => τ ⟨0, v⟩, fun v x hx => ?_, ?_⟩
  · rw [SortedMap.get?_ofList_map] at hx
    split at hx
    · have hshown : (branch.subst.apply ⟨0, .named v⟩).shown = x := Option.some.inj hx
      rw [← hshown]
      show (branch.subst.apply ⟨0, .named v⟩).subst _ = _
      cases branch.subst.apply ⟨0, .named v⟩ <;> rfl
    · cases hx
  · have hd := hderivable τ (hsettled.solvedBy_apply _)
    rwa [Atom.subst_map] at hd

/-- Every answer comes from a derivable instance of the goal that has the values it shows. -/
theorem sound_answersByRecursion {b : Binding} (h : b ∈ (answersByRecursion clauses goal depth).answers) :
    ∃ θ : Slot → Term Empty, (∀ v x, b.get? v = some x → x ≠ "_" → θ (.named v) = .const x) ∧
      Derivable (clauses.map Clause.apart) depth ((goal.apart 0).subst θ) := by
  obtain ⟨θ, hvalues, hderivable⟩ := derivable_shown h
  exact ⟨θ, fun v x hx _ => hvalues v x hx, hderivable⟩

/-- An instance of the goal that is derivable within the limit, or at all if no branch was cut, is met
by an answer. -/
theorem complete_answersByRecursion {n : Nat} {θ : Slot → Term Empty}
    (hd : Derivable (clauses.map Clause.apart) n ((goal.apart 0).subst θ))
    (hcut : n ≤ depth ∨ (answersByRecursion clauses goal depth).cut = false) :
    ∃ b ∈ (answersByRecursion clauses goal depth).answers,
      ∀ v ∈ goal.asked, ∃ x, b.get? v = some x ∧ (θ (.named v) = .const x ∨ x = "_") := by
  set τ : Var Slot → Term Empty := fun v => θ v.slot with hτ
  have hsol : Branch.Solution ⟨.empty, 0⟩ τ :=
    ⟨Substitution.within_empty _, Substitution.solvedBy_empty τ⟩
  have hgoal : Derivable (clauses.map Clause.apart) n (((goal.apart 0).map (Var.mk 0)).subst τ) := by
    rw [Atom.subst_map]
    exact hd
  obtain ⟨branch, hbranch, -, τ', hsol', hagree⟩ :=
    complete_proveAtom _ depth n _ _ τ hsol (Atom.within_copy 0 _) hgoal hcut
  refine ⟨_, List.mem_map.mpr ⟨branch, hbranch, rfl⟩, fun v hv => ?_⟩
  refine ⟨_, by rw [SortedMap.get?_ofList_map, if_pos hv], ?_⟩
  have hvalue : (branch.subst.apply ⟨0, .named v⟩).subst τ' = θ (.named v) :=
    (hsol'.solvedBy.subst_walk _).trans (hagree ⟨0, .named v⟩ (Nat.le_refl 0)).symm
  rw [← hvalue]
  cases branch.subst.apply ⟨0, .named v⟩ with
  | const c => exact Or.inl rfl
  | var w => exact Or.inr rfl

/-! ### Queries -/

namespace KnowledgeStore

/-- The clauses of the store with their variables told apart. -/
def program (s : KnowledgeStore) : List (Clause Slot) :=
  s.clauses.map Clause.apart

/-- The store with another limit of rules on a path. -/
def withDepth (s : KnowledgeStore) (depth : Nat) : KnowledgeStore :=
  { s with config := { s.config with maxDepth := depth } }

theorem query_eq_solve (s : KnowledgeStore) (hgoal : goal.validate = .ok ()) :
    s.query goal = solve s.clauses goal s.config.maxDepth s.config.maxSolutions := by
  unfold query
  rw [hgoal]
  rfl

/-- An answered query has a well-formed goal. -/
theorem validate_of_query {s : KnowledgeStore} {bs : List Binding} (h : s.query goal = .ok bs) :
    goal.validate = .ok () := by
  unfold query at h
  cases hv : goal.validate with
  | ok _ => rfl
  | error e => rw [hv] at h; cases h

/-- A line of four, and ancestors by two rules; at most two rules on a path. -/
def family : KnowledgeStore :=
  ofClauses { maxDepth := 2 }
    [.fact ⟨"parent", [.const "a", .const "b"]⟩,
      .fact ⟨"parent", [.const "b", .const "c"]⟩,
      .fact ⟨"parent", [.const "c", .const "d"]⟩,
      ⟨⟨"ancestor", [.var "X", .var "Y"]⟩, [⟨"parent", [.var "X", .var "Y"]⟩]⟩,
      ⟨⟨"ancestor", [.var "X", .var "Y"]⟩,
        [⟨"parent", [.var "X", .var "Z"]⟩, ⟨"ancestor", [.var "Z", .var "Y"]⟩]⟩]

/-- Two rules reach the grandchild, and the third generation is pruned. -/
example : family.query ⟨"ancestor", [.const "a", .var "W"]⟩ =
    .ok [.ofList [("W", "b")], .ofList [("W", "c")]] := by
  decide +kernel

/-- **Answers are right.** Each comes from an instance of the goal that has the values it shows, and
that the stored clauses derive within the limit of rules on a path. -/
theorem query_sound (s : KnowledgeStore) (goal : Atom String) (bs : List Binding)
    (h : s.query goal = .ok bs) (b : Binding) (hb : b ∈ bs) :
    ∃ θ : Slot → Term Empty, (∀ v x, b.get? v = some x → x ≠ "_" → θ (.named v) = .const x) ∧
      Derivable s.program s.config.maxDepth ((goal.apart 0).subst θ) := by
  rw [s.query_eq_solve (validate_of_query h), solve_eq] at h
  split at h
  · cases h
  · cases h
    exact sound_answersByRecursion (List.mem_of_mem_take hb)

/-- The grandchild is answered, and two rules derive it. -/
theorem family_query_right : ∃ θ : Slot → Term Empty, θ (.named "W") = .const "c" ∧
    Derivable family.program 2 ((Atom.apart 0 ⟨"ancestor", [.const "a", .var "W"]⟩).subst θ) := by
  have hquery : family.query ⟨"ancestor", [.const "a", .var "W"]⟩ =
      .ok [.ofList [("W", "b")], .ofList [("W", "c")]] := by decide +kernel
  obtain ⟨θ, hvalues, hd⟩ := query_sound family _ _ hquery (.ofList [("W", "c")]) (by simp)
  exact ⟨θ, hvalues "W" "c" (by decide) (by decide), hd⟩

/-- **Answers are all there are.** If an instance of the goal is derivable within the limit, the query
has an answer; and unless it stopped at the number of answers it may give, one of them has its values
or leaves them open. -/
theorem query_complete (s : KnowledgeStore) (goal : Atom String) (hgoal : goal.validate = .ok ())
    (hroom : 1 ≤ s.config.maxSolutions) (θ : Slot → Term Empty)
    (hd : Derivable s.program s.config.maxDepth ((goal.apart 0).subst θ)) :
    ∃ bs, s.query goal = .ok bs ∧ bs ≠ [] ∧
      (bs.length < s.config.maxSolutions → ∃ b ∈ bs, ∀ v ∈ goal.asked,
        ∃ x, b.get? v = some x ∧ (θ (.named v) = .const x ∨ x = "_")) := by
  obtain ⟨b, hb, hvalues⟩ := complete_answersByRecursion hd (Or.inl (Nat.le_refl _))
  have hne : (answersByRecursion s.clauses goal s.config.maxDepth).answers ≠ [] :=
    List.ne_nil_of_mem hb
  refine ⟨_, by rw [s.query_eq_solve hgoal, solve_eq, if_neg fun h => hne h.2.1], ?_, fun hlt => ?_⟩
  · rw [ne_eq, List.take_eq_nil_iff]
    rintro (h | h)
    · omega
    · exact hne h
  · rw [List.length_take] at hlt
    exact ⟨b, by rwa [List.take_of_length_le (by omega)], hvalues⟩

/-- One rule derives the child, and an answer shows it. -/
theorem family_query_all : ∃ bs, family.query ⟨"ancestor", [.const "a", .var "W"]⟩ = .ok bs ∧ bs ≠ [] ∧
    (bs.length < 1024 → ∃ b ∈ bs, ∀ v ∈ Atom.asked ⟨"ancestor", [.const "a", .var "W"]⟩,
      ∃ x, b.get? v = some x ∧ ((.const "b" : Term Empty) = .const x ∨ x = "_")) := by
  have hfact : Clause.apart (.fact ⟨"parent", [.const "a", .const "b"]⟩) ∈ family.program := by
    decide +kernel
  have hrule : Clause.apart ⟨⟨"ancestor", [.var "X", .var "Y"]⟩, [⟨"parent", [.var "X", .var "Y"]⟩]⟩ ∈
      family.program := by decide +kernel
  have hd : Derivable family.program 2 ⟨"ancestor", [.const "a", .const "b"]⟩ := by
    refine .rule (fun v => if v = .named "X" then .const "a" else .const "b") hrule (by decide) ?_
    intro d hd
    rw [List.mem_singleton.mp hd]
    exact .fact (fun _ => .const "") hfact rfl
  exact query_complete family ⟨"ancestor", [.const "a", .var "W"]⟩ (by decide +kernel) (by decide)
    (fun _ => .const "b") hd

/-- A query has no answers if everything was searched, and nothing found. -/
theorem query_eq_nil_iff (s : KnowledgeStore) (hgoal : goal.validate = .ok ())
    (hroom : 1 ≤ s.config.maxSolutions) :
    s.query goal = .ok [] ↔ answersByRecursion s.clauses goal s.config.maxDepth = ⟨[], false⟩ := by
  rw [s.query_eq_solve hgoal, solve_eq]
  constructor
  · intro h
    split at h
    · cases h
    · next hcond =>
      have hnil := (List.take_eq_nil_iff.mp (Except.ok.inj h)).resolve_left (by omega)
      have hcut : ¬ (answersByRecursion s.clauses goal s.config.maxDepth).cut = true :=
        fun hcut => hcond ⟨by omega, hnil, hcut⟩
      exact Outcome.ext hnil (Bool.eq_false_iff.mpr hcut)
  · intro h
    rw [h, if_neg fun hcond => Bool.false_ne_true hcond.2.2, List.take_nil]

/-- **No answer is final.** A query without answers and without an error has searched everything: no
instance of the goal follows from the stored clauses, however large its proof, and with a larger limit
the query has no answers either. If nothing was found but a branch was cut, the query is an error. -/
theorem query_nil_final (s : KnowledgeStore) (goal : Atom String) (hgoal : goal.validate = .ok ())
    (hroom : 1 ≤ s.config.maxSolutions) :
    (s.query goal = .ok [] →
      (∀ θ : Slot → Term Empty, ¬ Follows s.program ((goal.apart 0).subst θ)) ∧
        ∀ d, s.config.maxDepth ≤ d → (s.withDepth d).query goal = .ok []) ∧
      ((answersByRecursion s.clauses goal s.config.maxDepth).answers = [] →
        (answersByRecursion s.clauses goal s.config.maxDepth).cut = true →
          s.query goal = .error (.depthLimitExceeded s.config.maxDepth)) := by
  refine ⟨fun h => ?_, fun hnil hcut => ?_⟩
  · have hrec := (s.query_eq_nil_iff hgoal hroom).mp h
    have hcut := congrArg Outcome.cut hrec
    refine ⟨fun θ hfollows => ?_, fun d hd => ?_⟩
    · obtain ⟨n, hn⟩ := follows_iff.mp hfollows
      obtain ⟨b, hb, -⟩ := complete_answersByRecursion hn (Or.inr hcut)
      rw [hrec] at hb
      exact List.not_mem_nil hb
    · refine ((s.withDepth d).query_eq_nil_iff hgoal hroom).mpr ?_
      exact (answersByRecursion_eq_of_not_cut hd hcut).trans hrec
  · rw [s.query_eq_solve hgoal, solve_eq, if_pos ⟨by omega, hnil, hcut⟩]

/-- Nobody descends from the last of the line. That the first is three generations above the last is
beyond two rules, and so the query for it is an error. -/
theorem family_query_final :
    (∀ θ : Slot → Term Empty,
      ¬ Follows family.program ((Atom.apart 0 ⟨"ancestor", [.const "d", .var "W"]⟩).subst θ)) ∧
    family.query ⟨"ancestor", [.const "a", .const "d"]⟩ = .error (.depthLimitExceeded 2) := by
  refine ⟨((query_nil_final family _ (by decide +kernel) (by decide)).1 (by decide +kernel)).1, ?_⟩
  exact (query_nil_final family _ (by decide +kernel) (by decide)).2 (by decide +kernel)
    (by decide +kernel)

end KnowledgeStore
end HornReasoner
