/-
# What is asserted can only add to the answers

A request to assert a clause either appends it or is refused and changes nothing, so
after any row of requests the clauses are where they were and new ones come after
them (`KnowledgeStore.grows_addAll`). A store that has grown proves what it proved
before, and gives at least as many answers; and as long as it is not stopped at the
number of answers it may give, the old answers are among the new ones in their order
(`KnowledgeStore.truth_grows`). So a fact is provable from the moment it is asserted
on, and so is each of its instances, whatever rules stand before it or come later.

A goal may turn undecided as rules are added, but only one that had no answer.

Key definitions: `KnowledgeStore.addAll`, `KnowledgeStore.Grows`.
Key theorems: `KnowledgeStore.grows_addAll`, `KnowledgeStore.reason_bindings`,
`KnowledgeStore.truth_grows`.
-/
import HornReasoner.Proofs.Store.Facts

namespace HornReasoner

namespace KnowledgeStore

variable {s s' s'' : KnowledgeStore}

/-! ### Requests -/

/-- The store after a row of requests, accepted and refused ones. -/
def addAll (s : KnowledgeStore) (more : List Addition) : KnowledgeStore :=
  more.foldl (fun s a => (s.add a).2) s

/-- The second store searches like the first and has its clauses, in their places. -/
structure Grows (s s' : KnowledgeStore) : Prop where
  config : s'.config = s.config
  clauses : s.clauses <+: s'.clauses

theorem Grows.refl (s : KnowledgeStore) : Grows s s :=
  ⟨rfl, List.prefix_refl _⟩

theorem Grows.trans (h : Grows s s') (h' : Grows s' s'') : Grows s s'' :=
  ⟨h'.config.trans h.config, h.clauses.trans h'.clauses⟩

theorem Appends.grows {as : List Assertion} (h : s.Appends as s') : Grows s s' :=
  ⟨h.config, h.clauses ▸ List.prefix_append _ _⟩

/-- **Requests only add**, whether they are accepted or refused. -/
theorem grows_addAll (s : KnowledgeStore) (more : List Addition) : Grows s (s.addAll more) := by
  induction more generalizing s with
  | nil => exact .refl s
  | cons a more ih => exact (s.appends_add a).grows.trans (ih (s.add a).2)

/-- A fact is accepted as the clause that it is. -/
theorem appends_of_assert_fact {a : Assertion} {id : Uuid} (h : s.assert .fact a = (.ok id, s')) :
    s.Appends [a] s' ∧ a.clause = .fact a.clause.head := by
  obtain ⟨b, haccept, -, happends⟩ := accepted_of_add (x := .clause .fact a) h
  obtain ⟨rfl, hfact, -⟩ := ClauseKind.accept?_eq_some_iff.mp haccept
  refine ⟨happends, ?_⟩
  obtain ⟨id, head, body⟩ := b
  cases List.isEmpty_iff.mp hfact
  rfl

/-! ### Decisions of a store that has grown -/

theorem reason_bindings (s : KnowledgeStore) (goal : Atom String) :
    (s.reason goal).bindings = answersOf (s.query goal) := by
  unfold reason
  cases s.query goal with
  | error e => rfl
  | ok bs => cases bs <;> rfl

/-- A goal is decided as true if there are bindings for it. -/
theorem reason_truth_iff_bindings {goal : Atom String} :
    (s.reason goal).truth = true ↔ (s.reason goal).bindings ≠ [] := by
  rw [reason_truth_iff, reason_bindings, answersOf_ne_nil_iff]
  rfl

/-- A malformed goal has no answers. -/
theorem answersOf_query_of_invalid {goal : Atom String} (h : goal.validate ≠ .ok ()) :
    answersOf (s.query goal) = [] := by
  by_contra hne
  obtain ⟨bs, hquery, -⟩ := answersOf_ne_nil_iff.mp hne
  exact h (validate_of_query hquery)

theorem Grows.length_bindings_le (h : Grows s s') (goal : Atom String) :
    (s.reason goal).bindings.length ≤ (s'.reason goal).bindings.length := by
  rw [reason_bindings, reason_bindings]
  by_cases hgoal : goal.validate = .ok ()
  · rw [query_eq_solve _ hgoal, query_eq_solve _ hgoal, h.config]
    exact length_answersOf_solve_le h.clauses.sublist (Nat.le_refl _) goal _
  · rw [answersOf_query_of_invalid hgoal]
    exact Nat.zero_le _

theorem Grows.sublist_bindings (h : Grows s s') {goal : Atom String}
    (hroom : (s'.reason goal).bindings.length < s.config.maxSolutions) :
    (s.reason goal).bindings.Sublist (s'.reason goal).bindings := by
  rw [reason_bindings] at hroom
  rw [reason_bindings, reason_bindings]
  by_cases hgoal : goal.validate = .ok ()
  · rw [query_eq_solve _ hgoal, h.config] at hroom
    rw [query_eq_solve _ hgoal, query_eq_solve _ hgoal, h.config]
    exact sublist_answersOf_solve h.clauses.sublist (Nat.le_refl _) hroom
  · rw [answersOf_query_of_invalid hgoal]
    exact List.nil_sublist _

/-- **Asserting keeps what was true.** After any requests a goal that was true is true, and has at
least as many bindings; unless there are as many as the store may give, the old ones are among them in
their order. A fact that was accepted is true ever after, and so is each of its instances. -/
theorem truth_grows (s : KnowledgeStore) (more : List Addition) (hroom : 1 ≤ s.config.maxSolutions) :
    (∀ goal,
      ((s.reason goal).truth = true → ((s.addAll more).reason goal).truth = true) ∧
      (s.reason goal).bindings.length ≤ ((s.addAll more).reason goal).bindings.length ∧
      (((s.addAll more).reason goal).bindings.length < s.config.maxSolutions →
        (s.reason goal).bindings.Sublist ((s.addAll more).reason goal).bindings)) ∧
    ∀ a s' id, s.assert .fact a = (.ok id, s') →
      ∀ goal, goal.validate = .ok () → goal.InstanceOf a.clause.head →
        ((s'.addAll more).reason goal).truth = true := by
  refine ⟨fun goal => ?_, fun a s' id haccepted goal hgoal hinstance => ?_⟩
  · have hgrows := s.grows_addAll more
    have hlength := hgrows.length_bindings_le goal
    refine ⟨fun htruth => ?_, hlength, hgrows.sublist_bindings⟩
    exact reason_truth_iff_bindings.mpr
      (ne_nil_of_length_le hlength (reason_truth_iff_bindings.mp htruth))
  · obtain ⟨happends, hfact⟩ := appends_of_assert_fact haccepted
    have hgrows := s'.grows_addAll more
    have hmem : Clause.fact a.clause.head ∈ (s'.addAll more).clauses := by
      refine hgrows.clauses.subset ?_
      rw [happends.clauses, ← hfact]
      exact List.mem_concat_self
    refine reason_truth_iff.mpr (proves_of_instance hmem ?_ hgoal hinstance)
    rw [hgrows.config, happends.config]
    exact hroom

/-- The descendants that were found are still found when `a` has another child. Everybody likes music,
also once liking is mutual and a text was refused. -/
theorem music_stays_liked :
    let music : Assertion := ⟨.ofNat 6, .fact ⟨"likes", [.var "X", .const "music"]⟩⟩
    (family.reason ⟨"ancestor", [.const "a", .var "W"]⟩).bindings.Sublist
        ((family.addAll [.text .fact (.ofNat 7) "parent(a, e).",
          .text .rule (.ofNat 8) "likes(X, Y) :- likes(Y, X)."]).reason
            ⟨"ancestor", [.const "a", .var "W"]⟩).bindings ∧
      ∃ s', family.assert .fact music = (.ok music.id, s') ∧
        ((s'.addAll [.text .rule (.ofNat 7) "likes(X, Y) :- likes(Y, X).",
          .text .fact (.ofNat 8) "Likes(bob)."]).reason
            ⟨"likes", [.const "ann", .const "music"]⟩).truth = true := by
  intro music
  obtain ⟨s', hassert, -⟩ :=
    family.assert_of_accepted .fact (a := music) rfl (by decide +kernel)
  refine ⟨((truth_grows family _ (by decide)).1 _).2.2 (by decide +kernel), s', hassert, ?_⟩
  exact (truth_grows family _ (by decide)).2 _ s' _ hassert _ (by decide +kernel)
    ⟨fun _ => .const "ann", rfl⟩

end KnowledgeStore
end HornReasoner
