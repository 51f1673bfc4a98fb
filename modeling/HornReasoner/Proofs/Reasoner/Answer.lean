/-
# Answers say what the store decides

Answering an intent changes the histories and nothing else
(`Reasoner.exists_evaluator_ask`). Whether a goal holds is decided once, before any
revision: a revision looks at the goal again and finds the same, and one that fails
leaves the truth as it was (`ConfidenceEvaluator.truth_revise`). So the answer to a
yes/no question is yes exactly if the store proves its goal (`Reasoner.answer_yesNo`),
that is, if the goal is well formed and the stored clauses derive it within the limit
(`Reasoner.yes_iff_derives`).

Key theorems: `Reasoner.exists_evaluator_ask`, `ConfidenceEvaluator.truth_revise`,
`Reasoner.answer_answer`, `Reasoner.answer_yesNo`, `Reasoner.yes_iff_derives`.
-/
import HornReasoner.Proofs.Store.Facts
import HornReasoner.Reasoner.Basic

namespace HornReasoner

/-! ### Revisions keep the truth -/

theorem KnowledgeStore.truth_reconsider (s : KnowledgeStore) (goal : Atom String) :
    (s.reconsider goal).truth = (s.reason goal).truth := by
  unfold reconsider
  dsimp only
  split <;> rfl

/-- A revision by the store that decided a goal decides it alike. -/
theorem ConfidenceEvaluator.truth_revise (e : ConfidenceEvaluator) (id : Uuid) (s : KnowledgeStore)
    (goal : Atom String) (confidence : Float) :
    (e.revise id (s.reason goal).truth confidence s.reviser goal).1.truth = (s.reason goal).truth := by
  unfold revise
  split
  · unfold KnowledgeStore.reviser
    cases goal.validate with
    | ok _ => exact s.truth_reconsider goal
    | error _ => rfl
  · rfl

namespace Reasoner

variable {i : Intent} {goal : Atom String}

/-! ### Answering changes the histories only -/

theorem exists_evaluator_answer (r : Reasoner) (id : Uuid) (i : Intent) (goal : Atom String) :
    ∃ e, (r.answer id i goal).2 = { r with evaluator := e } := by
  unfold answer
  dsimp only
  split <;> exact ⟨_, rfl⟩

theorem exists_evaluator_describe (r : Reasoner) (subject : String) :
    ∃ e, (r.describe subject).2 = { r with evaluator := e } :=
  ⟨_, rfl⟩

/-- **Answering leaves store and world alone.** -/
theorem exists_evaluator_ask (r : Reasoner) (id : Uuid) (i : Intent) :
    ∃ e, (r.ask id i).2 = { r with evaluator := e } := by
  unfold ask
  split
  · exact r.exists_evaluator_describe _
  · exact r.exists_evaluator_answer _ _ _
  · exact ⟨r.evaluator, rfl⟩

/-! ### What is answered -/

/-- The answer to a goal depends on the decision only, not on how it was revised. -/
theorem answer_answer (r : Reasoner) (id : Uuid) (i : Intent) (goal : Atom String) :
    (r.answer id i goal).1.answer =
      i.answerText (r.store.reason goal).truth (r.store.reason goal).bindings := by
  unfold answer respond
  dsimp only
  split
  · rw [r.evaluator.truth_revise id r.store goal]
  · rfl

/-- **The answer to a yes/no question** is yes exactly if the store proves its goal. -/
theorem answer_yesNo (r : Reasoner) (id : Uuid) (s p : String) :
    (r.ask id (.question (.yesNo s p))).1.answer =
      if (r.store.reason ⟨p, [.const s]⟩).truth then "Yes, " ++ s ++ " is " ++ p ++ "."
      else "No, " ++ s ++ " is not " ++ p ++ " based on my knowledge." :=
  r.answer_answer _ _ _

/-- **Yes means derivable.** The answer to a yes/no question is yes if the names are well formed and
the stored clauses derive the goal within the limit, and no in every other case. A revision, by
whatever evaluator and of whatever confidence, gives back the truth that the store decided, also where
the store refuses to revise. -/
theorem yes_iff_derives (r : Reasoner) (id : Uuid) (s p : String) (hroom : 1 ≤ r.store.config.maxSolutions) :
    (r.store.Derives p s →
      (r.ask id (.question (.yesNo s p))).1.answer = "Yes, " ++ s ++ " is " ++ p ++ ".") ∧
    (¬ r.store.Derives p s →
      (r.ask id (.question (.yesNo s p))).1.answer =
        "No, " ++ s ++ " is not " ++ p ++ " based on my knowledge.") ∧
    ∀ (e : ConfidenceEvaluator) (confidence : Float),
      (e.revise id (r.store.reason ⟨p, [.const s]⟩).truth confidence r.store.reviser
        ⟨p, [.const s]⟩).1.truth = true ↔ r.store.Derives p s := by
  have htruth : (r.store.reason ⟨p, [.const s]⟩).truth = true ↔ r.store.Derives p s :=
    KnowledgeStore.reason_truth_iff.trans (KnowledgeStore.proves_const_iff hroom)
  rw [r.answer_yesNo]
  refine ⟨fun h => if_pos (htruth.mpr h), fun h => if_neg fun ht => h (htruth.mp ht), ?_⟩
  intro e confidence
  rw [e.truth_revise id]
  exact htruth

/-- Humans and mortals are the same; every answer is revised. -/
def doubtful : Reasoner where
  store := .ofClauses {}
    [⟨⟨"mortal", [.var "X"]⟩, [⟨"human", [.var "X"]⟩]⟩,
      ⟨⟨"human", [.var "X"]⟩, [⟨"mortal", [.var "X"]⟩]⟩,
      .fact ⟨"human", [.const "plato"]⟩]
  evaluator := { threshold := 2.0 }

/-- One rule derives that Plato is mortal. For Zeus the rules go round in a circle, and with a capital
letter he is no constant. -/
theorem plato_is_mortal :
    (doubtful.ask (.ofNat 0) (.question (.yesNo "plato" "mortal"))).1.answer = "Yes, plato is mortal." ∧
    (doubtful.ask (.ofNat 0) (.question (.yesNo "zeus" "mortal"))).1.answer =
      "No, zeus is not mortal based on my knowledge." ∧
    (doubtful.ask (.ofNat 0) (.question (.yesNo "Zeus" "mortal"))).1.answer =
      "No, Zeus is not mortal based on my knowledge." := by
  have hplato : doubtful.store.Derives "mortal" "plato" := by
    refine ⟨by decide, by decide, .rule (fun _ => .const "plato")
      (c := Clause.apart ⟨⟨"mortal", [.var "X"]⟩, [⟨"human", [.var "X"]⟩]⟩)
      (by decide +kernel) (by decide) ?_⟩
    intro a ha
    rw [List.mem_singleton.mp ha]
    exact .fact (c := Clause.apart (.fact ⟨"human", [.const "plato"]⟩)) (fun _ => .const "")
      (by decide +kernel) rfl
  have hcircle : ¬ doubtful.store.Derives "mortal" "zeus" := by
    rw [← KnowledgeStore.proves_const_iff (by decide)]
    rintro ⟨bs, hquery, -⟩
    have hundecided : doubtful.store.query ⟨"mortal", [.const "zeus"]⟩ =
        .error (.depthLimitExceeded 64) := by decide +kernel
    rw [hundecided] at hquery
    cases hquery
  have hcapital : ¬ doubtful.store.Derives "mortal" "Zeus" := fun h => absurd h.2.1 (by decide)
  exact ⟨(doubtful.yes_iff_derives _ "plato" "mortal" (by decide)).1 hplato,
    (doubtful.yes_iff_derives _ "zeus" "mortal" (by decide)).2.1 hcircle,
    (doubtful.yes_iff_derives _ "Zeus" "mortal" (by decide)).2.1 hcapital⟩

end Reasoner
end HornReasoner
