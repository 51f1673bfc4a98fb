/-
# A revision raises a low confidence and lowers none

The confidence of an answer is that of the decision, or that with a boost. Two thresholds
stand before the boost, the evaluator's and the store's, and the store decides the goal again
behind the first; it refuses a malformed goal, and then the answer keeps the confidence that
it had. So the boost needs all of four things (`Reasoner.Boosts`), and an answer has the
boosted confidence exactly if they hold (`Reasoner.confidence_answer_of_boosts`,
`Reasoner.confidence_answer_of_not_boosts`). In either case it is not below that of the
decision and at most one (`Reasoner.answer_boosts`).

Key definitions: `Reasoner.doubt`, `Reasoner.Boosts`.
Key theorems: `Reasoner.answer_eq`, `Reasoner.confidence_answer_inUnit`, `Reasoner.answer_boosts`.
-/
import HornReasoner.Proofs.Confidence.Revision
import HornReasoner.Proofs.Store.Boost
import HornReasoner.Reasoner.Basic

namespace HornReasoner

open Binary64 (InUnit)

/-! ### The store as reviser -/

namespace KnowledgeStore

variable {s : KnowledgeStore} {goal : Atom String}

theorem reviser_of_valid (h : goal.validate = .ok ()) : s.reviser goal = .ok (s.reconsider goal) := by
  simp [reviser, h, Except.mapError, bind, Except.bind, pure, Except.pure]

theorem reviser_of_invalid {error : ClauseError} (h : goal.validate = .error error) :
    s.reviser goal = .error (.query (.ofClauseError error)) := by
  simp [reviser, h, Except.mapError, bind, Except.bind]

end KnowledgeStore

namespace Reasoner

variable {r : Reasoner} {id : Uuid} {i : Intent} {goal : Atom String}

/-! ### Answers to goals -/

/-- How the decision of a goal goes to the evaluator. -/
def doubt (r : Reasoner) (id : Uuid) (goal : Atom String) : RevisionCall :=
  ⟨id, (r.store.reason goal).truth, (r.store.reason goal).confidence, r.store.reviser, goal⟩

theorem confidence_doubt (r : Reasoner) (id : Uuid) (goal : Atom String) :
    (r.doubt id goal).confidence = (r.store.reason goal).confidence := rfl

/-- An answer has the confidence that a call of the evaluator returns, whether the decision is revised
or passed, and after the call that confidence is recorded. -/
theorem answer_eq (r : Reasoner) (id : Uuid) (i : Intent) (goal : Atom String) :
    (r.answer id i goal).1.confidence = (r.evaluator.reviseOne (r.doubt id goal)).1.confidence ∧
      (r.answer id i goal).2 = { r with
        evaluator := (r.evaluator.reviseOne (r.doubt id goal)).2.record (r.answer id i goal).1.confidence } := by
  unfold answer
  dsimp only
  split
  · exact ⟨rfl, rfl⟩
  · next h =>
    have hpassed : ¬ (r.doubt id goal).confidence < r.evaluator.threshold := by
      rw [confidence_doubt]
      simpa [ConfidenceEvaluator.needsRevision] using h
    rw [r.evaluator.reviseOne_of_not_lt _ hpassed]
    exact ⟨rfl, rfl⟩

/-- The revision of a decision raises its confidence: the goal is well formed, evaluator and store
both find the confidence low, and there is a related clause. -/
structure Boosts (r : Reasoner) (goal : Atom String) : Prop where
  wellFormed : goal.validate = .ok ()
  doubted : (r.store.reason goal).confidence < r.evaluator.threshold
  low : (r.store.reason goal).confidence < r.store.config.confidenceThreshold
  related : r.store.Related goal.predicate

/-- A revision that the store does not refuse has the confidence that the store comes to. -/
theorem confidence_answer_of_doubted (hdoubted : (r.store.reason goal).confidence < r.evaluator.threshold)
    (hvalid : goal.validate = .ok ()) (i : Intent) :
    (r.answer id i goal).1.confidence = (r.store.reconsider goal).confidence := by
  rw [← r.confidence_doubt id] at hdoubted
  rw [(r.answer_eq id i goal).1, r.evaluator.reviseOne_of_ok _ hdoubted (KnowledgeStore.reviser_of_valid hvalid)]
  rfl

theorem confidence_answer_of_invalid {error : ClauseError} (hinvalid : goal.validate = .error error)
    (i : Intent) : (r.answer id i goal).1.confidence = (r.store.reason goal).confidence := by
  rw [(r.answer_eq id i goal).1]
  by_cases hdoubted : (r.doubt id goal).confidence < r.evaluator.threshold
  · rw [r.evaluator.reviseOne_of_error _ hdoubted (KnowledgeStore.reviser_of_invalid hinvalid),
      confidence_doubt]
  · rw [r.evaluator.reviseOne_of_not_lt _ hdoubted, confidence_doubt]

theorem confidence_answer_of_passed
    (hpassed : ¬ (r.store.reason goal).confidence < r.evaluator.threshold) (i : Intent) :
    (r.answer id i goal).1.confidence = (r.store.reason goal).confidence := by
  rw [← r.confidence_doubt id] at hpassed
  rw [(r.answer_eq id i goal).1, r.evaluator.reviseOne_of_not_lt _ hpassed, confidence_doubt]

theorem confidence_answer_of_boosts (h : r.Boosts goal) (i : Intent) :
    (r.answer id i goal).1.confidence = boosted (r.store.reason goal).confidence := by
  rw [confidence_answer_of_doubted h.doubted h.wellFormed,
    KnowledgeStore.confidence_reconsider_of_related h.low h.related]

theorem confidence_answer_of_not_boosts (h : ¬ r.Boosts goal) (i : Intent) :
    (r.answer id i goal).1.confidence = (r.store.reason goal).confidence := by
  by_cases hdoubted : (r.store.reason goal).confidence < r.evaluator.threshold
  · cases hvalid : goal.validate with
    | ok _ =>
      rw [confidence_answer_of_doubted hdoubted hvalid]
      exact KnowledgeStore.confidence_reconsider_of_not fun hlow => h ⟨hvalid, hdoubted, hlow.1, hlow.2⟩
    | error error => exact confidence_answer_of_invalid hvalid i
  · exact confidence_answer_of_passed hdoubted i

theorem confidence_answer_inUnit (r : Reasoner) (id : Uuid) (i : Intent) (goal : Atom String) :
    InUnit (r.answer id i goal).1.confidence := by
  have hunit := r.store.confidence_reason_inUnit goal
  by_cases h : r.Boosts goal
  · rw [confidence_answer_of_boosts h]
    exact boosted_inUnit hunit.1
  · rw [confidence_answer_of_not_boosts h]
    exact hunit

theorem ask_of_goal (h : i.goal? = some goal) : r.ask id i = r.answer id i goal := by
  unfold ask
  split
  · simp [Intent.goal?] at h
  · next hgoal => rw [Option.some.inj (hgoal.symm.trans h)]
  · next hnone => simp [hnone] at h

/-- **Revision never lowers a confidence and boosts exactly when it should.** The answer to an intent
with a goal has the boosted confidence of the decision if the goal is well formed, evaluator and store
both find that confidence low, and the text of a stored clause holds the name of the predicate. In
every other case it has the confidence of the decision, which it never goes below, nor above one. For
a goal that is proved there is always such a clause, so the two thresholds decide. -/
theorem answer_boosts (r : Reasoner) (id : Uuid) (i : Intent) (goal : Atom String) (h : i.goal? = some goal) :
    let decided := (r.store.reason goal).confidence
    let answered := (r.ask id i).1.confidence
    (r.Boosts goal → answered = atMostOne (decided + 0.15)) ∧
      (¬ r.Boosts goal → answered = decided) ∧
      decided ≤ answered ∧ answered ≤ 1.0 ∧
      ((r.store.reason goal).truth = true → decided < r.evaluator.threshold →
        decided < r.store.config.confidenceThreshold →
        r.Boosts goal ∧ answered = atMostOne (decided + 0.15)) := by
  intro decided answered
  have hunit := r.store.confidence_reason_inUnit goal
  have hanswered : answered = (r.answer id i goal).1.confidence :=
    congrArg (fun a => a.1.confidence) (ask_of_goal h)
  have hboosted : r.Boosts goal → answered = atMostOne (decided + 0.15) := fun hboosts =>
    hanswered.trans (confidence_answer_of_boosts hboosts i)
  have hkept : ¬ r.Boosts goal → answered = decided := fun hboosts =>
    hanswered.trans (confidence_answer_of_not_boosts hboosts i)
  refine ⟨hboosted, hkept, ?_, ?_, ?_⟩
  · by_cases hboosts : r.Boosts goal
    · rw [hboosted hboosts]
      exact le_boosted hunit
    · rw [hkept hboosts]
      exact Binary64.le_refl hunit.isNaN
  · rw [hanswered]
    exact (r.confidence_answer_inUnit id i goal).2
  · intro htruth hdoubted hlow
    have hproves : r.store.Proves goal := KnowledgeStore.reason_truth_iff.mp htruth
    have hboosts : r.Boosts goal := ⟨KnowledgeStore.validate_of_proves hproves, hdoubted, hlow,
      KnowledgeStore.related_of_proves hproves⟩
    exact ⟨hboosts, hboosted hboosts⟩

/-- It knows one thing and doubts it. -/
def uncertain : Reasoner where
  store := .ofClauses { confidenceThreshold := 0.9 } [.fact ⟨"human", [.const "plato"]⟩]
  evaluator := { threshold := 0.9 }

/-- That Plato is human is proved, and boosted up to one. That he is a man is not, but `man` stands in
the text of the clause. That he is a god has nothing to do with it. -/
theorem uncertain_boosts :
    (uncertain.ask (.ofNat 0) (.fact "plato" "human")).1.confidence = 1.0 ∧
    (uncertain.ask (.ofNat 0) (.question (.yesNo "plato" "man"))).1.confidence = 0.15 ∧
    (uncertain.ask (.ofNat 0) (.question (.yesNo "plato" "god"))).1.confidence = 0.0 := by
  have hhuman : (uncertain.store.reason ⟨"human", [.const "plato"]⟩).confidence = provenConfidence 1 := by
    decide +kernel
  have hman : (uncertain.store.reason ⟨"man", [.const "plato"]⟩).confidence = 0.0 := by decide +kernel
  have hgod : (uncertain.store.reason ⟨"god", [.const "plato"]⟩).confidence = 0.0 := by decide +kernel
  refine ⟨?_, ?_, ?_⟩
  · have hboosts := (answer_boosts uncertain (.ofNat 0) (.fact "plato" "human") ⟨"human", [.const "plato"]⟩ rfl).2.2.2.2
      (by decide +kernel) (by rw [hhuman]; decide +kernel) (by rw [hhuman]; decide +kernel)
    rw [hboosts.2, hhuman]
    decide +kernel
  · have hboosts : uncertain.Boosts ⟨"man", [.const "plato"]⟩ :=
      { wellFormed := by decide +kernel
        doubted := by rw [hman]; decide +kernel
        low := by rw [hman]; decide +kernel
        related := KnowledgeStore.mentioning_ne_nil_iff.mp (by decide +kernel) }
    rw [(answer_boosts uncertain (.ofNat 0) (.question (.yesNo "plato" "man")) ⟨"man", [.const "plato"]⟩ rfl).1 hboosts,
      hman]
    decide +kernel
  · have hunrelated : ¬ uncertain.Boosts ⟨"god", [.const "plato"]⟩ := fun hboosts =>
      absurd (KnowledgeStore.mentioning_ne_nil_iff.mpr hboosts.related) (by decide +kernel)
    rw [(answer_boosts uncertain (.ofNat 0) (.question (.yesNo "plato" "god")) ⟨"god", [.const "plato"]⟩ rfl).2.1
      hunrelated, hgod]

end Reasoner
end HornReasoner
