/-
# What is done with a reasoner and what its histories hold

Answering adds to the two histories of the evaluator and changes nothing else. A score is
kept in two ways: a goal's confidence is put into the unit interval on its way into the
history, where it was before (`ConfidenceEvaluator.record_of_inUnit`), and the description
of an entity is scored by the evaluator itself, which keeps what it returns. So the history
gets the confidence of the answer as it is, once if the answer is scored
(`Reasoner.isScored`) and not at all otherwise. The log of revisions gets the record of the
one call that a doubted goal makes. Telling and restoring leave both as they are.

What one operation adds (`Reasoner.exists_extended_ask`, `Reasoner.exists_extended_perform`)
is what a row of them adds, one after another (`Reasoner.histories_follow_run`).

Key definitions: `Reasoner.isScored`, `Reasoner.doubts`, `Reasoner.tally`.
Key theorems: `Reasoner.exists_extended_ask`, `Reasoner.ask_accounts`,
`Reasoner.histories_follow_run`.
-/
import HornReasoner.Proofs.Confidence.Scores
import HornReasoner.Proofs.Reasoner.Confidence
import HornReasoner.Proofs.Reasoner.Memory

namespace HornReasoner

open Binary64 (InUnit)

namespace ConfidenceEvaluator

/-- A confidence in the unit interval is kept as it is. -/
theorem record_of_inUnit (e : ConfidenceEvaluator) {x : Float} (h : InUnit x) :
    e.record x = e.push x := by
  unfold record
  rw [h.isNaN, clampUnit_of_inUnit h]
  rfl

end ConfidenceEvaluator

namespace Reasoner

variable {r r' : Reasoner} {id : Uuid}

/-! ### Answers -/

/-- The answer to an intent is scored: there is a goal to decide, or the entity to describe has
edges. -/
def isScored (r : Reasoner) : Intent → Bool
  | .fact _ _ => true
  | .relation _ _ _ => true
  | .question (.yesNo _ _) => true
  | .question (.who _) => true
  | .question (.what subject) => !(r.world.relationshipsOf subject).isEmpty
  | .unknown _ => false

/-- The score that the answer to an intent adds to the history. -/
def scoreOf (r : Reasoner) (id : Uuid) (i : Intent) : List Float :=
  if r.isScored i then [(r.ask id i).1.confidence] else []

/-- The call for a revision that the answer to an intent makes, if its goal is doubted. -/
def doubts (r : Reasoner) (id : Uuid) (i : Intent) : List RevisionCall :=
  (i.goal?.toList.map (r.doubt id)).filter fun c => r.evaluator.needsRevision c.confidence

theorem exists_extended_answer (r : Reasoner) (id : Uuid) (i : Intent) (goal : Atom String) :
    ∃ records, (r.answer id i goal).2 =
        { r with evaluator := r.evaluator.extended [(r.answer id i goal).1.confidence] records } ∧
      List.Forall₂ RevisionCall.Leaves
        ([r.doubt id goal].filter fun c => r.evaluator.needsRevision c.confidence) records := by
  obtain ⟨records, hrecords, hleaves⟩ := r.evaluator.reviseOne_leaves (r.doubt id goal)
  have hunit := r.confidence_answer_inUnit id i goal
  refine ⟨records, ?_, hleaves⟩
  rw [(r.answer_eq id i goal).2, hrecords, ConfidenceEvaluator.record_of_inUnit _ hunit,
    ConfidenceEvaluator.push_eq_extended, ConfidenceEvaluator.extended_extended, List.nil_append,
    List.append_nil]

/-- An entity without edges has no score. -/
theorem describe_of_isEmpty {subject : String} (h : r.world.relationshipsOf subject = []) :
    (r.describe subject).1.confidence = 0.0 ∧ (r.describe subject).2 = r := by
  unfold describe ConfidenceEvaluator.score
  rw [h]
  exact ⟨rfl, rfl⟩

/-- An entity with edges is scored, since each counts as certain. -/
theorem describe_of_ne_nil {subject : String} (h : r.world.relationshipsOf subject ≠ []) :
    (r.describe subject).2 =
      { r with evaluator := r.evaluator.extended [(r.describe subject).1.confidence] [] } := by
  generalize hrelationships : r.world.relationshipsOf subject = relationships at h
  have hfinite : ∀ x ∈ relationships.map fun _ => (1.0 : Float), x.isFinite = true := by
    intro x hx
    obtain ⟨_, -, rfl⟩ := List.mem_map.mp hx
    rfl
  have hscore : r.evaluator.score relationships (relationships.map fun _ => 1.0) = (.ok _, _) :=
    r.evaluator.score_of_isFinite h (by simp) hfinite
  unfold describe
  rw [hrelationships]
  simp only [hscore, ConfidenceEvaluator.push_eq_extended]
  rfl

/-! ### One operation -/

theorem exists_extended_of_goal {i : Intent} {goal : Atom String} (hgoal : i.goal? = some goal)
    (hscored : r.isScored i = true) :
    ∃ records, (r.ask id i).2 = { r with evaluator := r.evaluator.extended (r.scoreOf id i) records } ∧
      List.Forall₂ RevisionCall.Leaves (r.doubts id i) records := by
  rw [scoreOf, if_pos hscored, doubts, hgoal, ask_of_goal hgoal]
  exact r.exists_extended_answer id i goal

/-- **What answering adds to the histories**: the score and the record of the revision, if there are
any. -/
theorem exists_extended_ask (r : Reasoner) (id : Uuid) (i : Intent) :
    ∃ records, (r.ask id i).2 = { r with evaluator := r.evaluator.extended (r.scoreOf id i) records } ∧
      List.Forall₂ RevisionCall.Leaves (r.doubts id i) records := by
  cases i with
  | fact subject predicate => exact exists_extended_of_goal rfl rfl
  | relation subject verb object => exact exists_extended_of_goal rfl rfl
  | question q =>
    cases q with
    | yesNo subject predicate => exact exists_extended_of_goal rfl rfl
    | who predicate => exact exists_extended_of_goal rfl rfl
    | what subject =>
      refine ⟨[], ?_, .nil⟩
      by_cases h : r.world.relationshipsOf subject = []
      · rw [scoreOf, if_neg (by simp [isScored, h]), ConfidenceEvaluator.extended_nil]
        exact (describe_of_isEmpty h).2
      · rw [scoreOf, if_pos (by simp [isScored, h])]
        exact describe_of_ne_nil h
  | unknown text =>
    refine ⟨[], ?_, .nil⟩
    rw [scoreOf, if_neg (by simp [isScored]), ConfidenceEvaluator.extended_nil]
    rfl

theorem confidence_ask_of_not_isScored {i : Intent} (h : r.isScored i = false) :
    (r.ask id i).1.confidence = 0.0 := by
  rcases i with _ | _ | (_ | _ | subject) | _ <;> try cases h
  · exact (describe_of_isEmpty (by simpa [isScored] using h)).1
  · rfl

theorem evaluator_tellAs (r : Reasoner) (id : Uuid) (i : Intent) (label : String) :
    (r.tellAs id i label).2.evaluator = r.evaluator := by
  have hcases := r.learn_cases id i
  unfold tellAs
  generalize r.learn id i = result at hcases
  cases hcases with
  | learned _ _ hlearned => exact hlearned.evaluator
  | notKnowledge => rfl
  | refused => rfl

theorem evaluator_restore (r : Reasoner) (snapshot : GraphSnapshot) :
    (r.restore snapshot).2.evaluator = r.evaluator := by
  obtain ⟨g, hg⟩ := r.exists_world_restore snapshot
  rw [hg]

/-- **Answering is exactly accounted and changes nothing else.** It leaves the knowledge, the world
and the threshold as they were. The history grows by the confidence of the answer if the answer is
scored, and otherwise stays and the answer has no confidence. The log of revisions grows by one record
if there is a goal whose decision is below the threshold, with the confidence of that decision and the
goal as written, and otherwise stays. What is told and what is restored leave both as they are. -/
theorem ask_accounts (r : Reasoner) (id : Uuid) (i : Intent) :
    let response := (r.ask id i).1
    let r' := (r.ask id i).2
    (r'.parse = r.parse ∧ r'.store = r.store ∧ r'.world = r.world ∧
        r'.evaluator.threshold = r.evaluator.threshold) ∧
      (r.isScored i = true →
        r'.evaluator.history.scores = r.evaluator.history.scores ++ [response.confidence]) ∧
      (r.isScored i = false →
        r'.evaluator.history = r.evaluator.history ∧ response.confidence = 0.0) ∧
      (∀ goal, i.goal? = some goal → (r.store.reason goal).confidence < r.evaluator.threshold →
        ∃ record, r'.evaluator.revisions.records = r.evaluator.revisions.records ++ [record] ∧
          record.id = id ∧ record.initial = (r.store.reason goal).confidence ∧ record.query = goal.text) ∧
      ((∀ goal, i.goal? = some goal → ¬ (r.store.reason goal).confidence < r.evaluator.threshold) →
        r'.evaluator.revisions = r.evaluator.revisions) ∧
      (∀ clauseId text, (r.tellText clauseId text).2.evaluator = r.evaluator) ∧
      (∀ clauseId lesson, (r.tell clauseId lesson).2.evaluator = r.evaluator) ∧
      ∀ snapshot, (r.restore snapshot).2.evaluator = r.evaluator := by
  intro response r'
  obtain ⟨records, hr', hleaves⟩ := r.exists_extended_ask id i
  replace hr' : r' = { r with evaluator := r.evaluator.extended (r.scoreOf id i) records } := hr'
  refine ⟨?_, ?_, ?_, ?_, ?_, fun _ _ => r.evaluator_tellAs _ _ _, fun _ _ => r.evaluator_tellAs _ _ _,
    r.evaluator_restore⟩
  · rw [hr']
    exact ⟨rfl, rfl, rfl, rfl⟩
  · intro hscored
    rw [hr', scoreOf, if_pos hscored]
    rfl
  · intro hunscored
    refine ⟨?_, confidence_ask_of_not_isScored hunscored⟩
    rw [hr', scoreOf, if_neg (by simp [hunscored])]
    simp [ConfidenceEvaluator.extended]
  · intro goal hgoal hdoubted
    have hdoubts : r.doubts id i = [r.doubt id goal] := by
      simp [doubts, hgoal, ConfidenceEvaluator.needsRevision, confidence_doubt, hdoubted]
    rw [hdoubts] at hleaves
    cases hleaves with
    | cons hrecord hnone =>
      cases hnone
      exact ⟨_, by rw [hr']; rfl, hrecord.id, hrecord.initial, hrecord.query⟩
  · intro hpassed
    have hdoubts : r.doubts id i = [] := by
      cases hgoal : i.goal? with
      | none => simp [doubts, hgoal]
      | some goal =>
        simp [doubts, hgoal, ConfidenceEvaluator.needsRevision, confidence_doubt, hpassed goal hgoal]
    rw [hdoubts] at hleaves
    cases hleaves
    rw [hr']
    simp [ConfidenceEvaluator.extended]

/-! ### A row of operations -/

/-- The intent that an operation has answered, with the identifier for the record of a revision. -/
def asked (r : Reasoner) : Operation → Option (Uuid × Intent)
  | .turn (.ask id i) => some (id, i)
  | .turn (.askText id text) => some (id, r.parse text)
  | _ => none

/-- The scores that an operation adds, and the calls for a revision that it makes. -/
def adds (r : Reasoner) (op : Operation) : List Float × List RevisionCall :=
  match r.asked op with
  | some (id, i) => (r.scoreOf id i, r.doubts id i)
  | none => ([], [])

/-- The scores that a row of operations adds, and the calls for a revision that it makes. -/
def tally (r : Reasoner) : List Operation → List Float × List RevisionCall
  | [] => ([], [])
  | op :: ops =>
    let (scores, calls) := (r.perform op).tally ops
    ((r.adds op).1 ++ scores, (r.adds op).2 ++ calls)

theorem exists_extended_perform (r : Reasoner) (op : Operation) :
    ∃ records, (r.perform op).evaluator = r.evaluator.extended (r.adds op).1 records ∧
      List.Forall₂ RevisionCall.Leaves (r.adds op).2 records := by
  have hask (id : Uuid) (i : Intent) :
      ∃ records, (r.ask id i).2.evaluator = r.evaluator.extended (r.scoreOf id i) records ∧
        List.Forall₂ RevisionCall.Leaves (r.doubts id i) records := by
    obtain ⟨records, hasked, hleaves⟩ := r.exists_extended_ask id i
    exact ⟨records, by rw [hasked], hleaves⟩
  have hsame {r' : Reasoner} (h : r'.evaluator = r.evaluator) :
      ∃ records, r'.evaluator = r.evaluator.extended [] records ∧ List.Forall₂ RevisionCall.Leaves [] records :=
    ⟨[], by rw [h, ConfidenceEvaluator.extended_nil], .nil⟩
  cases op with
  | turn t =>
    cases t with
    | ask id i => exact hask id i
    | askText id text => exact hask id (r.parse text)
    | tell id i => exact hsame (r.evaluator_tellAs id _ _)
    | tellText id text => exact hsame (r.evaluator_tellAs id _ _)
  | learnClassics ids =>
    obtain ⟨store, world, hclassics⟩ := r.exists_learnClassics ids
    exact hsame (by rw [perform, hclassics])
  | restore snapshot => exact hsame (r.evaluator_restore snapshot)

/-- **The histories follow what is done.** A row of operations leaves in the history the confidences
of the answers that are scored, and in the log one record for each decision that is doubted, both in
order and behind those from before. -/
theorem histories_follow_run (r : Reasoner) (ops : List Operation) :
    ∃ records, (r.run ops).evaluator = r.evaluator.extended (r.tally ops).1 records ∧
      List.Forall₂ RevisionCall.Leaves (r.tally ops).2 records := by
  induction ops generalizing r with
  | nil => exact ⟨[], r.evaluator.extended_nil.symm, .nil⟩
  | cons op ops ih =>
    obtain ⟨first, hfirst, hleavesFirst⟩ := r.exists_extended_perform op
    obtain ⟨rest, hrest, hleavesRest⟩ := ih (r.perform op)
    rw [hfirst, ConfidenceEvaluator.extended_extended] at hrest
    exact ⟨first ++ rest, hrest, List.rel_append hleavesFirst hleavesRest⟩

end Reasoner
end HornReasoner
