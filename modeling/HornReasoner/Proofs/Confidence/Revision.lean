/-
# The log of revisions follows the calls

A record is opened before the reviser is asked and completed afterwards, at the place where
it was opened, so the outcome of a call goes into the record of that call
(`RevisionLog.complete_start`). A call comes to one of three ends. It is passed, because its
confidence is not below the threshold, and then the reviser does not matter; the reviser
answers it; or the reviser fails. The log grows by one record in the last two cases and by
none in the first (`ConfidenceEvaluator.reviseOne_leaves`). So after a row of calls it holds,
behind the records from before, one record for each call below the threshold, in order, and
the statistics count what happened (`ConfidenceEvaluator.log_follows_calls`).

Key definitions: `callAll`, `RevisionCall`, `RevisionCall.Leaves`, `RevisionCall.Returns`,
`ConfidenceEvaluator.extended`, `ConfidenceEvaluator.reviseAll`.
Key theorems: `RevisionLog.complete_start`, `ConfidenceEvaluator.reviseOne_leaves`,
`ConfidenceEvaluator.log_follows_calls`.
-/
import HornReasoner.Confidence.Evaluator
import HornReasoner.Proofs.Binary64.Order

namespace HornReasoner

/-! ### Rows of calls -/

section CallAll

variable {σ α β : Type*} (call : σ → α → β × σ)

/-- Makes a row of calls, one after another: what each returns, and the state reached. -/
def callAll (s : σ) : List α → List β × σ
  | [] => ([], s)
  | a :: as =>
    let (b, s) := call s a
    let (bs, s) := callAll s as
    (b :: bs, s)

theorem callAll_append (s : σ) (before after : List α) :
    callAll call s (before ++ after) =
      ((callAll call s before).1 ++ (callAll call (callAll call s before).2 after).1,
        (callAll call (callAll call s before).2 after).2) := by
  induction before generalizing s with
  | nil => rfl
  | cons a as ih => simp only [List.cons_append, callAll, ih]

end CallAll

/-! ### Records in their places -/

namespace RevisionLog

/-- **An outcome goes into the record that was opened for it.** -/
theorem complete_start (log : RevisionLog) (id : Uuid) (initial : Float) (query : String)
    (revised : Float) :
    (log.start id initial query).1.complete (log.start id initial query).2 revised =
      log.add (RevisionRecord.complete { id, initial, query } revised) := by
  unfold start complete add
  rw [List.modify_eq_take_drop, List.take_left, List.drop_left]
  rfl

theorem stats_total (log : RevisionLog) : log.stats.total = log.records.length := by
  unfold stats
  split
  · next h => rw [List.isEmpty_iff.mp h]; rfl
  · rfl

theorem stats_successful (log : RevisionLog) :
    log.stats.successful = log.records.countP fun r => r.successful == some true := by
  unfold stats
  split
  · next h => rw [List.isEmpty_iff.mp h]; rfl
  · rfl

end RevisionLog

/-! ### Calls -/

/-- An answer to revise, with its confidence, its goal and a reviser, and an identifier for the record. -/
structure RevisionCall where
  id : Uuid
  answer : Bool
  confidence : Float
  reviser : Reviser
  goal : Atom String

namespace RevisionCall

/-- The record that is opened for a call. -/
def opened (c : RevisionCall) : RevisionRecord where
  id := c.id
  initial := c.confidence
  query := c.goal.text

/-- The reviser comes to a greater confidence. -/
def improves (c : RevisionCall) : Bool :=
  match c.reviser c.goal with
  | .ok revision => decide (c.confidence < revision.confidence)
  | .error _ => false

/-- The record that a call leaves in the log. -/
structure Leaves (c : RevisionCall) (r : RevisionRecord) : Prop where
  id : r.id = c.id
  initial : r.initial = c.confidence
  query : r.query = c.goal.text
  answered : ∀ revision, c.reviser c.goal = .ok revision →
    r.revised = some revision.confidence ∧ r.successful = some (decide (c.confidence < revision.confidence))
  failed : ∀ error, c.reviser c.goal = .error error → r.revised = none ∧ r.successful = none

/-- What a call returns, given the threshold. -/
structure Returns (threshold : Float) (c : RevisionCall) (r : Revision) : Prop where
  passed : ¬ c.confidence < threshold → r = ⟨c.answer, c.confidence, "No revision needed."⟩
  answered : c.confidence < threshold → ∀ revision, c.reviser c.goal = .ok revision → r = revision
  failed : c.confidence < threshold → ∀ error, c.reviser c.goal = .error error →
    r = ⟨c.answer, c.confidence, "Revision failed: " ++ error.message⟩

theorem Leaves.successful_eq {c : RevisionCall} {r : RevisionRecord} (h : c.Leaves r) :
    (r.successful == some true) = c.improves := by
  unfold improves
  cases hrevision : c.reviser c.goal with
  | ok revision => rw [(h.answered revision hrevision).2]; simp
  | error error => rw [(h.failed error hrevision).2]; rfl

theorem countP_successful {calls : List RevisionCall} {records : List RevisionRecord}
    (h : List.Forall₂ Leaves calls records) :
    (records.countP fun r => r.successful == some true) = calls.countP improves := by
  induction h with
  | nil => rfl
  | cons hleaves _ ih => rw [List.countP_cons, List.countP_cons, ih, hleaves.successful_eq]

/-- A record left open is that of a call whose reviser fails. -/
theorem leaves_opened (c : RevisionCall) {error : RevisionError} (h : c.reviser c.goal = .error error) :
    c.Leaves c.opened where
  id := rfl
  initial := rfl
  query := rfl
  answered revision hrevision := by simp [h] at hrevision
  failed _ _ := ⟨rfl, rfl⟩

/-- A record completed with the confidence of the revision is that of a call whose reviser
answers. -/
theorem leaves_complete (c : RevisionCall) {revision : Revision} (h : c.reviser c.goal = .ok revision) :
    c.Leaves (c.opened.complete revision.confidence) where
  id := rfl
  initial := rfl
  query := rfl
  answered other hother := by
    obtain rfl : revision = other := Except.ok.inj (h.symm.trans hother)
    exact ⟨rfl, rfl⟩
  failed error herror := by simp [h] at herror

end RevisionCall

/-! ### One call -/

namespace ConfidenceEvaluator

variable (e : ConfidenceEvaluator) (c : RevisionCall)

/-- The evaluator with more in its two histories. -/
def extended (scores : List Float) (records : List RevisionRecord) : ConfidenceEvaluator :=
  { e with
    history := ⟨e.history.scores ++ scores⟩
    revisions := ⟨e.revisions.records ++ records⟩ }

@[simp]
theorem extended_nil : e.extended [] [] = e := by
  simp [extended]

theorem extended_extended (xs ys : List Float) (rs ss : List RevisionRecord) :
    (e.extended xs rs).extended ys ss = e.extended (xs ++ ys) (rs ++ ss) := by
  simp [extended]

theorem push_eq_extended (x : Float) : e.push x = e.extended [x] [] := by
  simp [push, extended, ConfidenceHistory.record]

/-- Nothing but the log is changed by records. -/
theorem extended_records (records : List RevisionRecord) :
    e.extended [] records = { e with revisions := ⟨e.revisions.records ++ records⟩ } := by
  simp [extended]

/-- Makes one call. -/
def reviseOne : Revision × ConfidenceEvaluator :=
  e.revise c.id c.answer c.confidence c.reviser c.goal

/-- What a call that is not below the threshold comes to does not depend on the reviser. -/
theorem reviseOne_of_not_lt (h : ¬ c.confidence < e.threshold) :
    e.reviseOne c = (⟨c.answer, c.confidence, "No revision needed."⟩, e) := by
  unfold reviseOne revise needsRevision
  rw [if_neg (by simpa using h)]

theorem reviseOne_of_ok (h : c.confidence < e.threshold) {revision : Revision}
    (hrevision : c.reviser c.goal = .ok revision) :
    e.reviseOne c = (revision, e.extended [] [c.opened.complete revision.confidence]) := by
  unfold reviseOne revise needsRevision
  rw [if_pos (decide_eq_true h), hrevision]
  dsimp only
  rw [RevisionLog.complete_start, extended_records]
  rfl

theorem reviseOne_of_error (h : c.confidence < e.threshold) {error : RevisionError}
    (herror : c.reviser c.goal = .error error) :
    e.reviseOne c = (⟨c.answer, c.confidence, "Revision failed: " ++ error.message⟩,
      e.extended [] [c.opened]) := by
  unfold reviseOne revise needsRevision
  rw [if_pos (decide_eq_true h), herror, extended_records]
  rfl

theorem reviseOne_returns : c.Returns e.threshold (e.reviseOne c).1 where
  passed h := by rw [e.reviseOne_of_not_lt c h]
  answered h revision hrevision := by rw [e.reviseOne_of_ok c h hrevision]
  failed h error herror := by rw [e.reviseOne_of_error c h herror]

/-- A call below the threshold leaves its record behind the earlier ones; any other call leaves
the evaluator as it was. -/
theorem reviseOne_leaves :
    ∃ records, (e.reviseOne c).2 = e.extended [] records ∧
      List.Forall₂ RevisionCall.Leaves ([c].filter (e.needsRevision ·.confidence)) records := by
  by_cases hgate : c.confidence < e.threshold
  · have hfilter : [c].filter (e.needsRevision ·.confidence) = [c] := by simp [needsRevision, hgate]
    rw [hfilter]
    cases hrevision : c.reviser c.goal with
    | ok revision =>
      exact ⟨_, by rw [e.reviseOne_of_ok c hgate hrevision],
        .cons (c.leaves_complete hrevision) .nil⟩
    | error error =>
      exact ⟨_, by rw [e.reviseOne_of_error c hgate hrevision],
        .cons (c.leaves_opened hrevision) .nil⟩
  · refine ⟨[], by rw [e.reviseOne_of_not_lt c hgate, extended_nil], ?_⟩
    simp [needsRevision, hgate]

/-! ### All calls of a row -/

/-- Makes a row of calls. -/
def reviseAll (calls : List RevisionCall) : List Revision × ConfidenceEvaluator :=
  callAll reviseOne e calls

theorem reviseAll_leaves (calls : List RevisionCall) :
    ∃ records, (e.reviseAll calls).2 = e.extended [] records ∧
      List.Forall₂ RevisionCall.Leaves (calls.filter (e.needsRevision ·.confidence)) records := by
  induction calls generalizing e with
  | nil => exact ⟨[], e.extended_nil.symm, .nil⟩
  | cons c cs ih =>
    obtain ⟨first, hfirst, hleavesFirst⟩ := e.reviseOne_leaves c
    obtain ⟨rest, hrest, hleavesRest⟩ := ih (e.reviseOne c).2
    -- the records do not move the threshold, so the rest is gated as by the first evaluator
    rw [hfirst] at hrest hleavesRest
    refine ⟨first ++ rest, ?_, ?_⟩
    · calc ((e.reviseOne c).2.reviseAll cs).2 = (e.extended [] first).extended [] rest := by
            rw [hfirst, hrest]
        _ = e.extended [] (first ++ rest) := e.extended_extended ..
    · rw [← List.singleton_append, List.filter_append]
      exact List.rel_append hleavesFirst hleavesRest

theorem reviseAll_returns (calls : List RevisionCall) :
    List.Forall₂ (RevisionCall.Returns e.threshold) calls (e.reviseAll calls).1 := by
  induction calls generalizing e with
  | nil => exact .nil
  | cons c cs ih =>
    obtain ⟨first, hfirst, -⟩ := e.reviseOne_leaves c
    have hrest := ih (e.reviseOne c).2
    have hthreshold : (e.reviseOne c).2.threshold = e.threshold := by rw [hfirst]; rfl
    rw [hthreshold] at hrest
    exact .cons (e.reviseOne_returns c) hrest

/-- **The log of revisions is a faithful trace.** A row of calls changes nothing but the log, and
adds to it, behind the records from before, exactly one record for each call below the threshold,
in the order of the calls; the earlier calls have left theirs when the later ones begin, and no
later call touches them. So the statistics count the calls below the threshold and the strict
improvements among them. A call that is not below the threshold returns its own answer and
leaves the evaluator as it was, whatever the reviser. -/
theorem log_follows_calls (calls : List RevisionCall) :
    let run := e.reviseAll calls
    let gated := calls.filter fun c => e.needsRevision c.confidence
    (∃ records, run.2 = { e with revisions := ⟨e.revisions.records ++ records⟩ } ∧
        List.Forall₂ RevisionCall.Leaves gated records) ∧
      List.Forall₂ (RevisionCall.Returns e.threshold) calls run.1 ∧
      (∀ before after, calls = before ++ after →
        (e.reviseAll before).2.revisions.records <+: run.2.revisions.records) ∧
      run.2.revisions.stats.total = e.revisions.stats.total + gated.length ∧
      run.2.revisions.stats.successful =
        e.revisions.stats.successful + gated.countP RevisionCall.improves ∧
      (∀ id answer confidence reviser goal, ¬ confidence < e.threshold →
        e.revise id answer confidence reviser goal =
          (⟨answer, confidence, "No revision needed."⟩, e)) ∧
      ∀ confidence : Float, confidence.isNaN = true ∨ e.threshold ≤ confidence →
        ¬ confidence < e.threshold := by
  intro run gated
  obtain ⟨records, hrun, hleaves⟩ := e.reviseAll_leaves calls
  have hlog : run.2.revisions.records = e.revisions.records ++ records := by rw [hrun]; rfl
  refine ⟨⟨records, hrun.trans (e.extended_records records), hleaves⟩, e.reviseAll_returns calls, ?_, ?_, ?_, ?_, ?_⟩
  · rintro before after rfl
    obtain ⟨later, hlater, -⟩ := (e.reviseAll before).2.reviseAll_leaves after
    have hsplit : run.2 = ((e.reviseAll before).2.reviseAll after).2 := by
      rw [show run = _ from callAll_append reviseOne e before after]
      rfl
    rw [hsplit, hlater]
    exact List.prefix_append _ _
  · rw [RevisionLog.stats_total, RevisionLog.stats_total, hlog, List.length_append,
      hleaves.length_eq]
  · rw [RevisionLog.stats_successful, RevisionLog.stats_successful, hlog, List.countP_append]
    exact congrArg _ (RevisionCall.countP_successful hleaves)
  · intro id answer confidence reviser goal h
    exact e.reviseOne_of_not_lt ⟨id, answer, confidence, reviser, goal⟩ h
  · rintro confidence (hNaN | hle)
    · exact Binary64.not_lt_of_isNaN hNaN
    · exact Binary64.not_lt_of_le hle

end ConfidenceEvaluator
end HornReasoner
