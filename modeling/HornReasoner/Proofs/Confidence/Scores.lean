/-
# Recorded scores are in the unit interval

A score is what a logistic curve makes of a mean, put into the unit interval, and clamping
keeps what is no number (`clampUnit_inUnit` needs a number). So the mean must be a number,
although the factors, each finite, may sum to an infinity: a sum that meets finite terms
only is a number (`isNaN_sumFloats`), the count that divides it is finite and not zero, and
the curve takes infinities to its ends (`logistic_inUnit`). A confidence that is recorded as
such may be anything; it is tested first. One call therefore adds to the history what its
reply says, and only numbers between zero and one (`ConfidenceEvaluator.perform_adds`), and
so does a row of calls (`ConfidenceEvaluator.scores_inUnit`).

All of it holds of any exponential function that is not negative at a number.

Key definitions: `EvaluatorCall`, `EvaluatorCall.adds`, `ConfidenceEvaluator.performAll`.
Key theorems: `logistic_inUnit`, `ConfidenceEvaluator.perform_adds`,
`ConfidenceEvaluator.scores_inUnit`.
-/
import HornReasoner.Proofs.Binary64.Arithmetic
import HornReasoner.Proofs.Confidence.Revision

namespace HornReasoner

open Binary64 (InUnit parts)

variable {x mean : Float} {exp : Float → Float}

/-! ### The unit interval -/

theorem clampUnit_of_inUnit (h : InUnit x) : clampUnit x = x := by
  have hlow : ¬ x < 0.0 := Binary64.not_lt_of_le h.1
  have hhigh : ¬ 1.0 < x := Binary64.not_lt_of_le h.2
  simp [clampUnit, hlow, hhigh]

/-- **A number is put into the unit interval.** -/
theorem clampUnit_inUnit (h : x.isNaN = false) : InUnit (clampUnit x) := by
  unfold clampUnit
  by_cases hlow : x < 0.0
  · rw [if_pos hlow]
    exact ⟨by decide, by decide⟩
  · rw [if_neg hlow]
    have hzero : 0.0 ≤ x := (Binary64.not_lt h rfl).mp hlow
    by_cases hhigh : 1.0 < x
    · rw [if_pos hhigh]
      exact ⟨by decide, by decide⟩
    · rw [if_neg hhigh]
      exact ⟨hzero, (Binary64.not_lt rfl h).mp hhigh⟩

/-! ### Means and the curve -/

theorem isNaN_foldl_add {xs : List Float} (h : ∀ x ∈ xs, x.isFinite = true) {start : Float}
    (hstart : start.isNaN = false) : (xs.foldl (· + ·) start).isNaN = false := by
  induction xs generalizing start with
  | nil => exact hstart
  | cons x xs ih =>
    have hnext : (start + x).isNaN = false := Binary64.isNaN_add hstart (h x List.mem_cons_self)
    exact ih (fun y hy => h y (List.mem_cons_of_mem _ hy)) hnext

/-- **A sum of finite values is a number**, though it may be an infinity. -/
theorem isNaN_sumFloats {xs : List Float} (h : ∀ x ∈ xs, x.isFinite = true) :
    (sumFloats xs).isNaN = false :=
  isNaN_foldl_add h rfl

theorem isNaN_meanFloats {xs : List Float} (h : ∀ x ∈ xs, x.isFinite = true) (hne : xs ≠ [])
    (hcount : xs.length < 2 ^ 64) : (meanFloats xs).isNaN = false :=
  Binary64.isNaN_div (isNaN_sumFloats h) (Binary64.hasSign_ofNat _).isNaN
    (.inr (Binary64.isFiniteValue_ofNat (List.length_pos_iff.mpr hne) hcount))

/-- **The curve stays in the unit interval**, at infinities too. -/
theorem logistic_inUnit (hexp : ∀ x : Float, x.isNaN = false → 0.0 ≤ exp x)
    (hmean : mean.isNaN = false) : InUnit (logistic exp mean) := by
  refine clampUnit_inUnit ?_
  have hcentred : (mean - 0.5).isNaN = false := Binary64.isNaN_sub hmean rfl
  have hscaled : (-5.0 * (mean - 0.5)).isNaN = false := Binary64.isNaN_mul trivial hcentred
  have hpower := hexp _ hscaled
  generalize exp (-5.0 * (mean - 0.5)) = power at hpower
  have hsum : (1.0 + power).isNaN = false := by
    rcases Binary64.zero_le_iff.mp hpower with hpositive | hzero
    · exact (Binary64.le_iff.mp (Binary64.le_add (by decide) hpositive)).2.1
    · exact Binary64.isNaN_add rfl (show (parts power).isFinite = true by rw [hzero]; rfl)
  exact Binary64.isNaN_div rfl hsum (.inl trivial)

/-! ### Calls -/

/-- A call of an evaluator. A machine counts the factors with 64 bits. -/
inductive EvaluatorCall : Type 1
  | score {α : Type} (evidence : List α) (factors : List Float) (countable : factors.length < 2 ^ 64)
  | record (confidence : Float)
  | revise (call : RevisionCall)

/-- What a call returns. -/
inductive EvaluatorReply
  | scored (score : Except ValidationError Float)
  | recorded
  | revised (revision : Revision)

/-- The scores that a call with its reply adds to the history: a score that is returned, if there
was evidence, or the confidence that is recorded. -/
def EvaluatorCall.adds : EvaluatorCall → EvaluatorReply → List Float
  | .score evidence factors _, .scored (.ok x) =>
    if evidence.isEmpty || factors.isEmpty then [] else [x]
  | .record confidence, .recorded => [if confidence.isNaN then 0.0 else clampUnit confidence]
  | _, _ => []

namespace ConfidenceEvaluator

/-- What scoring evidence comes to. -/
inductive ScoreResult {α : Type} (exp : Float → Float) (e : ConfidenceEvaluator) (evidence : List α)
    (factors : List Float) : Except ValidationError Float × ConfidenceEvaluator → Prop
  | nothing (missing : evidence.isEmpty || factors.isEmpty) :
      ScoreResult exp e evidence factors (.ok 0.0, e)
  | refused (error : ValidationError) : ScoreResult exp e evidence factors (.error error, e)
  | scored (given : ¬ (evidence.isEmpty || factors.isEmpty)) (finite : ∀ x ∈ factors, x.isFinite = true) :
      ScoreResult exp e evidence factors
        (.ok (logistic exp (meanFloats factors)), e.push (logistic exp (meanFloats factors)))

theorem score_cases {α : Type} (exp : Float → Float) (e : ConfidenceEvaluator) (evidence : List α)
    (factors : List Float) : ScoreResult exp e evidence factors (e.score evidence factors exp) := by
  unfold score
  by_cases hmissing : evidence.isEmpty || factors.isEmpty
  · rw [if_pos hmissing]
    exact .nothing hmissing
  · rw [if_neg hmissing]
    by_cases hlength : evidence.length ≠ factors.length
    · rw [if_pos hlength]
      exact .refused _
    · rw [if_neg hlength]
      cases hfind : factors.zipIdx.find? fun f => !f.1.isFinite with
      | some f => exact .refused _
      | none =>
        refine .scored hmissing fun x hx => ?_
        obtain ⟨i, hi, rfl⟩ := List.getElem_of_mem hx
        have hmem : (factors[i], i) ∈ factors.zipIdx := by
          simp [List.mem_zipIdx_iff_getElem?]
        simpa using List.find?_eq_none.mp hfind _ hmem

/-- Evidence with one finite factor for each piece is scored. -/
theorem score_of_isFinite {α : Type} (e : ConfidenceEvaluator) {evidence : List α} {factors : List Float}
    (hne : evidence ≠ []) (hlength : evidence.length = factors.length)
    (hfinite : ∀ x ∈ factors, x.isFinite = true) :
    e.score evidence factors exp =
      (.ok (logistic exp (meanFloats factors)), e.push (logistic exp (meanFloats factors))) := by
  have hfactors : factors ≠ [] := by
    rintro rfl
    exact hne (List.length_eq_zero_iff.mp hlength)
  have hnone : (factors.zipIdx.find? fun f => !f.1.isFinite) = none := by
    rw [List.find?_eq_none]
    intro f hf
    simp [hfinite f.1 (List.fst_mem_of_mem_zipIdx hf)]
  simp [score, hne, hfactors, hlength, hnone]

/-- Makes one call, with an exponential function. -/
def perform (exp : Float → Float) (e : ConfidenceEvaluator) :
    EvaluatorCall → EvaluatorReply × ConfidenceEvaluator
  | .score evidence factors _ =>
    let (result, e) := e.score evidence factors exp
    (.scored result, e)
  | .record confidence => (.recorded, e.record confidence)
  | .revise call => (.revised (e.reviseOne call).1, (e.reviseOne call).2)

/-- Makes a row of calls, with an exponential function. -/
def performAll (exp : Float → Float) (e : ConfidenceEvaluator) (calls : List EvaluatorCall) :
    List EvaluatorReply × ConfidenceEvaluator :=
  callAll (perform exp) e calls

/-- **What one call adds to the history** is what its reply says, and in the unit interval. -/
theorem perform_adds (hexp : ∀ x : Float, x.isNaN = false → 0.0 ≤ exp x) (e : ConfidenceEvaluator)
    (c : EvaluatorCall) :
    (∃ records, (e.perform exp c).2 = e.extended (c.adds (e.perform exp c).1) records) ∧
      ∀ x ∈ c.adds (e.perform exp c).1, InUnit x := by
  cases c with
  | score evidence factors countable =>
    have hcases := score_cases exp e evidence factors
    have hperform : e.perform exp (.score evidence factors countable) =
        (.scored (e.score evidence factors exp).1, (e.score evidence factors exp).2) := rfl
    rw [hperform]
    generalize e.score evidence factors exp = result at hcases ⊢
    cases hcases with
    | nothing missing =>
      simp only [EvaluatorCall.adds, if_pos missing]
      exact ⟨⟨[], e.extended_nil.symm⟩, by simp⟩
    | refused error => exact ⟨⟨[], e.extended_nil.symm⟩, by simp [EvaluatorCall.adds]⟩
    | scored given finite =>
      have hne : factors ≠ [] := by
        rintro rfl
        simp at given
      have hunit := logistic_inUnit hexp (isNaN_meanFloats finite hne countable)
      simp only [EvaluatorCall.adds, if_neg given]
      exact ⟨⟨[], e.push_eq_extended _⟩, by simpa using hunit⟩
  | record confidence =>
    refine ⟨⟨[], e.push_eq_extended _⟩, fun x hx => ?_⟩
    rw [List.mem_singleton.mp hx]
    by_cases hnan : confidence.isNaN = true
    · rw [if_pos hnan]
      exact ⟨by decide, by decide⟩
    · rw [if_neg hnan]
      exact clampUnit_inUnit (by simpa using hnan)
  | revise call =>
    obtain ⟨records, hrecords, -⟩ := e.reviseOne_leaves call
    exact ⟨⟨records, hrecords⟩, by simp [EvaluatorCall.adds]⟩

theorem performAll_adds (hexp : ∀ x : Float, x.isNaN = false → 0.0 ≤ exp x)
    (e : ConfidenceEvaluator) (calls : List EvaluatorCall) :
    let run := e.performAll exp calls
    let added := (List.zipWith EvaluatorCall.adds calls run.1).flatten
    run.1.length = calls.length ∧ (∃ records, run.2 = e.extended added records) ∧
      ∀ x ∈ added, InUnit x := by
  induction calls generalizing e with
  | nil => exact ⟨rfl, ⟨[], e.extended_nil.symm⟩, by simp [performAll, callAll]⟩
  | cons c cs ih =>
    obtain ⟨⟨first, hfirst⟩, hfirstUnit⟩ := perform_adds hexp e c
    obtain ⟨hlength, ⟨rest, hrest⟩, hrestUnit⟩ := ih (e.perform exp c).2
    have hboth (xs : List Float) : (e.perform exp c).2.extended xs rest =
        e.extended (c.adds (e.perform exp c).1 ++ xs) (first ++ rest) := by
      rw [hfirst, extended_extended]
    refine ⟨congrArg (· + 1) hlength, ⟨first ++ rest, hrest.trans (hboth _)⟩, fun x hx => ?_⟩
    rcases List.mem_append.mp hx with hx | hx
    · exact hfirstUnit x hx
    · exact hrestUnit x hx

/-- **Every recorded confidence is a number in the unit interval.** A row of calls, whatever their
evidence, factors and confidences, appends to the history the scores that its replies tell, one call
after another: the value returned where evidence was scored, nothing where it was refused or there
was none, and nothing for a revision. Each of them is a number from zero to one, and so is every
score of an evaluator that began with such scores or with none. -/
theorem scores_inUnit (hexp : ∀ x : Float, x.isNaN = false → 0.0 ≤ exp x) (e : ConfidenceEvaluator)
    (calls : List EvaluatorCall) :
    let run := e.performAll exp calls
    let added := (List.zipWith EvaluatorCall.adds calls run.1).flatten
    run.1.length = calls.length ∧
      run.2.history.scores = e.history.scores ++ added ∧
      (∀ before after, calls = before ++ after →
        (e.performAll exp before).2.history.scores <+: run.2.history.scores) ∧
      (∀ x ∈ added, x.isNaN = false ∧ 0.0 ≤ x ∧ x ≤ 1.0) ∧
      ((∀ x ∈ e.history.scores, 0.0 ≤ x ∧ x ≤ 1.0) →
        ∀ x ∈ run.2.history.scores, x.isNaN = false ∧ 0.0 ≤ x ∧ x ≤ 1.0) := by
  intro run added
  obtain ⟨hlength, ⟨records, hrun⟩, hunit⟩ := performAll_adds hexp e calls
  have hscores : run.2.history.scores = e.history.scores ++ added := by rw [hrun]; rfl
  refine ⟨hlength, hscores, ?_, fun x hx => ⟨(hunit x hx).isNaN, hunit x hx⟩, ?_⟩
  · rintro before after rfl
    have hsplit : run.2 = ((e.performAll exp before).2.performAll exp after).2 := by
      rw [show run = _ from callAll_append (perform exp) e before after]
      rfl
    obtain ⟨-, ⟨later, hlater⟩, -⟩ := performAll_adds hexp (e.performAll exp before).2 after
    rw [hsplit, hlater]
    exact List.prefix_append _ _
  · intro hbefore x hx
    have hx : InUnit x := by
      rcases List.mem_append.mp (hscores ▸ hx) with hold | hnew
      · exact hbefore x hold
      · exact hunit x hnew
    exact ⟨hx.isNaN, hx⟩

/-- An exponential function that is right at zero and far from it. -/
def roughExp (x : Float) : Float :=
  if x < -745.2 then 0.0 else if 709.8 < x then 1.0 / 0.0 else 1.0

/-- Two factors that sum to an infinity, a factor in the middle, no evidence, too few factors, an
infinite factor, and confidences of all kinds. -/
def awkwardCalls : List EvaluatorCall :=
  [ .score ["a", "b"] [1e308, 1e308] (by decide), .score ["a"] [0.5] (by decide),
    .score ([] : List String) [0.5] (by decide), .score ["a", "b"] [0.5] (by decide),
    .score ["a"] [1.0 / 0.0] (by decide), .record (0.0 / 0.0), .record 7.0, .record (-1.0 / 0.0),
    .revise ⟨.ofNat 0, true, 0.1, fun _ => .error (.collaborator "away"), ⟨"p", []⟩⟩ ]

theorem awkwardCalls_inUnit :
    (∀ x : Float, x.isNaN = false → 0.0 ≤ roughExp x) ∧
    (performAll roughExp {} awkwardCalls).2.history.scores = [1.0, 0.5, 0.0, 1.0, 0.0] ∧
    ∀ x ∈ (performAll roughExp {} awkwardCalls).2.history.scores, x.isNaN = false ∧ 0.0 ≤ x ∧ x ≤ 1.0 := by
  have hexp : ∀ x : Float, x.isNaN = false → 0.0 ≤ roughExp x := by
    intro x _
    unfold roughExp
    split
    · decide
    · split <;> decide +kernel
  have hrun := scores_inUnit hexp {} awkwardCalls
  exact ⟨hexp, by decide +kernel, hrun.2.2.2.2 (by simp)⟩

end ConfidenceEvaluator
end HornReasoner
