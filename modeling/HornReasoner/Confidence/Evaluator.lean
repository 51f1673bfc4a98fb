/-
# Scoring and revising answers

Evidence is scored by the mean of its certainty factors on a logistic curve. An
answer below the threshold goes to a reviser, and a reviser that fails leaves the
answer as it was. Every score and every attempt is kept.

Key definitions: `ConfidenceEvaluator`, `ConfidenceEvaluator.score`,
`ConfidenceEvaluator.record`, `ConfidenceEvaluator.revise`.
-/
import HornReasoner.Confidence.Band
import HornReasoner.Confidence.Revision
import HornReasoner.Decimal.Text

namespace HornReasoner

/-- Why evidence has no score. -/
inductive ValidationError
  | lengthMismatch (evidence factors : Nat)
  | nonFiniteFactor (index : Nat) (value : Float)
  deriving DecidableEq

/-- The error in words. -/
def ValidationError.message : ValidationError → String
  | lengthMismatch evidence factors =>
    "evidence and certainty factors must have the same length (" ++ Decimal.digitsText evidence ++
      " != " ++ Decimal.digitsText factors ++ ")"
  | nonFiniteFactor index value =>
    "certainty factor at index " ++ Decimal.digitsText index ++ " is not finite: " ++
      Decimal.positional value

/-- Puts a number into the unit interval; what is no number stays. -/
def clampUnit (x : Float) : Float :=
  let x := if x < 0.0 then 0.0 else x
  if 1.0 < x then 1.0 else x

/-- The score of a mean certainty, by an exponential function: 0.5 maps to 0.5 and 1.0 to about
0.92. -/
def logistic (exp : Float → Float) (mean : Float) : Float :=
  clampUnit (1.0 / (1.0 + exp (-5.0 * (mean - 0.5))))

/-- A threshold for revision and the histories of scores and attempts. -/
structure ConfidenceEvaluator where
  threshold : Float := 0.7
  history : ConfidenceHistory := {}
  revisions : RevisionLog := {}
  deriving DecidableEq

namespace ConfidenceEvaluator

/-- Appends a score to the history. -/
def push (e : ConfidenceEvaluator) (score : Float) : ConfidenceEvaluator :=
  { e with history := e.history.record score }

/-- Scores pieces of evidence, one certainty factor for each. Without evidence or factors the score
is zero and is not kept. -/
def score {α : Type} (e : ConfidenceEvaluator) (evidence : List α) (factors : List Float)
    (exp : Float → Float := Float.exp) : Except ValidationError Float × ConfidenceEvaluator :=
  if evidence.isEmpty || factors.isEmpty then (.ok 0.0, e)
  else if evidence.length ≠ factors.length then
    (.error (.lengthMismatch evidence.length factors.length), e)
  else
    match factors.zipIdx.find? fun f => !f.1.isFinite with
    | some (value, index) => (.error (.nonFiniteFactor index value), e)
    | none =>
      let score := logistic exp (meanFloats factors)
      (.ok score, e.push score)

/-- Keeps a confidence that was found elsewhere, put into the unit interval. -/
def record (e : ConfidenceEvaluator) (confidence : Float) : ConfidenceEvaluator :=
  e.push (if confidence.isNaN then 0.0 else clampUnit confidence)

/-- The confidence is below the threshold. -/
def needsRevision (e : ConfidenceEvaluator) (confidence : Float) : Bool :=
  decide (confidence < e.threshold)

/-- Revises an answer whose confidence is below the threshold, and logs the attempt under an
identifier. -/
def revise (e : ConfidenceEvaluator) (id : Uuid) (answer : Bool) (confidence : Float)
    (reviser : Reviser) (goal : Atom String) : Revision × ConfidenceEvaluator :=
  if e.needsRevision confidence then
    let (log, place) := e.revisions.start id confidence goal.text
    match reviser goal with
    | .ok revision => (revision, { e with revisions := log.complete place revision.confidence })
    | .error error =>
      (⟨answer, confidence, "Revision failed: " ++ error.message⟩, { e with revisions := log })
  else (⟨answer, confidence, "No revision needed."⟩, e)

/-- A confidence in words. -/
def explain (confidence : Float) : String :=
  (ConfidenceBand.ofConfidence confidence).description

end ConfidenceEvaluator
end HornReasoner
