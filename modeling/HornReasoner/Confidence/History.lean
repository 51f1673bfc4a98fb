/-
# The history of confidences

Scores are kept in the order recorded. Their statistics are all zero when there is
none. Sums go from left to right and start at minus zero, so that the sum of minus
zeros is minus zero.

Sorting inserts one score after another: a new score goes before the scores at the
end that are greater. The sort is stable, and a score that is no number stays
where it is met, since it is neither greater nor smaller than another.

Key definitions: `ConfidenceHistory`, `ConfidenceStats`, `ConfidenceHistory.stats`,
`sortScores`.
-/
namespace HornReasoner

/-- The sum from left to right. -/
def sumFloats (xs : List Float) : Float :=
  xs.foldl (· + ·) (-0.0)

/-- The sum divided by the number of values. -/
def meanFloats (xs : List Float) : Float :=
  sumFloats xs / Float.ofNat xs.length

/-- Inserts a score into scores that stand in descending order, after those that are greater. -/
def insertScore (x : Float) : List Float → List Float
  | [] => [x]
  | y :: ys => if x < y then y :: insertScore x ys else x :: y :: ys

/-- The scores in ascending order. -/
def sortScores (xs : List Float) : List Float :=
  (xs.foldl (fun sorted x => insertScore x sorted) []).reverse

/-- Summary of a history; the deviation is that of the whole population. -/
structure ConfidenceStats where
  mean : Float := 0.0
  median : Float := 0.0
  min : Float := 0.0
  max : Float := 0.0
  std : Float := 0.0
  deriving DecidableEq

/-- Recorded scores, the oldest first. -/
structure ConfidenceHistory where
  scores : List Float := []
  deriving DecidableEq

namespace ConfidenceHistory

/-- Appends a score. -/
def record (h : ConfidenceHistory) (x : Float) : ConfidenceHistory :=
  ⟨h.scores ++ [x]⟩

/-- The middle score of an ascending row, or half the sum of the two middle ones. -/
def medianOf (sorted : List Float) : Float :=
  let mid := sorted.length / 2
  if sorted.length % 2 = 0 then (sorted.getD (mid - 1) 0.0 + sorted.getD mid 0.0) / 2.0
  else sorted.getD mid 0.0

/-- Summary of the recorded scores. -/
def stats (h : ConfidenceHistory) : ConfidenceStats :=
  if h.scores.isEmpty then {}
  else
    let mean := meanFloats h.scores
    let variance := meanFloats (h.scores.map fun x => (x - mean) * (x - mean))
    let sorted := sortScores h.scores
    { mean
      median := medianOf sorted
      min := sorted.headD 0.0
      max := sorted.getLastD 0.0
      std := variance.sqrt }

end ConfidenceHistory
end HornReasoner
