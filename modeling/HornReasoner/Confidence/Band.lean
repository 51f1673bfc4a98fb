/-
# Confidence in words

A confidence falls into one of five bands, each with a sentence. The bounds belong
to the higher band; what is no number is in the lowest.

Key definitions: `ConfidenceBand`, `ConfidenceBand.ofConfidence`,
`ConfidenceBand.description`.
-/
namespace HornReasoner

/-- How much an answer is trusted. -/
inductive ConfidenceBand
  | veryHigh
  | high
  | moderate
  | low
  | veryLow
  deriving DecidableEq, Repr

namespace ConfidenceBand

/-- The band of a confidence. -/
def ofConfidence (x : Float) : ConfidenceBand :=
  if 0.9 ≤ x then veryHigh
  else if 0.7 ≤ x then high
  else if 0.5 ≤ x then moderate
  else if 0.3 ≤ x then low
  else veryLow

/-- The sentence of a band. -/
def description : ConfidenceBand → String
  | veryHigh => "I am very confident in this answer."
  | high => "I am reasonably confident in this answer."
  | moderate => "I am somewhat confident in this answer, but there is room for doubt."
  | low => "I am not very confident in this answer. It should be treated with caution."
  | veryLow => "I have very low confidence in this answer. It is likely incorrect or incomplete."

/-- The name under which a band is stored. -/
def label : ConfidenceBand → String
  | veryHigh => "VeryHigh"
  | high => "High"
  | moderate => "Moderate"
  | low => "Low"
  | veryLow => "VeryLow"

/-- All bands, the highest first. -/
def all : List ConfidenceBand :=
  [veryHigh, high, moderate, low, veryLow]

end ConfidenceBand
end HornReasoner
