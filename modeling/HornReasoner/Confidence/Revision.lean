/-
# Revisions and their log

A revision is a second answer to a goal. Each attempt leaves a record with the
confidence it started from, opened before the reviser is asked; when the reviser
answered, also the confidence it came to and whether that is an improvement.

Key definitions: `Revision`, `Reviser`, `RevisionRecord`, `RevisionLog`,
`RevisionLog.start`, `RevisionLog.complete`, `RevisionLog.stats`.
-/
import HornReasoner.Confidence.History
import HornReasoner.Logic.Term
import HornReasoner.Uuid

namespace HornReasoner

/-- A reconsidered answer. -/
structure Revision where
  truth : Bool
  confidence : Float
  explanation : String
  deriving DecidableEq

/-- Why a revision failed. -/
inductive RevisionError
  | query (error : QueryError)
  | collaborator (reason : String)
  deriving DecidableEq, Repr

/-- The error in words. -/
def RevisionError.message : RevisionError → String
  | query e => "query failed during revision: " ++ e.message
  | collaborator reason => reason

/-- Anything that can reconsider a goal. -/
abbrev Reviser := Atom String → Except RevisionError Revision

/-- One attempt to revise an answer. -/
structure RevisionRecord where
  id : Uuid
  initial : Float
  query : String
  revised : Option Float := none
  successful : Option Bool := none
  deriving DecidableEq

namespace RevisionRecord

/-- Notes the confidence that the reviser came to; only a greater one is a success. -/
def complete (r : RevisionRecord) (revised : Float) : RevisionRecord :=
  { r with revised := some revised, successful := some (decide (r.initial < revised)) }

/-- The change of confidence, once the reviser answered. -/
def improvement (r : RevisionRecord) : Option Float :=
  r.revised.map (· - r.initial)

end RevisionRecord

/-- Summary of the attempts. -/
structure RevisionStats where
  total : Nat := 0
  successful : Nat := 0
  successRate : Float := 0.0
  averageImprovement : Float := 0.0
  deriving DecidableEq

/-- All attempts, the oldest first. -/
structure RevisionLog where
  records : List RevisionRecord := []
  deriving DecidableEq

namespace RevisionLog

/-- Appends a record. -/
def add (log : RevisionLog) (r : RevisionRecord) : RevisionLog :=
  ⟨log.records ++ [r]⟩

/-- Opens a record for the next attempt, and says at which place of the log. -/
def start (log : RevisionLog) (id : Uuid) (initial : Float) (query : String) : RevisionLog × Nat :=
  (log.add { id, initial, query }, log.records.length)

/-- Notes the confidence that the reviser came to in the record at a place. -/
def complete (log : RevisionLog) (place : Nat) (revised : Float) : RevisionLog :=
  ⟨log.records.modify place (·.complete revised)⟩

/-- Summary of the attempts; the average is over those that the reviser answered. -/
def stats (log : RevisionLog) : RevisionStats :=
  if log.records.isEmpty then {}
  else
    let total := log.records.length
    let successful := log.records.countP fun r => r.successful == some true
    let improvements := log.records.filterMap RevisionRecord.improvement
    { total, successful
      successRate := Float.ofNat successful / Float.ofNat total
      averageImprovement := if improvements.isEmpty then 0.0 else meanFloats improvements }

end RevisionLog
end HornReasoner
