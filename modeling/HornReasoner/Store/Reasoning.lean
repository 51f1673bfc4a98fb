/-
# Deciding and explaining goals

A goal with an answer is true, with a confidence that grows with the number of
answers. A goal without one is not true and has no confidence, also when it was
malformed or undecided. A revision raises a confidence below the store's threshold
by a fixed boost when some clause mentions the predicate.

Key definitions: `Reasoning`, `KnowledgeStore.reason`, `KnowledgeStore.explain`,
`KnowledgeStore.reconsider`, `KnowledgeStore.reviser`.
-/
import HornReasoner.Store.Basic
import HornReasoner.Confidence.Revision

namespace HornReasoner

/-- Whether a goal holds, how sure that is, and for which bindings. -/
structure Reasoning where
  truth : Bool
  confidence : Float
  bindings : List Binding
  deriving DecidableEq

/-- A number, or one if it is greater. -/
def atMostOne (x : Float) : Float :=
  if x < 1.0 then x else 1.0

/-- The confidence in a goal with a number of answers. -/
def provenConfidence (answers : Nat) : Float :=
  atMostOne (0.8 + Float.ofNat answers * 0.05)

/-- A confidence with the boost of a revision. -/
def boosted (confidence : Float) : Float :=
  atMostOne (confidence + 0.15)

/-- One line for each clause. -/
def listing (cs : List (Clause String)) : String :=
  String.join (cs.map fun c => "- " ++ c.text ++ "\n")

namespace KnowledgeStore

/-- Decides a goal. -/
def reason (s : KnowledgeStore) (goal : Atom String) : Reasoning :=
  match s.query goal with
  | .ok (b :: bs) => ⟨true, provenConfidence (b :: bs).length, b :: bs⟩
  | _ => ⟨false, 0.0, []⟩

/-- Says whether a goal holds and lists the clauses that mention its predicate. -/
def explain (s : KnowledgeStore) (goal : Atom String) : String :=
  let r := s.reason goal
  if r.truth then
    "The query '" ++ goal.text ++ "' is true with " ++ Decimal.percent r.confidence ++
      " confidence.\nThis conclusion is based on the following facts and rules:\n" ++
      listing (s.mentioning goal.predicate)
  else
    "The query '" ++ goal.text ++ "' could not be proven based on the current knowledge base."

/-- Decides a goal once more, boosting a low confidence when some clause mentions its predicate. -/
def reconsider (s : KnowledgeStore) (goal : Atom String) : Revision :=
  let r := s.reason goal
  let related := s.mentioning goal.predicate
  if r.confidence < s.config.confidenceThreshold ∧ related ≠ [] then
    let revised := boosted r.confidence
    { truth := r.truth
      confidence := revised
      explanation :=
        "After revision, confidence increased from " ++ Decimal.percent r.confidence ++ " to " ++
          Decimal.percent revised ++ ".\nRevision considered these related facts and rules:\n" ++
          listing related }
  else ⟨r.truth, r.confidence, s.explain goal⟩

/-- The store as a reviser; it refuses malformed goals. -/
def reviser (s : KnowledgeStore) : Reviser := fun goal => do
  goal.validate.mapError (.query ∘ .ofClauseError)
  return s.reconsider goal

end KnowledgeStore
end HornReasoner
