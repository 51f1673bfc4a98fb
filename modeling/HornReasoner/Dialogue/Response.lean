/-
# Responses

What the reasoner says: an answer with its confidence and an explanation of both,
or whether something was learned.

Key definitions: `Response`, `KnowledgeUpdate`, `KnowledgeAdditionError`, `joinNames`,
`Intent.answerText`, `describeText`.
-/
import HornReasoner.Decimal.Text
import HornReasoner.Dialogue.Intent
import HornReasoner.Resolution.Answer

namespace HornReasoner

/-- An answer to an input. -/
structure Response where
  answer : String
  confidence : Float
  /-- How the answer was reached. -/
  explanation : String
  /-- The confidence in words. -/
  confidenceExplanation : String
  deriving DecidableEq

/-- Whether something was learned. -/
structure KnowledgeUpdate where
  success : Bool
  message : String
  deriving DecidableEq, Repr

/-- Why nothing was learned. -/
inductive KnowledgeAdditionError
  | notKnowledge
  | clause (error : ClauseError)
  | graph (error : GraphError)
  deriving DecidableEq, Repr

/-- The error in words. -/
def KnowledgeAdditionError.message : KnowledgeAdditionError → String
  | notKnowledge => "the input is not a fact or relation"
  | clause e => "knowledge store rejected the clause: " ++ e.message
  | graph e => "world model rejected the update: " ++ e.message

/-- What is said of an attempt to learn; `label` is what was to be learned. -/
def KnowledgeUpdate.ofResult {α : Type} (label : String) :
    Except KnowledgeAdditionError α → KnowledgeUpdate
  | .ok _ => ⟨true, "Successfully added new knowledge: " ++ label⟩
  | .error .notKnowledge =>
    ⟨false, "The input does not appear to be a fact or relation that I can add to my knowledge base."⟩
  | .error e => ⟨false, "Failed to add new knowledge: " ++ e.message⟩

/-- Names in a row: `a, b and c`. -/
def joinNames (names : List String) : String :=
  match names.getLast? with
  | none => ""
  | some last =>
    if names.length = 1 then last
    else String.intercalate ", " names.dropLast ++ " and " ++ last

/-- The answer to an intent that has a goal: whether it holds, or for whom. -/
def Intent.answerText (truth : Bool) (bindings : List Binding) : Intent → String
  | .question (.yesNo subject predicate) =>
    if truth then "Yes, " ++ subject ++ " is " ++ predicate ++ "."
    else "No, " ++ subject ++ " is not " ++ predicate ++ " based on my knowledge."
  | .question (.who predicate) =>
    match bindings.map fun b => (b.get? whoVariable).getD "unknown" with
    | [] => "I don't know of any entities that are " ++ predicate ++ "."
    | [only] => only ++ " is " ++ predicate ++ "."
    | names => "The following entities are " ++ predicate ++ ": " ++ joinNames names ++ "."
  | _ => "I've processed your input, but I'm not sure how to respond."

/-- A relationship seen from one of its ends. -/
def Relationship.seenFrom (name : String) (r : Relationship) : String :=
  if r.subject = name then r.predicate ++ " " ++ r.object
  else "is " ++ r.predicate ++ " by " ++ r.subject

/-- What an entity is: its classes if it has any, else its relationships. -/
def describeText (subject : String) (types : List String) (relationships : List Relationship) :
    String :=
  if types ≠ [] then subject ++ " is a " ++ String.intercalate ", " types ++ "."
  else if relationships.isEmpty then "I don't have any information about " ++ subject ++ "."
  else subject ++ " " ++ String.intercalate ", " (relationships.map (·.seenFrom subject)) ++ "."

/-- How a description was reached. -/
def describeExplanation (subject : String) (relationships : Nat) : String :=
  if relationships = 0 then "The world model has no information about '" ++ subject ++ "'."
  else "Found " ++ Decimal.digitsText relationships ++ " relationships involving '" ++ subject ++
    "' in the world model."

end HornReasoner
