/-
# The reasoner

A reasoner reads a sentence, decides its goal in the knowledge store, revises an
answer whose confidence is low, and says what it found. What question are answered
from the world graph. What it learns goes into both: the store gets a fact, and the
world gets an edge between two entities of a known type.

Answering changes the histories only, and learning changes store and world only. An operation that
fails gives the reasoner that it leaves all the same. The identifiers that clauses and records get
are arguments.

Key definitions: `Reasoner`, `Reasoner.ask`, `Reasoner.tell`,
`Reasoner.restore`.
-/
import HornReasoner.Confidence.Evaluator
import HornReasoner.Dialogue.Response
import HornReasoner.Dialogue.Sentence
import HornReasoner.Store.Reasoning
import HornReasoner.World.Snapshot

namespace HornReasoner

/-- A reader of sentences, the two models of the world, and the histories. -/
structure Reasoner where
  parse : String → Intent := Sentence.read
  store : KnowledgeStore := {}
  world : WorldGraph := .empty
  evaluator : ConfidenceEvaluator := {}

namespace Reasoner

/-- A reasoner that knows nothing. -/
def new (config : ReasonerConfig) (parse : String → Intent) : Reasoner where
  parse := parse
  store := .empty config.store
  evaluator := { threshold := config.confidenceThreshold }

/-- An answer with its confidence in words. -/
def respond (answer : String) (confidence : Float) (explanation : String) : Response :=
  ⟨answer, confidence, explanation, ConfidenceEvaluator.explain confidence⟩

/-- Decides a goal, revises a low confidence and keeps the one that results; `id` is for the record of
the revision. The bindings are those found before a revision. -/
def answer (r : Reasoner) (id : Uuid) (intent : Intent) (goal : Atom String) : Response × Reasoner :=
  let reasoning := r.store.reason goal
  let first : Revision := ⟨reasoning.truth, reasoning.confidence, r.store.explain goal⟩
  let (last, evaluator) :=
    if r.evaluator.needsRevision reasoning.confidence then
      r.evaluator.revise id reasoning.truth reasoning.confidence r.store.reviser goal
    else (first, r.evaluator)
  (respond (intent.answerText last.truth reasoning.bindings) last.confidence last.explanation,
    { r with evaluator := evaluator.record last.confidence })

/-- Describes an entity by its edges; each counts as fully certain evidence. -/
def describe (r : Reasoner) (subject : String) : Response × Reasoner :=
  let relationships := r.world.relationshipsOf subject
  let (scored, evaluator) := r.evaluator.score relationships (relationships.map fun _ => 1.0)
  let confidence := scored.toOption.getD 0.0
  (respond (describeText subject (r.world.typesOf subject) relationships) confidence
      (describeExplanation subject relationships.length),
    { r with evaluator })

/-- Answers an intent. -/
def ask (r : Reasoner) (id : Uuid) (intent : Intent) : Response × Reasoner :=
  match intent, intent.goal? with
  | .question (.what subject), _ => r.describe subject
  | intent, some goal => r.answer id intent goal
  | _, none =>
    (respond "I don't understand the input." 0.0
      "The input could not be parsed into a format that I can reason about.", r)

/-- Reads and answers a sentence. -/
def askText (r : Reasoner) (id : Uuid) (text : String) : Response × Reasoner :=
  r.ask id (r.parse text)

/-- Learns an intent: asserts its fact under an identifier, then changes the world. What was done before
an error stays done. -/
def learn (r : Reasoner) (id : Uuid) (intent : Intent) :
    Except KnowledgeAdditionError Uuid × Reasoner :=
  match intent.clause? with
  | none => (.error .notKnowledge, r)
  | some c =>
    match r.store.assert .fact ⟨id, c⟩ with
    | (.error e, store) => (.error (.clause e), { r with store })
    | (.ok id, store) =>
      match r.world.applyAll intent.updates with
      | (.error e, world) => (.error (.graph e), { r with store, world })
      | (.ok (), world) => (.ok id, { r with store, world })

/-- Learns an intent under a label. -/
def tellAs (r : Reasoner) (id : Uuid) (intent : Intent) (label : String) : KnowledgeUpdate × Reasoner :=
  let (result, r) := r.learn id intent
  (.ofResult label result, r)

/-- Learns an intent, labelled by its clause. -/
def tell (r : Reasoner) (id : Uuid) (intent : Intent) : KnowledgeUpdate × Reasoner :=
  r.tellAs id intent ((intent.clause?.map Clause.text).getD "")

/-- Reads a sentence and learns what it says. -/
def tellText (r : Reasoner) (id : Uuid) (text : String) : KnowledgeUpdate × Reasoner :=
  r.tellAs id (r.parse text) text

/-- The image of the world. -/
def snapshot (r : Reasoner) : GraphSnapshot :=
  r.world.toSnapshot

/-- Replaces the world by that of a snapshot; the store stays as it is. -/
def restore (r : Reasoner) (s : GraphSnapshot) : Except GraphError Unit × Reasoner :=
  match WorldGraph.ofSnapshot s with
  | .error e => (.error e, r)
  | .ok world => (.ok (), { r with world })

end Reasoner
end HornReasoner
