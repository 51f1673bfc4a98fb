/-
# Socrates, Plato and Aristotle

A small body of knowledge to start from: who taught whom, that humans are mortal,
and the same seen as a world of persons and classes. Facts and rules are kept as texts
and read when they are learned.

Key definitions: `Reasoner.classicalFacts`, `Reasoner.classicalRules`,
`Reasoner.classicalUpdates`, `Reasoner.learnClassics`.
-/
import HornReasoner.Reasoner.Basic

namespace HornReasoner
namespace Reasoner

/-- The facts. -/
def classicalFacts : List String :=
  [ "human(socrates).",
    "human(plato).",
    "human(aristotle).",
    "teacher(socrates, plato).",
    "teacher(plato, aristotle)." ]

/-- The rules. -/
def classicalRules : List String :=
  [ "mortal(X) :- human(X).",
    "student(X, Y) :- teacher(Y, X).",
    "philosopher(X) :- human(X), teacher(X, _)." ]

/-- The requests to assert the facts and then the rules; each takes the identifier of its place. -/
def classicalAdditions (ids : Nat → Uuid) : List Addition :=
  (classicalFacts.map (ClauseKind.fact, ·) ++ classicalRules.map (ClauseKind.rule, ·)).mapIdx
    fun place (kind, text) => .text kind (ids place) text

/-- The world: persons and classes, and how they are related. -/
def classicalUpdates : List GraphUpdate :=
  [ .register (.typed "socrates" "person"),
    .register (.typed "plato" "person"),
    .register (.typed "aristotle" "person"),
    .register (.typed "human" "class"),
    .register (.typed "mortal" "class"),
    .register (.typed "philosopher" "class"),
    .relate { subject := "socrates", predicate := "is_a", object := "human" },
    .relate { subject := "plato", predicate := "is_a", object := "human" },
    .relate { subject := "aristotle", predicate := "is_a", object := "human" },
    .relate { subject := "human", predicate := "is_a", object := "mortal" },
    .relate { subject := "socrates", predicate := "teacher_of", object := "plato" },
    .relate { subject := "plato", predicate := "teacher_of", object := "aristotle" },
    .relate { subject := "socrates", predicate := "is_a", object := "philosopher" },
    .relate { subject := "plato", predicate := "is_a", object := "philosopher" } ]

/-- Asserts the facts and rules, then changes the world. What was done before an error stays done. -/
def learnClassics (r : Reasoner) (ids : Nat → Uuid) : Except KnowledgeAdditionError Unit × Reasoner :=
  match r.store.addEach (classicalAdditions ids) with
  | (.error e, store) => (.error (.clause e), { r with store })
  | (.ok (), store) =>
    let (result, world) := r.world.applyAll classicalUpdates
    (result.mapError .graph, { r with store, world })

end Reasoner
end HornReasoner
