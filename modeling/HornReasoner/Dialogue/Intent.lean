/-
# Intents

What a sentence means: a fact or a relation to learn or to ask about, a question,
or nothing known. Facts, relations and yes/no and who questions have a goal; a what
question is about the world and has none.

Key definitions: `Question`, `Intent`, `Intent.goal?`, `Intent.clause?`,
`Intent.updates`.
-/
import HornReasoner.Logic.Clause
import HornReasoner.World.Graph

namespace HornReasoner

/-- A question. -/
inductive Question
  | yesNo (subject predicate : String)
  | who (predicate : String)
  | what (subject : String)
  deriving DecidableEq, Repr

/-- The meaning of a sentence. -/
inductive Intent
  | fact (subject predicate : String)
  | relation (subject verb object : String)
  | question (question : Question)
  | unknown (text : String)
  deriving DecidableEq, Repr

/-- The variable that a who question asks for. -/
def whoVariable : String := "X"

namespace Intent

/-- The intent as a goal. -/
def goal? : Intent → Option (Atom String)
  | fact subject predicate => some ⟨predicate, [.const subject]⟩
  | relation subject verb object => some ⟨verb, [.const subject, .const object]⟩
  | question (.yesNo subject predicate) => some ⟨predicate, [.const subject]⟩
  | question (.who predicate) => some ⟨predicate, [.var whoVariable]⟩
  | question (.what _) => none
  | unknown _ => none

/-- The intent can be learned. -/
def isKnowledge : Intent → Bool
  | fact _ _ => true
  | relation _ _ _ => true
  | _ => false

/-- The fact that learning the intent asserts. -/
def clause? (i : Intent) : Option (Clause String) :=
  if i.isKnowledge then i.goal?.map .fact else none

/-- The changes of the world that learning the intent makes. A fact links an entity to a class, a
relation links two entities. -/
def updates : Intent → List GraphUpdate
  | fact subject predicate =>
    [.register (.typed subject "entity"), .register (.typed predicate "class"),
      .relate { subject, predicate := TypePredicate.isA.label, object := predicate }]
  | relation subject verb object =>
    [.register (.typed subject "entity"), .register (.typed object "entity"),
      .relate { subject, predicate := verb, object }]
  | _ => []

end Intent
end HornReasoner
