/-
# Terms, atoms and clauses in JSON

A term is an object whose only key says whether it is a constant or a variable.
Atoms and assertions are records. Names are not checked on reading.

Key definitions: `Term.toJson`, `Term.ofDocument?`, `Atom.toJson`, `Atom.ofDocument?`,
`Assertion.toJson`, `Assertion.ofDocument?`, `Binding.toJson`, `Reasoning.toJson`.
-/
import HornReasoner.Interchange.Record
import HornReasoner.Store.Reasoning

namespace HornReasoner

namespace Term

/-- The JSON form. -/
def toJson : Term String → Json
  | const c => .object [("Constant", .string c)]
  | var v => .object [("Variable", .string v)]

/-- Reads the JSON form. -/
def ofDocument? : Document → Option (Term String)
  | .object [(some "Constant", .string (some s))] => some (.const s)
  | .object [(some "Variable", .string (some s))] => some (.var s)
  | _ => none

end Term

namespace Atom

/-- The JSON form. -/
def toJson (a : Atom String) : Json :=
  .object [("predicate", .string a.predicate), ("args", .list Term.toJson a.args)]

/-- Reads the JSON form. -/
def ofDocument? (d : Document) : Option (Atom String) := do
  let r ← d.record? ["predicate", "args"]
  return ⟨← r.field? "predicate" Document.text?, ← r.field? "args" (Document.list? Term.ofDocument?)⟩

end Atom

namespace Uuid

/-- The JSON form. -/
def toJson (u : Uuid) : Json :=
  .string u.text

/-- Reads the JSON form. -/
def ofDocument? (d : Document) : Option Uuid :=
  d.text?.bind read?

end Uuid

namespace Assertion

/-- The JSON form. -/
def toJson (a : Assertion) : Json :=
  .object [("id", a.id.toJson), ("head", a.clause.head.toJson), ("body", .list Atom.toJson a.clause.body)]

/-- Reads the JSON form. -/
def ofDocument? (d : Document) : Option Assertion := do
  let r ← d.record? ["id", "head", "body"]
  let id ← r.field? "id" Uuid.ofDocument?
  let head ← r.field? "head" Atom.ofDocument?
  let body ← r.field? "body" (Document.list? Atom.ofDocument?)
  return ⟨id, ⟨head, body⟩⟩

end Assertion

namespace Binding

/-- The JSON form. -/
def toJson (b : Binding) : Json :=
  .map .string b

/-- Reads the JSON form. -/
def ofDocument? (d : Document) : Option Binding :=
  d.map? Document.text?

end Binding

namespace Reasoning

/-- The JSON form. -/
def toJson (r : Reasoning) : Json :=
  .object [("truth", .bool r.truth), ("confidence", .float r.confidence),
    ("bindings", .list Binding.toJson r.bindings)]

/-- Reads the JSON form. -/
def ofDocument? (d : Document) : Option Reasoning := do
  let r ← d.record? ["truth", "confidence", "bindings"]
  return ⟨← r.field? "truth" Document.bool?, ← r.field? "confidence" Document.float?,
    ← r.field? "bindings" (Document.list? Binding.ofDocument?)⟩

end Reasoning
end HornReasoner
