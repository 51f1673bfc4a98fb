/-
# The world in JSON

Entities and relationships are records whose attributes may be missing. Attribute
values may be any JSON, as long as arrays and objects stand at most 127 deep in the
whole text.

Key definitions: `Attributes.ofDocument?`, `Entity.ofDocument?`, `Relationship.ofDocument?`,
`GraphSnapshot.toJson`, `GraphSnapshot.read?`, `WorldGraph.text`.
-/
import HornReasoner.Interchange.Record
import HornReasoner.Json.Reader
import HornReasoner.Json.Writer
import HornReasoner.World.Snapshot

namespace HornReasoner

/-- How deep arrays and objects may stand in one another. -/
def maxNesting : Nat := 127

namespace Attributes

/-- The JSON form. -/
def toJson (a : Attributes) : Json :=
  .map Json.Value.json a

/-- Reads attributes that stand `outer` arrays and objects deep. -/
def ofDocument? (outer : Nat) (d : Document) : Option Attributes :=
  if outer + d.depth ≤ maxNesting then d.map? Document.toValue? else none

end Attributes

namespace Entity

/-- The JSON form. -/
def toJson (e : Entity) : Json :=
  .object [("name", .string e.name), ("attributes", Attributes.toJson e.attributes)]

/-- Reads the JSON form. -/
def ofDocument? (d : Document) : Option Entity := do
  let r ← d.record? ["name", "attributes"]
  return ⟨← r.field? "name" Document.text?,
    ← r.fieldOr? "attributes" .empty (Attributes.ofDocument? 1)⟩

end Entity

namespace Relationship

/-- The JSON form. -/
def toJson (r : Relationship) : Json :=
  .object [("subject", .string r.subject), ("predicate", .string r.predicate),
    ("object", .string r.object), ("attributes", Attributes.toJson r.attributes)]

/-- Reads a relationship that stands `outer` arrays and objects deep. -/
def ofDocument? (outer : Nat) (d : Document) : Option Relationship := do
  let r ← d.record? ["subject", "predicate", "object", "attributes"]
  return ⟨← r.field? "subject" Document.text?, ← r.field? "predicate" Document.text?,
    ← r.field? "object" Document.text?,
    ← r.fieldOr? "attributes" .empty (Attributes.ofDocument? (outer + 1))⟩

end Relationship

namespace GraphSnapshot

/-- The JSON form. -/
def toJson (s : GraphSnapshot) : Json :=
  .object [("entities", .map Attributes.toJson s.entities),
    ("relationships", .list Relationship.toJson s.relationships)]

/-- Reads the JSON form. -/
def ofDocument? (d : Document) : Option GraphSnapshot := do
  let r ← d.record? ["entities", "relationships"]
  return ⟨← r.field? "entities" (Document.map? (Attributes.ofDocument? 2)),
    ← r.field? "relationships" (Document.list? (Relationship.ofDocument? 2))⟩

/-- The indented text. -/
def text (s : GraphSnapshot) : String :=
  s.toJson.pretty

/-- Reads a text. -/
def read? (text : String) : Option GraphSnapshot :=
  (Document.read? text).bind ofDocument?

end GraphSnapshot

/-- Why a text gives no world. -/
inductive SnapshotError
  | json
  | graph (error : GraphError)
  deriving DecidableEq, Repr

/-- The error in words. -/
def SnapshotError.message : SnapshotError → String
  | json => "snapshot JSON error"
  | graph e => "snapshot contains an invalid graph element: " ++ e.message

namespace WorldGraph

/-- The text of the world's image. -/
def text (g : WorldGraph) : String :=
  g.toSnapshot.text

/-- The world of a text. -/
def read (text : String) : Except SnapshotError WorldGraph :=
  match GraphSnapshot.read? text with
  | none => .error .json
  | some s => (ofSnapshot s).mapError .graph

end WorldGraph

namespace TypePredicate

/-- The name under which a classifying label is stored. -/
def storedName : TypePredicate → String
  | isA => "IsA"
  | type => "Type"

/-- The JSON form. -/
def toJson (p : TypePredicate) : Json :=
  .string p.storedName

/-- Reads the JSON form. -/
def ofDocument? : Document → Option TypePredicate :=
  Document.word? storedName all

end TypePredicate
end HornReasoner
