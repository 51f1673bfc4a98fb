/-
# The world graph

Entities and edges stand in the order in which they first came. There is at most
one edge from one entity to another: relating them again replaces its label and
attributes and keeps its place. Both ends of an edge are entities, and no name or
label is blank.

An update that names something blank is refused. What an update comes to is whether it
was made, and the world as it is afterwards.

Key definitions: `WorldGraph`, `GraphUpdate`, `WorldGraph.apply`, `WorldGraph.applyAll`,
`WorldGraph.relationshipsOf`, `WorldGraph.matching`, `WorldGraph.typesOf`, `WorldGraph.ofType`.
-/
import HornReasoner.Map.Ordered
import HornReasoner.World.Entity

namespace HornReasoner

/-- Label and attributes of an edge. -/
structure Edge where
  predicate : String
  attributes : Attributes

/-- Entities with their attributes, and edges by subject and object. -/
structure WorldGraph where
  entities : OrderedMap String Attributes := .empty
  edges : OrderedMap (String × String) Edge := .empty
  /-- No entity has a blank name. -/
  named : ∀ n ∈ entities.keys, Text.isBlankText n = false := by simp [OrderedMap.keys, OrderedMap.empty]
  /-- Both ends of an edge are entities. -/
  linked : ∀ p ∈ edges.keys, p.1 ∈ entities.keys ∧ p.2 ∈ entities.keys := by
    simp [OrderedMap.keys, OrderedMap.empty]
  /-- No edge has a blank label. -/
  labelled : ∀ e ∈ edges.toList, Text.isBlankText e.2.predicate = false := by simp [OrderedMap.empty]

/-- A change of the world: an entity with its attributes, or a relationship. -/
inductive GraphUpdate
  | register (entity : Entity)
  | relate (relationship : Relationship)

namespace WorldGraph

/-- A world without entities. -/
def empty : WorldGraph := {}

instance : Inhabited WorldGraph := ⟨empty⟩

/-- Adds an entity, or replaces all attributes of an entity that is there. -/
def register (g : WorldGraph) (e : Entity) : Except GraphError Unit × WorldGraph :=
  if h : Text.isBlankText e.name then (.error .blankEntityName, g)
  else (.ok (),
    { g with
      entities := g.entities.insert e.name e.attributes
      named := by
        intro n hn
        rcases OrderedMap.mem_keys_insert.1 hn with rfl | hn
        · simpa using h
        · exact g.named n hn
      linked := fun p hp =>
        ⟨OrderedMap.mem_keys_insert.2 (.inr (g.linked p hp).1),
          OrderedMap.mem_keys_insert.2 (.inr (g.linked p hp).2)⟩ })

/-- Relates two entities. An end that is new becomes an entity without attributes, the subject
before the object. -/
def relate (g : WorldGraph) (r : Relationship) : Except GraphError Unit × WorldGraph :=
  if hs : Text.isBlankText r.subject then (.error .blankEntityName, g)
  else if ho : Text.isBlankText r.object then (.error .blankEntityName, g)
  else if hp : Text.isBlankText r.predicate then (.error (.blankPredicate r.subject r.object), g)
  else (.ok (),
    { entities := (g.entities.insertIfNew r.subject .empty).insertIfNew r.object .empty
      edges := g.edges.insert (r.subject, r.object) ⟨r.predicate, r.attributes⟩
      named := by
        intro n hn
        rcases OrderedMap.mem_keys_insertIfNew.1 hn with rfl | hn
        · simpa using ho
        · rcases OrderedMap.mem_keys_insertIfNew.1 hn with rfl | hn
          · simpa using hs
          · exact g.named n hn
      linked := by
        intro p hp
        rcases OrderedMap.mem_keys_insert.1 hp with rfl | hp
        · simp [OrderedMap.mem_keys_insertIfNew]
        · have h := g.linked p hp
          simp [OrderedMap.mem_keys_insertIfNew, h]
      labelled := by
        intro e he
        rcases OrderedMap.mem_toList_insert he with rfl | he
        · simpa using hp
        · exact g.labelled e he })

/-- Makes one change. -/
def apply (g : WorldGraph) : GraphUpdate → Except GraphError Unit × WorldGraph
  | .register e => g.register e
  | .relate r => g.relate r

/-- Makes changes one after another up to the first that is refused. What was changed before stays
changed. -/
def applyAll (g : WorldGraph) : List GraphUpdate → Except GraphError Unit × WorldGraph
  | [] => (.ok (), g)
  | u :: us =>
    match g.apply u with
    | (.ok (), g) => g.applyAll us
    | (.error e, g) => (.error e, g)

/-- The entity is there. -/
def has (g : WorldGraph) (name : String) : Bool :=
  g.entities.contains name

/-- The attributes of an entity. -/
def attributes? (g : WorldGraph) (name : String) : Option Attributes :=
  g.entities.get? name

/-- An entity with its attributes. -/
def entity? (g : WorldGraph) (name : String) : Option Entity :=
  (g.attributes? name).map fun attributes => { name, attributes }

/-- The relationship that an edge stands for. -/
def relationshipOf (e : (String × String) × Edge) : Relationship where
  subject := e.1.1
  predicate := e.2.predicate
  object := e.1.2
  attributes := e.2.attributes

/-- All relationships in order. -/
def relationships (g : WorldGraph) : List Relationship :=
  g.edges.toList.map relationshipOf

/-- The relationships of an entity: those that leave it, then those that reach it. -/
def relationshipsOf (g : WorldGraph) (name : String) : List Relationship :=
  g.relationships.filter (fun r => r.subject == name) ++
    g.relationships.filter (fun r => r.object == name)

/-- A part of a pattern: nothing fits anything, and a text fits itself. -/
def fits (pattern : Option String) (s : String) : Bool :=
  match pattern with
  | none => true
  | some p => s == p

/-- The relationships that fit a pattern. -/
def matching (g : WorldGraph) (subject predicate object : Option String) : List Relationship :=
  g.relationships.filter fun r =>
    fits subject r.subject && fits predicate r.predicate && fits object r.object

/-- The relationships that classify. -/
def classifications (g : WorldGraph) : List Relationship :=
  g.relationships.filter fun r => (TypePredicate.ofLabel? r.predicate).isSome

/-- The classes of an entity, each once and in ascending order. -/
def typesOf (g : WorldGraph) (name : String) : List String :=
  (SortedMap.ofList ((g.classifications.filter fun r => r.subject == name).map fun r =>
    (r.object, ()))).keys

/-- The entities of a class in the order of their edges. -/
def ofType (g : WorldGraph) (type : String) : List String :=
  (g.classifications.filter fun r => r.object == type).map Relationship.subject

/-- The entities that have an attribute with a value. -/
def byAttribute (g : WorldGraph) (key : String) (value : Json.Value) : List String :=
  (g.entities.toList.filter fun e =>
    match e.2.get? key with
    | some v => v.same value
    | none => false).map Prod.fst

end WorldGraph
end HornReasoner
