/-
# Snapshots of the world

A snapshot holds the entities in ascending order of their names and the
relationships in order. A world is rebuilt from it by registering the entities and
then relating; the ends of a relationship need not be listed.

Key definitions: `GraphSnapshot`, `WorldGraph.toSnapshot`, `GraphSnapshot.updates`,
`WorldGraph.ofSnapshot`.
-/
import HornReasoner.World.Graph

namespace HornReasoner

/-- An image of a world. -/
structure GraphSnapshot where
  entities : SortedMap Attributes := .empty
  relationships : List Relationship := []

namespace GraphSnapshot

/-- Equality of entities and of relationships in order, floats compared as numbers. -/
def same (s t : GraphSnapshot) : Bool :=
  s.entities.toList.length == t.entities.toList.length &&
    (s.entities.toList.zip t.entities.toList).all (fun p =>
      p.1.1 == p.2.1 && Attributes.same p.1.2 p.2.2) &&
    s.relationships.length == t.relationships.length &&
    (s.relationships.zip t.relationships).all fun p => p.1.same p.2

/-- The changes that build the world of a snapshot. -/
def updates (s : GraphSnapshot) : List GraphUpdate :=
  s.entities.toList.map (fun e => .register ⟨e.1, e.2⟩) ++ s.relationships.map .relate

end GraphSnapshot

namespace WorldGraph

/-- The image of a world. -/
def toSnapshot (g : WorldGraph) : GraphSnapshot where
  entities := .ofList g.entities.toList
  relationships := g.relationships

/-- The world of a snapshot. -/
def ofSnapshot (s : GraphSnapshot) : Except GraphError WorldGraph :=
  match empty.applyAll s.updates with
  | (.ok (), g) => .ok g
  | (.error e, _) => .error e

end WorldGraph
end HornReasoner
