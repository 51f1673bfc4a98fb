/-
# Entities and relationships

The world is described by named entities with attributes and by relationships
between two of them. Two labels classify their subject under their object instead
of relating two peers.

Key definitions: `Attributes`, `Entity`, `Relationship`, `TypePredicate`, `GraphError`.
-/
import HornReasoner.Json.Value
import HornReasoner.Text.Blank

namespace HornReasoner

/-- JSON values under keys. -/
abbrev Attributes := SortedMap Json.Value

namespace Attributes

/-- Equality entry by entry, floats compared as numbers. -/
def sameList : List (String × Json.Value) → List (String × Json.Value) → Bool
  | [], [] => true
  | (k, u) :: es, (l, v) :: fs => k == l && u.same v && sameList es fs
  | _, _ => false

/-- Equality entry by entry, floats compared as numbers. -/
def same (a b : Attributes) : Bool :=
  sameList a.toList b.toList

end Attributes

/-- A named thing. -/
structure Entity where
  name : String
  attributes : Attributes := .empty

/-- Sets one attribute. -/
def Entity.withAttribute (e : Entity) (key : String) (value : Json.Value) : Entity :=
  { e with attributes := e.attributes.insert key value }

/-- An entity of which only its type is known. -/
def Entity.typed (name kind : String) : Entity :=
  ({ name : Entity }).withAttribute "type" (.string kind)

/-- A labelled link from one entity to another. -/
structure Relationship where
  subject : String
  predicate : String
  object : String
  attributes : Attributes := .empty

/-- Equality, floats in attributes compared as numbers. -/
def Relationship.same (r s : Relationship) : Bool :=
  r.subject == s.subject && r.predicate == s.predicate && r.object == s.object &&
    Attributes.same r.attributes s.attributes

/-- The labels that classify. -/
inductive TypePredicate
  | isA
  | type
  deriving DecidableEq, Repr

namespace TypePredicate

/-- The label on an edge. -/
def label : TypePredicate → String
  | isA => "is_a"
  | type => "type"

/-- All of them, in the order in which labels are looked up. -/
def all : List TypePredicate :=
  [isA, type]

/-- The classifying label that a text spells. -/
def ofLabel? (s : String) : Option TypePredicate :=
  all.find? fun p => p.label == s

end TypePredicate

/-- Why the world is not changed. -/
inductive GraphError
  | blankEntityName
  | blankPredicate (subject object : String)
  deriving DecidableEq, Repr

/-- The error in words. -/
def GraphError.message : GraphError → String
  | blankEntityName => "entity name must not be blank"
  | blankPredicate subject object =>
    "relationship predicate between '" ++ subject ++ "' and '" ++ object ++ "' must not be blank"

end HornReasoner
