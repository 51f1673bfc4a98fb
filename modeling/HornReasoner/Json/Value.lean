/-
# JSON values

A value keeps its object members in a list. It is canonical when a document can
hold it and it has one list form: every integer fits 64 bits (signed below zero,
unsigned above), every float is finite, and the keys of each object ascend.

Key definitions: `Json`, `Json.isCanonical`, `Json.same`, `Json.Value`.
-/
import HornReasoner.Map.Sorted

namespace HornReasoner

/-- A number of a document. An integer never equals a float, whatever their values. -/
inductive Number
  | int (value : Int)
  | float (value : Float)
  deriving DecidableEq

/-- A JSON value. -/
inductive Json
  | null
  | bool (value : Bool)
  | number (value : Number)
  | string (value : String)
  | array (items : List Json)
  | object (members : List (String × Json))

namespace Number

/-- The integers that stay integers in a document. -/
def fits (i : Int) : Bool :=
  -Int.pow 2 63 ≤ i && i < Int.pow 2 64

/-- A document can hold the number. -/
def isCanonical : Number → Bool
  | .int i => fits i
  | .float x => x.isFinite

/-- Equality of numbers: integers by value, floats by the order of the reals, so the zeros are equal. -/
def same : Number → Number → Bool
  | .int i, .int j => i == j
  | .float x, .float y => x == y
  | _, _ => false

end Number

namespace Json

mutual

/-- A document can hold the value, and its objects are sorted by key. -/
def isCanonical : Json → Bool
  | .null | .bool _ | .string _ => true
  | .number n => n.isCanonical
  | .array items => areCanonical items
  | .object members =>
    decide ((members.map Prod.fst).Pairwise (· < ·)) && membersCanonical members

/-- Every item is canonical. -/
def areCanonical : List Json → Bool
  | [] => true
  | j :: js => isCanonical j && areCanonical js

/-- Every member's value is canonical. -/
def membersCanonical : List (String × Json) → Bool
  | [] => true
  | (_, j) :: ms => isCanonical j && membersCanonical ms

end

mutual

/-- Equality of values, floats compared as numbers. -/
def same : Json → Json → Bool
  | .null, .null => true
  | .bool a, .bool b => a == b
  | .number m, .number n => m.same n
  | .string s, .string t => s == t
  | .array xs, .array ys => sameItems xs ys
  | .object ms, .object ns => sameMembers ms ns
  | _, _ => false

/-- Equality item by item. -/
def sameItems : List Json → List Json → Bool
  | [], [] => true
  | x :: xs, y :: ys => same x y && sameItems xs ys
  | _, _ => false

/-- Equality member by member. -/
def sameMembers : List (String × Json) → List (String × Json) → Bool
  | [], [] => true
  | (k, x) :: ms, (l, y) :: ns => k == l && same x y && sameMembers ms ns
  | _, _ => false

end

/-- A natural number. -/
def nat (n : Nat) : Json :=
  .number (.int n)

/-- A float; one that is not finite has no JSON form and becomes null. -/
def float (x : Float) : Json :=
  if x.isFinite then .number (.float x) else .null

/-- An optional value; null stands for none. -/
def optional {α : Type} (f : α → Json) : Option α → Json
  | none => .null
  | some a => f a

/-- A list of values. -/
def list {α : Type} (f : α → Json) (xs : List α) : Json :=
  .array (xs.map f)

/-- A map as an object, keys ascending. -/
def map {α : Type} (f : α → Json) (m : SortedMap α) : Json :=
  .object (m.toList.map fun e => (e.1, f e.2))

/-- A canonical JSON value. -/
structure Value where
  json : Json
  canonical : json.isCanonical = true

/-- A text as a value. -/
def Value.string (s : String) : Value :=
  ⟨.string s, rfl⟩

/-- Equality of values, floats compared as numbers. -/
def Value.same (u v : Value) : Bool :=
  u.json.same v.json

theorem membersCanonical_insertList {k : String} {j : Json} (hj : j.isCanonical = true) :
    ∀ {ms : List (String × Json)}, membersCanonical ms = true →
      membersCanonical (SortedMap.insertList k j ms) = true
  | [], _ => by simp [SortedMap.insertList, membersCanonical, hj]
  | m :: ms, h => by
    simp only [membersCanonical, Bool.and_eq_true] at h
    unfold SortedMap.insertList
    split
    · simp [membersCanonical, hj, h]
    · split
      · simp [membersCanonical, hj, h]
      · simp [membersCanonical, h, membersCanonical_insertList hj h.2]

end Json
end HornReasoner
