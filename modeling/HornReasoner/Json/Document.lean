/-
# JSON documents

A document is what a text says before its meaning: members stand in their order,
repeated ones included, and a string with half of a surrogate pair or a number
beyond the floats is there without a value. A record ignores members it does not
know, so such leaves matter only where they are used.

Key definitions: `Document`, `Document.toJson?`, `Document.toValue?`, `Json.toDocument`,
`Document.depth`.
Key theorem: `Document.isCanonical_of_toJson?`.
-/
import HornReasoner.Json.Value

namespace HornReasoner

/-- A JSON text as read. -/
inductive Document
  | null
  | bool (value : Bool)
  | number (value : Option Number)
  | string (value : Option String)
  | array (items : List Document)
  | object (members : List (Option String × Document))

namespace Document

mutual

/-- How deep arrays and objects stand in one another. -/
def depth : Document → Nat
  | .array items => itemsDepth items + 1
  | .object members => membersDepth members + 1
  | _ => 0

/-- The depth of the deepest item. -/
def itemsDepth : List Document → Nat
  | [] => 0
  | d :: ds => max (depth d) (itemsDepth ds)

/-- The depth of the deepest member. -/
def membersDepth : List (Option String × Document) → Nat
  | [] => 0
  | (_, d) :: ms => max (depth d) (membersDepth ms)

end

mutual

/-- The canonical value of a document, if every leaf has one. Of members with one key the last
counts. -/
def toJson? : Document → Option Json
  | .null => some .null
  | .bool b => some (.bool b)
  | .number n => (n.filter Number.isCanonical).map .number
  | .string s => s.map .string
  | .array items => (itemsToJson? items).map .array
  | .object members => (membersToJson? members).map .object

/-- The values of the items. -/
def itemsToJson? : List Document → Option (List Json)
  | [] => some []
  | d :: ds => do
    let j ← toJson? d
    let js ← itemsToJson? ds
    return j :: js

/-- The members in ascending order of their keys. -/
def membersToJson? : List (Option String × Document) → Option (List (String × Json))
  | [] => some []
  | (key, d) :: ms => do
    let k ← key
    let j ← toJson? d
    let rest ← membersToJson? ms
    return if k ∈ rest.map Prod.fst then rest else SortedMap.insertList k j rest

end

mutual

theorem isCanonical_of_toJson? : ∀ {d : Document} {j : Json}, d.toJson? = some j →
    j.isCanonical = true
  | .null, j, h => by
    simp only [toJson?, Option.some.injEq] at h
    simp [← h, Json.isCanonical]
  | .bool b, j, h => by
    simp only [toJson?, Option.some.injEq] at h
    simp [← h, Json.isCanonical]
  | .number n, j, h => by
    simp only [toJson?, Option.map_eq_some_iff, Option.filter_eq_some_iff] at h
    obtain ⟨m, ⟨_, hm⟩, rfl⟩ := h
    simpa [Json.isCanonical] using hm
  | .string s, j, h => by
    simp only [toJson?, Option.map_eq_some_iff] at h
    obtain ⟨t, _, rfl⟩ := h
    simp [Json.isCanonical]
  | .array items, j, h => by
    simp only [toJson?, Option.map_eq_some_iff] at h
    obtain ⟨js, hjs, rfl⟩ := h
    simpa [Json.isCanonical] using areCanonical_of_itemsToJson? hjs
  | .object members, j, h => by
    simp only [toJson?, Option.map_eq_some_iff] at h
    obtain ⟨ms, hms, rfl⟩ := h
    simpa [Json.isCanonical] using membersCanonical_of_membersToJson? hms

theorem areCanonical_of_itemsToJson? : ∀ {ds : List Document} {js : List Json},
    itemsToJson? ds = some js → Json.areCanonical js = true
  | [], js, h => by
    simp only [itemsToJson?, Option.some.injEq] at h
    simp [← h, Json.areCanonical]
  | d :: ds, js, h => by
    simp only [itemsToJson?, Option.bind_eq_bind, Option.bind_eq_some_iff, Option.pure_def,
      Option.some.injEq] at h
    obtain ⟨j, hj, js', hjs, rfl⟩ := h
    simp [Json.areCanonical, isCanonical_of_toJson? hj, areCanonical_of_itemsToJson? hjs]

theorem membersCanonical_of_membersToJson? : ∀ {ms : List (Option String × Document)}
    {ns : List (String × Json)}, membersToJson? ms = some ns →
      (ns.map Prod.fst).Pairwise (· < ·) ∧ Json.membersCanonical ns = true
  | [], ns, h => by
    simp only [membersToJson?, Option.some.injEq] at h
    simp [← h, Json.membersCanonical]
  | (key, d) :: ms, ns, h => by
    simp only [membersToJson?, Option.bind_eq_bind, Option.bind_eq_some_iff, Option.pure_def,
      Option.some.injEq] at h
    obtain ⟨k, _, j, hj, rest, hrest, rfl⟩ := h
    have ih := membersCanonical_of_membersToJson? hrest
    split
    · exact ih
    · exact ⟨SortedMap.ascending_insertList ih.1,
        Json.membersCanonical_insertList (isCanonical_of_toJson? hj) ih.2⟩

end

/-- The canonical value of a document, if every leaf has one. -/
def toValue? (d : Document) : Option Json.Value :=
  match h : d.toJson? with
  | some j => some ⟨j, isCanonical_of_toJson? h⟩
  | none => none

end Document

namespace Json

mutual

/-- The document that says a value. -/
def toDocument : Json → Document
  | .null => .null
  | .bool b => .bool b
  | .number n => .number (some n)
  | .string s => .string (some s)
  | .array items => .array (itemsToDocuments items)
  | .object members => .object (membersToDocuments members)

/-- The documents of the items. -/
def itemsToDocuments : List Json → List Document
  | [] => []
  | j :: js => toDocument j :: itemsToDocuments js

/-- The documents of the members. -/
def membersToDocuments : List (String × Json) → List (Option String × Document)
  | [] => []
  | (k, j) :: ms => (some k, toDocument j) :: membersToDocuments ms

end

end Json
end HornReasoner
