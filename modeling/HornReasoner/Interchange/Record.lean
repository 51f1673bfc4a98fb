/-
# Records in documents

A record is an object with a member for each field, in any order, or an array of
its fields in their order. In an object a field may not stand twice, and a member
that is no field is ignored. In an array nothing may follow the last field.

A field with a default may be missing in both forms. An optional field may be
missing in an object only, and null stands for its absence.

Key definitions: `Record`, `Document.record?`, `Record.field?`, `Record.fieldOr?`,
`Record.optionalField?`.
-/
import HornReasoner.Json.Document

namespace HornReasoner

/-- The fields of a record that a document gives. -/
structure Record where
  /-- The fields stand in their order, without names. -/
  positional : Bool
  fields : List (String × Document)

namespace Record

/-- The document of a field. -/
def find? (r : Record) (name : String) : Option Document :=
  SortedMap.lookup name r.fields

/-- A field that must be there. -/
def field? {α : Type} (r : Record) (name : String) (decode : Document → Option α) : Option α :=
  (r.find? name).bind decode

/-- A field with a default. -/
def fieldOr? {α : Type} (r : Record) (name : String) (value : α) (decode : Document → Option α) :
    Option α :=
  match r.find? name with
  | none => some value
  | some d => decode d

/-- A field that may be absent. -/
def optionalField? {α : Type} (r : Record) (name : String) (decode : Document → Option α) :
    Option (Option α) :=
  match r.find? name with
  | none => if r.positional then none else some none
  | some .null => some none
  | some d => (decode d).map some

end Record

namespace Document

/-- The members of an object that are fields; none if a key has no value or a field stands twice. -/
def knownMembers? (names : List String) :
    List (Option String × Document) → Option (List (String × Document))
  | [] => some []
  | (key, d) :: ms => do
    let k ← key
    let rest ← knownMembers? names ms
    if !names.contains k then return rest
    else if rest.any (·.1 == k) then none
    else return (k, d) :: rest

/-- The record with the given fields that a document gives. -/
def record? (names : List String) : Document → Option Record
  | .object members => (knownMembers? names members).map (⟨false, ·⟩)
  | .array items => if names.length < items.length then none else some ⟨true, names.zip items⟩
  | _ => none

/-- A text. -/
def text? : Document → Option String
  | .string s => s
  | _ => none

/-- A truth value. -/
def bool? : Document → Option Bool
  | .bool b => some b
  | _ => none

/-- A float; an integer will do. -/
def float? : Document → Option Float
  | .number (some (.float x)) => some x
  | .number (some (.int i)) => some (Float.ofInt i)
  | _ => none

/-- A natural number below `2 ^ 64`. -/
def nat? : Document → Option Nat
  | .number (some (.int i)) => if 0 ≤ i ∧ i < Int.pow 2 64 then some i.toNat else none
  | _ => none

/-- A list of values. -/
def list? {α : Type} (decode : Document → Option α) : Document → Option (List α)
  | .array items => items.mapM decode
  | _ => none

/-- A map of values; of two members with one key the last counts. -/
def map? {α : Type} (decode : Document → Option α) : Document → Option (SortedMap α)
  | .object members =>
    (members.mapM fun (m : Option String × Document) => do
      return (← m.1, ← decode m.2)).map SortedMap.ofList
  | _ => none

/-- One of several words, alone or as the only key of an object over null. -/
def word? {α : Type} (label : α → String) (all : List α) : Document → Option α
  | .string (some s) => all.find? fun a => label a == s
  | .object [(some s, .null)] => all.find? fun a => label a == s
  | _ => none

end Document
end HornReasoner
