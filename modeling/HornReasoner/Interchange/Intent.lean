/-
# Intents in JSON

An intent is tagged: its `type` says which it is, and the other members are its
fields. A question inside an intent is tagged once more by its `kind`, so that both
tags and the fields stand in one object. Either may also be an array that starts
with its tags and goes on with exactly its fields. Since the tag may come last,
every member must have a value, also one that is ignored. Inside an intent a kind
may be given by its number.

Key definitions: `Intent.toJson`, `Intent.ofDocument?`, `Question.toJson`,
`Question.ofDocument?`.
-/
import HornReasoner.Dialogue.Intent
import HornReasoner.Interchange.World

namespace HornReasoner

/-- A tag taken out of a document, and what is left. -/
structure Tagged where
  tag : Document
  content : Document

namespace Document

/-- Takes the member with the tag's name out of an object, or the first item out of an array. The
tag may not stand twice. -/
def tagged? (name : String) : Document → Option Tagged
  | .object members => do
    let isTag (m : Option String × Document) : Bool := m.1 == some name
    match members.filter isTag with
    | [(_, tag)] => some ⟨tag, .object (members.filter fun m => !isTag m)⟩
    | _ => none
  | .array (tag :: items) => some ⟨tag, .array items⟩
  | _ => none

/-- Every leaf has a value, and nothing stands too deep. -/
def isPlain (d : Document) : Bool :=
  d.toJson?.isSome && decide (d.depth ≤ maxNesting)

/-- The record with the given fields, all of which must be there. -/
def fields? (names : List String) (d : Document) : Option (List String) := do
  let r ← d.record? names
  names.mapM fun n => r.field? n text?

end Document

namespace Question

/-- The members of the JSON form. -/
def members : Question → List (String × Json)
  | yesNo subject predicate =>
    [("kind", .string "yes_no"), ("subject", .string subject), ("predicate", .string predicate)]
  | who predicate => [("kind", .string "who"), ("predicate", .string predicate)]
  | what subject => [("kind", .string "what"), ("subject", .string subject)]

/-- The JSON form. -/
def toJson (q : Question) : Json :=
  .object q.members

/-- Reads the fields of a kind. -/
def ofKind? (kind : String) (d : Document) : Option Question :=
  match kind with
  | "yes_no" => do
    match ← d.fields? ["subject", "predicate"] with
    | [subject, predicate] => some (yesNo subject predicate)
    | _ => none
  | "who" => do
    match ← d.fields? ["predicate"] with
    | [predicate] => some (who predicate)
    | _ => none
  | "what" => do
    match ← d.fields? ["subject"] with
    | [subject] => some (what subject)
    | _ => none
  | _ => none

/-- The kind that a number stands for. -/
def kindOfNumber? : Document → Option String
  | .number (some (.int 0)) => some "yes_no"
  | .number (some (.int 1)) => some "who"
  | .number (some (.int 2)) => some "what"
  | _ => none

/-- Reads a question that is tagged by the word or number of its kind. -/
def ofTagged? (numbered : Bool) (d : Document) : Option Question := do
  let t ← d.tagged? "kind"
  let kind ← t.tag.text? <|> (if numbered then kindOfNumber? t.tag else none)
  ofKind? kind t.content

/-- Reads the JSON form. -/
def ofDocument? (d : Document) : Option Question :=
  if d.isPlain then ofTagged? false d else none

end Question

namespace Intent

/-- The JSON form. -/
def toJson : Intent → Json
  | fact subject predicate =>
    .object [("type", .string "fact"), ("subject", .string subject), ("predicate", .string predicate)]
  | relation subject verb object =>
    .object [("type", .string "relation"), ("subject", .string subject), ("verb", .string verb),
      ("object", .string object)]
  | question q => .object (("type", .string "question") :: q.members)
  | unknown text => .object [("type", .string "unknown"), ("text", .string text)]

/-- Reads the fields of a type. -/
def ofType? (type : String) (d : Document) : Option Intent :=
  match type with
  | "fact" => do
    match ← d.fields? ["subject", "predicate"] with
    | [subject, predicate] => some (fact subject predicate)
    | _ => none
  | "relation" => do
    match ← d.fields? ["subject", "verb", "object"] with
    | [subject, verb, object] => some (relation subject verb object)
    | _ => none
  | "question" => (Question.ofTagged? true d).map question
  | "unknown" => do
    match ← d.fields? ["text"] with
    | [text] => some (unknown text)
    | _ => none
  | _ => none

/-- Reads the JSON form. -/
def ofDocument? (d : Document) : Option Intent := do
  if !d.isPlain then none
  let t ← d.tagged? "type"
  ofType? (← t.tag.text?) t.content

end Intent
end HornReasoner
