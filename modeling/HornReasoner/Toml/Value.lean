/-
# TOML values and tables in the making

A text defines tables bit by bit: by a header, by a header below them, or by dotted
keys. How a table came about decides what may still be added to it, so a table in
the making remembers it. A table is defined by one header only; a table that merely
stands on the path to another may still get a header of its own; a table made by
dotted keys grows by dotted keys only.

Key definitions: `Toml.Value`, `Toml.Node`, `Toml.insertKey`, `Toml.openTable`,
`Toml.openItem`, `Toml.insertUnder`.
-/
import HornReasoner.Map.Sorted

namespace HornReasoner
namespace Toml

/-- A value. Dates and times are kept as written. -/
inductive Value
  | string (value : String)
  | integer (value : Int)
  | float (value : Float)
  | boolean (value : Bool)
  | dateTime (text : String)
  | array (items : List Value)
  | table (members : List (String × Value))

/-- How a table came about. -/
inductive Origin
  | header
  | passed
  | dotted
  deriving DecidableEq, Repr

/-- What stands under a key while a text is read. -/
inductive Node
  | value (value : Value)
  | table (origin : Origin) (members : List (String × Node))
  | items (tables : List (List (String × Node)))

/-- The members of a table in the making. -/
abbrev Members := List (String × Node)

/-- The node under a key. -/
def find? (key : String) (ms : Members) : Option Node :=
  SortedMap.lookup key ms

/-- Changes the node under a key that is there. -/
def replace (key : String) (node : Node) (ms : Members) : Members :=
  ms.map fun m => if m.1 = key then (key, node) else m

mutual

/-- The finished value of a node. -/
def Node.toValue : Node → Value
  | .value v => v
  | .table _ ms => .table (finish ms)
  | .items tables => .array (finishItems tables)

/-- The finished members of a table. -/
def finish : List (String × Node) → List (String × Value)
  | [] => []
  | (k, n) :: ms => (k, n.toValue) :: finish ms

/-- The finished tables of an array. -/
def finishItems : List (List (String × Node)) → List Value
  | [] => []
  | ms :: tables => .table (finish ms) :: finishItems tables

end

/-- Changes the last of several tables. -/
def changeLast? (f : Members → Option Members) : List Members → Option (List Members)
  | [] => none
  | [ms] => (f ms).map ([·])
  | ms :: tables => (changeLast? f tables).map (ms :: ·)

/-- Puts a value under a new key. -/
def putNew? (key : String) (v : Value) (ms : Members) : Option Members :=
  if (find? key ms).isSome then none else some (ms ++ [(key, .value v)])

/-- Puts a value under a dotted key. The tables on the way are made as needed and must not have a
header; the last of them must come from dotted keys. -/
def insertKey (path : List String) (key : String) (v : Value) (ms : Members) : Option Members :=
  match path with
  | [] => putNew? key v ms
  | p :: ps =>
    match find? p ms with
    | none => (insertKey ps key v []).map fun inner => ms ++ [(p, .table .dotted inner)]
    | some (.table origin inner) =>
      if origin = .header ∨ (ps = [] ∧ origin ≠ .dotted) then none
      else (insertKey ps key v inner).map fun inner => replace p (.table origin inner) ms
    | some (.items tables) =>
      if ps = [] then none
      else (changeLast? (insertKey ps key v) tables).map fun tables => replace p (.items tables) ms
    | some (.value _) => none

/-- Changes the table that a header's path leads to; of an array of tables, the last. Tables on the
way are made as needed. -/
def insertUnder (path : List String) (f : Members → Option Members) (ms : Members) :
    Option Members :=
  match path with
  | [] => f ms
  | p :: ps =>
    match find? p ms with
    | none => (insertUnder ps f []).map fun inner => ms ++ [(p, .table .passed inner)]
    | some (.table origin inner) =>
      (insertUnder ps f inner).map fun inner => replace p (.table origin inner) ms
    | some (.items tables) =>
      (changeLast? (insertUnder ps f) tables).map fun tables => replace p (.items tables) ms
    | some (.value _) => none

/-- Opens the table of a header. -/
def openTable (key : String) (ms : Members) : Option Members :=
  match find? key ms with
  | none => some (ms ++ [(key, .table .header [])])
  | some (.table .passed inner) => some (replace key (.table .header inner) ms)
  | some _ => none

/-- Opens one more table in the array of a header. -/
def openItem (key : String) (ms : Members) : Option Members :=
  match find? key ms with
  | none => some (ms ++ [(key, .items [[]])])
  | some (.items tables) => some (replace key (.items (tables ++ [[]])) ms)
  | some _ => none

end Toml
end HornReasoner
