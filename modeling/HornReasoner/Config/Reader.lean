/-
# Reading settings

Settings are written in TOML. A threshold may be an integer, keys that are no
settings are ignored, and the settings of the store may also be given as an array
in their order, in which what follows the last is ignored. A date is a table
without settings.

Key definitions: `StoreConfig.ofToml?`, `ReasonerConfig.ofToml?`, `ReasonerConfig.read`,
`ReasonerConfig.ofFile`.
-/
import HornReasoner.Config.Basic
import HornReasoner.Toml.Reader

namespace HornReasoner

namespace Toml
namespace Value

/-- The fields of a record: by name in a table, by place in an array. -/
def fields? (names : List String) : Value → Option (List (String × Value))
  | .table members => some members
  | .array items => some (names.zip items)
  | .dateTime _ => some []
  | _ => none

/-- A float; an integer will do. -/
def float? : Value → Option Float
  | .float x => some x
  | .integer i => some (Float.ofInt i)
  | _ => none

/-- An integer that is not negative. -/
def nat? : Value → Option Nat
  | .integer i => if 0 ≤ i then some i.toNat else none
  | _ => none

/-- A field, or its default where it is missing. -/
def fieldOr? {α : Type} (fields : List (String × Value)) (name : String) (value : α)
    (decode : Value → Option α) : Option α :=
  match SortedMap.lookup name fields with
  | none => some value
  | some v => decode v

end Value
end Toml

/-- The settings of the store. -/
def StoreConfig.ofToml? (v : Toml.Value) : Option StoreConfig := do
  let fields ← v.fields? ["confidence_threshold", "max_depth", "max_solutions"]
  let base : StoreConfig := {}
  return ⟨← Toml.Value.fieldOr? fields "confidence_threshold" base.confidenceThreshold
      Toml.Value.float?,
    ← Toml.Value.fieldOr? fields "max_depth" base.maxDepth Toml.Value.nat?,
    ← Toml.Value.fieldOr? fields "max_solutions" base.maxSolutions Toml.Value.nat?⟩

namespace ReasonerConfig

/-- The settings in a table. -/
def ofToml? (members : List (String × Toml.Value)) : Option ReasonerConfig := do
  let base : ReasonerConfig := {}
  return ⟨← Toml.Value.fieldOr? members "confidence_threshold" base.confidenceThreshold
      Toml.Value.float?,
    ← Toml.Value.fieldOr? members "store" base.store StoreConfig.ofToml?⟩

/-- Reads and checks settings. -/
def read (text : String) : Except ConfigError ReasonerConfig :=
  match (Toml.read? text).bind ofToml? with
  | none => .error .unreadable
  | some c => do
    c.validate
    return c

/-- Reads and checks the settings in a file; its bytes must be UTF-8. -/
def ofFile (content : Option ByteArray) : Except ConfigError ReasonerConfig :=
  match content.bind String.fromUTF8? with
  | none => .error .unavailable
  | some text => read text

end ReasonerConfig
end HornReasoner
