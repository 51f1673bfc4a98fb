/-
# Settings in JSON

Every setting may be missing, and then has its default. Ranges are not checked on
reading.

Key definitions: `StoreConfig.toJson`, `StoreConfig.ofDocument?`, `ReasonerConfig.toJson`,
`ReasonerConfig.ofDocument?`.
-/
import HornReasoner.Config.Basic
import HornReasoner.Interchange.Record

namespace HornReasoner

namespace StoreConfig

/-- The JSON form. -/
def toJson (c : StoreConfig) : Json :=
  .object [("confidence_threshold", .float c.confidenceThreshold), ("max_depth", .nat c.maxDepth),
    ("max_solutions", .nat c.maxSolutions)]

/-- Reads the JSON form. -/
def ofDocument? (d : Document) : Option StoreConfig := do
  let r ← d.record? ["confidence_threshold", "max_depth", "max_solutions"]
  let base : StoreConfig := {}
  return ⟨← r.fieldOr? "confidence_threshold" base.confidenceThreshold Document.float?,
    ← r.fieldOr? "max_depth" base.maxDepth Document.nat?,
    ← r.fieldOr? "max_solutions" base.maxSolutions Document.nat?⟩

end StoreConfig

namespace ReasonerConfig

/-- The JSON form. -/
def toJson (c : ReasonerConfig) : Json :=
  .object [("confidence_threshold", .float c.confidenceThreshold), ("store", c.store.toJson)]

/-- Reads the JSON form. -/
def ofDocument? (d : Document) : Option ReasonerConfig := do
  let r ← d.record? ["confidence_threshold", "store"]
  let base : ReasonerConfig := {}
  return ⟨← r.fieldOr? "confidence_threshold" base.confidenceThreshold Document.float?,
    ← r.fieldOr? "store" base.store StoreConfig.ofDocument?⟩

end ReasonerConfig
end HornReasoner
