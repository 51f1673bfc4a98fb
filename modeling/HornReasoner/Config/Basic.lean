/-
# Settings

The settings of a knowledge store bound its searches, and a threshold on each side
says which confidence is low. Every setting has a default.

Key definitions: `StoreConfig`, `ReasonerConfig`, `ConfigError`, `StoreConfig.validate`,
`ReasonerConfig.validate`.
-/
import HornReasoner.Decimal.Text

namespace HornReasoner

/-- Settings of a knowledge store. -/
structure StoreConfig where
  /-- Confidence below which a revision looks for related clauses. -/
  confidenceThreshold : Float := 0.7
  /-- How many rules a path of a proof may use. -/
  maxDepth : Nat := 64
  /-- How many answers a query gives at most. -/
  maxSolutions : Nat := 1024
  deriving DecidableEq

/-- Settings of a reasoner. -/
structure ReasonerConfig where
  /-- Confidence below which an answer is revised. -/
  confidenceThreshold : Float := 0.7
  store : StoreConfig := {}
  deriving DecidableEq

/-- The largest depth that a checked configuration may have. -/
def maxDepthLimit : Nat := 10000

/-- Why there is no configuration. -/
inductive ConfigError
  | unavailable
  | unreadable
  | thresholdOutOfRange (setting : String) (value : Float)
  | depthOutOfRange (value : Nat)
  | noSolutions
  deriving DecidableEq

/-- The error in words. -/
def ConfigError.message : ConfigError → String
  | unavailable => "failed to read config file"
  | unreadable => "failed to parse config"
  | thresholdOutOfRange setting value =>
    "invalid configuration: " ++ setting ++ " must be within [0, 1], got " ++ Decimal.positional value
  | depthOutOfRange value =>
    "invalid configuration: store.max_depth must be within [1, " ++ Decimal.digitsText maxDepthLimit ++
      "], got " ++ Decimal.digitsText value
  | noSolutions => "invalid configuration: store.max_solutions must be > 0"

/-- Refuses a threshold outside the unit interval. -/
def checkThreshold (setting : String) (value : Float) : Except ConfigError Unit :=
  if 0.0 ≤ value ∧ value ≤ 1.0 then .ok () else .error (.thresholdOutOfRange setting value)

/-- Refuses the first setting out of range: threshold, depth, number of solutions. -/
def StoreConfig.validate (c : StoreConfig) : Except ConfigError Unit := do
  checkThreshold "store.confidence_threshold" c.confidenceThreshold
  if c.maxDepth = 0 ∨ maxDepthLimit < c.maxDepth then throw (.depthOutOfRange c.maxDepth)
  if c.maxSolutions = 0 then throw .noSolutions

/-- Refuses the first setting out of range, the reasoner's own threshold first. -/
def ReasonerConfig.validate (c : ReasonerConfig) : Except ConfigError Unit := do
  checkThreshold "confidence_threshold" c.confidenceThreshold
  c.store.validate

end HornReasoner
