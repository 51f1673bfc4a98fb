/-
# Confidences and responses in JSON

Bands are words; statistics, histories, revisions and responses are records.

Key definitions: `ConfidenceStats.toJson`, `ConfidenceHistory.toJson`,
`RevisionRecord.toJson`, `RevisionLog.toJson`, `Response.toJson` and their readers.
-/
import HornReasoner.Confidence.Evaluator
import HornReasoner.Dialogue.Response
import HornReasoner.Interchange.Logic

namespace HornReasoner

namespace ConfidenceBand

/-- The JSON form. -/
def toJson (b : ConfidenceBand) : Json :=
  .string b.label

/-- Reads the JSON form. -/
def ofDocument? : Document → Option ConfidenceBand :=
  Document.word? label all

end ConfidenceBand

namespace ConfidenceStats

/-- The JSON form. -/
def toJson (s : ConfidenceStats) : Json :=
  .object [("mean", .float s.mean), ("median", .float s.median), ("min", .float s.min),
    ("max", .float s.max), ("std", .float s.std)]

/-- Reads the JSON form. -/
def ofDocument? (d : Document) : Option ConfidenceStats := do
  let r ← d.record? ["mean", "median", "min", "max", "std"]
  return ⟨← r.field? "mean" Document.float?, ← r.field? "median" Document.float?,
    ← r.field? "min" Document.float?, ← r.field? "max" Document.float?,
    ← r.field? "std" Document.float?⟩

end ConfidenceStats

namespace ConfidenceHistory

/-- The JSON form. -/
def toJson (h : ConfidenceHistory) : Json :=
  .object [("scores", .list .float h.scores)]

/-- Reads the JSON form. -/
def ofDocument? (d : Document) : Option ConfidenceHistory := do
  let r ← d.record? ["scores"]
  return ⟨← r.field? "scores" (Document.list? Document.float?)⟩

end ConfidenceHistory

namespace Revision

/-- The JSON form. -/
def toJson (r : Revision) : Json :=
  .object [("truth", .bool r.truth), ("confidence", .float r.confidence),
    ("explanation", .string r.explanation)]

/-- Reads the JSON form. -/
def ofDocument? (d : Document) : Option Revision := do
  let r ← d.record? ["truth", "confidence", "explanation"]
  return ⟨← r.field? "truth" Document.bool?, ← r.field? "confidence" Document.float?,
    ← r.field? "explanation" Document.text?⟩

end Revision

namespace RevisionRecord

/-- The JSON form. -/
def toJson (r : RevisionRecord) : Json :=
  .object [("id", r.id.toJson), ("original_confidence", .float r.initial),
    ("query", .string r.query), ("revised_confidence", .optional .float r.revised),
    ("successful", .optional .bool r.successful)]

/-- Reads the JSON form. -/
def ofDocument? (d : Document) : Option RevisionRecord := do
  let r ← d.record? ["id", "original_confidence", "query", "revised_confidence", "successful"]
  return ⟨← r.field? "id" Uuid.ofDocument?, ← r.field? "original_confidence" Document.float?,
    ← r.field? "query" Document.text?, ← r.optionalField? "revised_confidence" Document.float?,
    ← r.optionalField? "successful" Document.bool?⟩

end RevisionRecord

namespace RevisionStats

/-- The JSON form. -/
def toJson (s : RevisionStats) : Json :=
  .object [("total_revisions", .nat s.total), ("successful_revisions", .nat s.successful),
    ("success_rate", .float s.successRate),
    ("average_confidence_improvement", .float s.averageImprovement)]

/-- Reads the JSON form. -/
def ofDocument? (d : Document) : Option RevisionStats := do
  let r ← d.record? ["total_revisions", "successful_revisions", "success_rate",
    "average_confidence_improvement"]
  return ⟨← r.field? "total_revisions" Document.nat?, ← r.field? "successful_revisions" Document.nat?,
    ← r.field? "success_rate" Document.float?,
    ← r.field? "average_confidence_improvement" Document.float?⟩

end RevisionStats

namespace RevisionLog

/-- The JSON form. -/
def toJson (log : RevisionLog) : Json :=
  .object [("records", .list RevisionRecord.toJson log.records)]

/-- Reads the JSON form. -/
def ofDocument? (d : Document) : Option RevisionLog := do
  let r ← d.record? ["records"]
  return ⟨← r.field? "records" (Document.list? RevisionRecord.ofDocument?)⟩

end RevisionLog

namespace Response

/-- The JSON form. -/
def toJson (r : Response) : Json :=
  .object [("answer", .string r.answer), ("confidence", .float r.confidence),
    ("explanation", .string r.explanation),
    ("confidence_explanation", .string r.confidenceExplanation)]

/-- Reads the JSON form. -/
def ofDocument? (d : Document) : Option Response := do
  let r ← d.record? ["answer", "confidence", "explanation", "confidence_explanation"]
  return ⟨← r.field? "answer" Document.text?, ← r.field? "confidence" Document.float?,
    ← r.field? "explanation" Document.text?, ← r.field? "confidence_explanation" Document.text?⟩

end Response

namespace KnowledgeUpdate

/-- The JSON form. -/
def toJson (u : KnowledgeUpdate) : Json :=
  .object [("success", .bool u.success), ("message", .string u.message)]

/-- Reads the JSON form. -/
def ofDocument? (d : Document) : Option KnowledgeUpdate := do
  let r ← d.record? ["success", "message"]
  return ⟨← r.field? "success" Document.bool?, ← r.field? "message" Document.text?⟩

end KnowledgeUpdate
end HornReasoner
