/-
# A world and its text

The text of a world is its snapshot in JSON. The records of the snapshot are read back
field by field, and their attributes as long as the whole text nests no deeper than the
reader allows (`GraphSnapshot.ofDocument?_toJson`). With the reader's share of the way,
from the text to its document, a snapshot is read back from its text
(`GraphSnapshot.read?_text`), and a world is rebuilt from its own
(`WorldGraph.text_read_back`): nothing is refused, dropped or moved, and the new world has the
same text.

Key theorems: `GraphSnapshot.ofDocument?_toJson`, `GraphSnapshot.read?_text`,
`WorldGraph.text_read_back`.
-/
import HornReasoner.Interchange.World
import HornReasoner.Proofs.Json.Decoding
import HornReasoner.Proofs.World.Snapshot

namespace HornReasoner

open Json (toValue?_toDocument)

/-! ### Records -/

/-- Attributes are read back unless they stand too deep. -/
theorem Attributes.ofDocument?_toJson {a : Attributes} {outer : Nat}
    (hdepth : outer + a.toJson.toDocument.depth ≤ maxNesting) :
    ofDocument? outer a.toJson.toDocument = some a := by
  rw [ofDocument?, if_pos hdepth]
  exact Document.map?_toDocument fun e _ => toValue?_toDocument e.2

theorem Relationship.depth_toJson (r : Relationship) :
    r.toJson.toDocument.depth = (Attributes.toJson r.attributes).toDocument.depth + 1 := by
  simp [toJson, Json.toDocument, Json.membersToDocuments, Document.depth, Document.membersDepth]

theorem Relationship.ofDocument?_toJson {r : Relationship} {outer : Nat}
    (hdepth : outer + r.toJson.toDocument.depth ≤ maxNesting) :
    ofDocument? outer r.toJson.toDocument = some r := by
  rw [depth_toJson] at hdepth
  have hattributes : Attributes.ofDocument? (outer + 1) (Attributes.toJson r.attributes).toDocument =
      some r.attributes := Attributes.ofDocument?_toJson (by omega)
  have hrecord : r.toJson.toDocument.record? ["subject", "predicate", "object", "attributes"] = _ :=
    Document.record?_fields [("subject", .string (some r.subject)), ("predicate", .string (some r.predicate)),
      ("object", .string (some r.object)), ("attributes", (Attributes.toJson r.attributes).toDocument)]
      (by simp) (by simp)
  rw [ofDocument?, hrecord]
  simp [Record.field?, Record.fieldOr?, Record.find?, SortedMap.lookup, Document.text?, hattributes]

theorem GraphSnapshot.depth_toJson (s : GraphSnapshot) : s.toJson.toDocument.depth =
    max (Json.map Attributes.toJson s.entities).toDocument.depth
      (Json.list Relationship.toJson s.relationships).toDocument.depth + 1 := by
  simp [toJson, Json.toDocument, Json.membersToDocuments, Document.depth, Document.membersDepth]

/-- **A snapshot is what its document says**, unless attributes stand too deep. -/
theorem GraphSnapshot.ofDocument?_toJson {s : GraphSnapshot}
    (hdepth : s.toJson.toDocument.depth ≤ maxNesting) : ofDocument? s.toJson.toDocument = some s := by
  rw [depth_toJson] at hdepth
  have hentities : (Json.map Attributes.toJson s.entities).toDocument.map? (Attributes.ofDocument? 2) =
      some s.entities := by
    refine Document.map?_toDocument fun e he => Attributes.ofDocument?_toJson ?_
    have hlt := Document.depth_lt_map (f := Attributes.toJson) he
    omega
  have hrelationships : (Json.list Relationship.toJson s.relationships).toDocument.list?
      (Relationship.ofDocument? 2) = some s.relationships := by
    refine Document.list?_toDocument fun r hr => Relationship.ofDocument?_toJson ?_
    have hlt := Document.depth_lt_list (f := Relationship.toJson) hr
    omega
  have hrecord : s.toJson.toDocument.record? ["entities", "relationships"] = _ :=
    Document.record?_fields [("entities", (Json.map Attributes.toJson s.entities).toDocument),
      ("relationships", (Json.list Relationship.toJson s.relationships).toDocument)] (by simp) (by simp)
  rw [ofDocument?, hrecord]
  simp [Record.field?, Record.find?, SortedMap.lookup, hentities, hrelationships]

/-! ### Numbers -/

theorem Attributes.isCanonical_of_mem_numbers {a : Attributes} {n : Number}
    (hn : n ∈ a.toJson.numbers) : n.isCanonical = true := by
  obtain ⟨e, -, hn⟩ := Json.mem_numbers_map.mp hn
  exact Json.isCanonical_of_mem_numbers e.2.canonical n hn

/-- The numbers of a snapshot stand in attributes, and so a document can hold them. -/
theorem GraphSnapshot.isCanonical_of_mem_numbers {s : GraphSnapshot} {n : Number}
    (hn : n ∈ s.toJson.numbers) : n.isCanonical = true := by
  have hparts : n ∈ (Json.map Attributes.toJson s.entities).numbers ∨
      n ∈ (Json.list Relationship.toJson s.relationships).numbers := by
    simpa [toJson, Json.numbers, Json.membersNumbers] using hn
  rcases hparts with hn | hn
  · obtain ⟨e, -, hn⟩ := Json.mem_numbers_map.mp hn
    exact Attributes.isCanonical_of_mem_numbers hn
  · obtain ⟨r, -, hn⟩ := Json.mem_numbers_list.mp hn
    have hattributes : n ∈ (Attributes.toJson r.attributes).numbers := by
      simpa [Relationship.toJson, Json.numbers, Json.membersNumbers] using hn
    exact Attributes.isCanonical_of_mem_numbers hattributes

/-! ### Texts -/

/-- **A snapshot is read back from its text.** -/
theorem GraphSnapshot.read?_text {s : GraphSnapshot} (hdepth : s.toJson.toDocument.depth ≤ maxNesting)
    (hfloats : ∀ x, .float x ∈ s.toJson.numbers → Decimal.ReadsBack x) : read? s.text = some s := by
  have hnumbers := Json.readsBack_numbers (fun n hn => isCanonical_of_mem_numbers hn) hfloats
  rw [read?, text, Document.read?_pretty hnumbers, Option.bind_some, ofDocument?_toJson hdepth]

namespace WorldGraph

/-- **A world is read back from its text**, if this nests no deeper than the reader allows and the
digits of each float in it are read as this float. The world that is read has the same snapshot, which
keeps integers and floats apart, and the same text. -/
theorem text_read_back (g : WorldGraph) (hdepth : g.toSnapshot.toJson.toDocument.depth ≤ maxNesting)
    (hfloats : ∀ x, .float x ∈ g.toSnapshot.toJson.numbers → Decimal.ReadsBack x) :
    ∃ h, read g.text = .ok h ∧ h.toSnapshot = g.toSnapshot ∧
      h.toSnapshot.same g.toSnapshot = true ∧ h.text = g.text := by
  obtain ⟨h, hbuilt, hentities, hedges⟩ := g.exists_ofSnapshot
  have hsnapshot := toSnapshot_eq_of hentities hedges
  refine ⟨h, ?_, hsnapshot, hsnapshot ▸ GraphSnapshot.same_self _, congrArg GraphSnapshot.text hsnapshot⟩
  rw [read, text, GraphSnapshot.read?_text hdepth hfloats]
  dsimp only
  rw [hbuilt]
  rfl

/-- A relationship under names with a quote, a line end and a control character, and an attribute that
holds an integer, a float of the same value and empty containers. -/
def quotedWorld : WorldGraph :=
  (empty.applyAll [.relate ⟨"say \"Ω\"", "wrote\n", "\x01\\", .ofList [("κ",
    ⟨.array [.number (.int 5), .number (.float 5.0), .array [], .object []], by decide +kernel⟩)]⟩]).2

theorem quotedWorld_read : ∃ h, read quotedWorld.text = .ok h ∧ h.toSnapshot = quotedWorld.toSnapshot ∧
    h.toSnapshot.same quotedWorld.toSnapshot = true ∧ h.text = quotedWorld.text := by
  have hnumbers : quotedWorld.toSnapshot.toJson.numbers = [.int 5, .float 5.0] := by decide +kernel
  have hfloat : Decimal.ReadsBack 5.0 := by
    unfold Decimal.ReadsBack
    decide +kernel
  refine text_read_back quotedWorld (by decide +kernel) fun x hx => ?_
  rw [hnumbers] at hx
  simp only [List.mem_cons, reduceCtorEq, Number.float.injEq, List.not_mem_nil, or_false, false_or] at hx
  exact hx ▸ hfloat

end WorldGraph
end HornReasoner
