/-
# What a change does to the world, and what queries see of it

A change whose names and label are not blank is made: an entity gets the attributes
given (`WorldGraph.exists_register`), and two entities get an edge
(`WorldGraph.exists_relate`). Two typed entities are linked as a whole
(`WorldGraph.exists_linked`). The queries see the edge of a pair and nothing else:
an entity has a class if the edge to it has a label that classifies
(`WorldGraph.mem_typesOf`), and a full pattern fits the edge with its label
(`WorldGraph.matching_ne_nil_iff`).

Key definition: `WorldGraph.typeOnly`.
Key theorems: `WorldGraph.exists_register`, `WorldGraph.exists_relate`, `WorldGraph.exists_linked`,
`WorldGraph.mem_typesOf`, `WorldGraph.matching_ne_nil_iff`.
-/
import HornReasoner.Proofs.Map.Entries
import HornReasoner.World.Graph

namespace HornReasoner
namespace WorldGraph

variable {g : WorldGraph}

/-! ### Changes -/

theorem exists_register {e : Entity} (h : Text.isBlankText e.name = false) :
    ∃ g', g.apply (.register e) = (.ok (), g') ∧ g'.entities = g.entities.insert e.name e.attributes ∧
      g'.edges = g.edges := by
  unfold apply register
  dsimp only
  rw [dif_neg (Bool.eq_false_iff.mp h)]
  exact ⟨_, rfl, rfl, rfl⟩

theorem exists_relate {r : Relationship} (hs : Text.isBlankText r.subject = false)
    (ho : Text.isBlankText r.object = false) (hp : Text.isBlankText r.predicate = false) :
    ∃ g', g.apply (.relate r) = (.ok (), g') ∧
      g'.entities = (g.entities.insertIfNew r.subject .empty).insertIfNew r.object .empty ∧
      g'.edges = g.edges.insert (r.subject, r.object) ⟨r.predicate, r.attributes⟩ := by
  unfold apply relate
  dsimp only
  rw [dif_neg (Bool.eq_false_iff.mp hs), dif_neg (Bool.eq_false_iff.mp ho),
    dif_neg (Bool.eq_false_iff.mp hp)]
  exact ⟨_, rfl, rfl, rfl⟩

theorem applyAll_cons {u : GraphUpdate} {us : List GraphUpdate} {g' : WorldGraph}
    (h : g.apply u = (.ok (), g')) : g.applyAll (u :: us) = g'.applyAll us := by
  rw [applyAll, h]

/-- The attributes of an entity of which only the type is known. -/
def typeOnly (kind : String) : Attributes :=
  .ofList [("type", .string kind)]

/-- Two typed entities and an edge between them are taken in together; the edge finds its ends there
and leaves them alone. -/
theorem exists_linked (g : WorldGraph) {a b label : String} (ka kb : String)
    (ha : Text.isBlankText a = false) (hb : Text.isBlankText b = false)
    (hlabel : Text.isBlankText label = false) :
    ∃ g', g.applyAll [.register (.typed a ka), .register (.typed b kb),
        .relate { subject := a, predicate := label, object := b }] = (.ok (), g') ∧
      g'.entities = g.entities.insertAll [(a, typeOnly ka), (b, typeOnly kb)] ∧
      g'.edges = g.edges.insertAll [((a, b), ⟨label, .empty⟩)] := by
  obtain ⟨g₁, h₁, hentities₁, hedges₁⟩ := exists_register (g := g) (e := .typed a ka) ha
  obtain ⟨g₂, h₂, hentities₂, hedges₂⟩ := exists_register (g := g₁) (e := .typed b kb) hb
  obtain ⟨g₃, h₃, hentities₃, hedges₃⟩ := exists_relate (g := g₂)
    (r := { subject := a, predicate := label, object := b }) ha hb hlabel
  have hboth : g₂.entities = g.entities.insertAll [(a, typeOnly ka), (b, typeOnly kb)] := by
    rw [hentities₂, hentities₁]
    rfl
  have hmema : a ∈ g₂.entities.keys := by
    rw [hentities₂, hentities₁, OrderedMap.mem_keys_insert, OrderedMap.mem_keys_insert]
    exact Or.inr (Or.inl rfl)
  have hmemb : b ∈ g₂.entities.keys := by
    rw [hentities₂, OrderedMap.mem_keys_insert]
    exact Or.inl rfl
  refine ⟨g₃, ?_, ?_, ?_⟩
  · rw [applyAll_cons h₁, applyAll_cons h₂, applyAll_cons h₃, applyAll]
  · rw [hentities₃, OrderedMap.insertIfNew_of_mem hmema, OrderedMap.insertIfNew_of_mem hmemb, hboth]
  · rw [hedges₃, hedges₂, hedges₁]
    rfl

/-! ### Queries -/

/-- A relationship stands for the edge of its pair. -/
theorem mem_relationships {r : Relationship} : r ∈ g.relationships ↔
    g.edges.get? (r.subject, r.object) = some ⟨r.predicate, r.attributes⟩ := by
  rw [OrderedMap.get?_eq_some_iff]
  constructor
  · intro h
    obtain ⟨e, he, rfl⟩ := List.mem_map.mp h
    exact he
  · intro h
    exact List.mem_map.mpr ⟨_, h, rfl⟩

/-- The labels that classify. -/
theorem isSome_ofLabel?_iff {s : String} :
    (TypePredicate.ofLabel? s).isSome = true ↔ s = "is_a" ∨ s = "type" := by
  rw [TypePredicate.ofLabel?, List.find?_isSome]
  constructor
  · rintro ⟨p, -, hp⟩
    cases p with
    | isA => exact Or.inl (beq_iff_eq.mp hp).symm
    | type => exact Or.inr (beq_iff_eq.mp hp).symm
  · rintro (rfl | rfl)
    · exact ⟨.isA, by decide, by decide⟩
    · exact ⟨.type, by decide, by decide⟩

/-- **The classes of an entity** are the ends of its edges that classify. -/
theorem mem_typesOf {name type : String} : type ∈ g.typesOf name ↔
    ∃ e, g.edges.get? (name, type) = some e ∧ (e.predicate = "is_a" ∨ e.predicate = "type") := by
  unfold typesOf classifications
  rw [SortedMap.mem_keys_ofList]
  simp only [List.map_map, List.mem_map, List.mem_filter, mem_relationships, isSome_ofLabel?_iff,
    beq_iff_eq, Function.comp_apply]
  constructor
  · rintro ⟨r, ⟨⟨hr, hlabel⟩, rfl⟩, rfl⟩
    exact ⟨_, hr, hlabel⟩
  · rintro ⟨e, he, hlabel⟩
    exact ⟨⟨name, e.predicate, type, e.attributes⟩, ⟨⟨he, hlabel⟩, rfl⟩, rfl⟩

/-- **A full pattern** fits the edge of its pair if that has its label. -/
theorem matching_ne_nil_iff {subject predicate object : String} :
    g.matching (some subject) (some predicate) (some object) ≠ [] ↔
      ∃ e, g.edges.get? (subject, object) = some e ∧ e.predicate = predicate := by
  unfold matching
  rw [ne_eq, List.filter_eq_nil_iff]
  simp only [fits, Bool.and_eq_true, beq_iff_eq, mem_relationships, not_forall, not_not,
    exists_prop]
  constructor
  · rintro ⟨r, hr, ⟨rfl, rfl⟩, rfl⟩
    exact ⟨_, hr, rfl⟩
  · rintro ⟨e, he, rfl⟩
    exact ⟨⟨subject, e.predicate, object, e.attributes⟩, he, ⟨rfl, rfl⟩, rfl⟩

end WorldGraph
end HornReasoner
