/-
# A world and its snapshot

A snapshot lists what a world holds, and the changes it stands for build that again.
Registering the entities is accepted as no name is blank, and writes them one after
another (`WorldGraph.exists_registerAll`); relating is accepted as both ends of each
edge are entities by then and no label is blank, and it adds edges only
(`WorldGraph.exists_relateAll`). No key stands twice in either row, so nothing is
dropped and nothing changes its place.

The snapshot has the entities in ascending order, and so has the world that is
rebuilt. What can be asked of single entities, of edges and of classes does not depend
on that order (`WorldGraph.answersLike_of`), and so a world and the one rebuilt from its
snapshot answer alike (`WorldGraph.rebuilt_answersLike`).

Key definition: `WorldGraph.AnswersLike`.
Key theorems: `WorldGraph.exists_ofSnapshot`, `GraphSnapshot.same_self`,
`WorldGraph.rebuilt_answersLike`.
-/
import HornReasoner.Proofs.Json.Equality
import HornReasoner.Proofs.World.Graph
import HornReasoner.World.Snapshot

namespace HornReasoner

/-! ### Snapshots equal themselves -/

theorem Attributes.sameList_self : ∀ (es : List (String × Json.Value)), sameList es es = true
  | [] => rfl
  | (k, v) :: es => by
    refine Bool.and_eq_true_iff.mpr ⟨Bool.and_eq_true_iff.mpr ⟨beq_self_eq_true k, ?_⟩, ?_⟩
    · exact v.same_self
    · exact sameList_self es

theorem Attributes.same_self (a : Attributes) : a.same a = true :=
  sameList_self a.toList

theorem Relationship.same_self (r : Relationship) : r.same r = true := by
  simp [same, r.attributes.same_self]

/-- A row is equal to itself item by item if each item is. -/
theorem all_zip_self {α : Type} {f : α × α → Bool} (hf : ∀ a, f (a, a) = true) :
    ∀ (l : List α), (l.zip l).all f = true
  | [] => rfl
  | a :: l => by rw [List.zip_cons_cons, List.all_cons, hf, all_zip_self hf l, Bool.and_self]

theorem GraphSnapshot.same_self (s : GraphSnapshot) : s.same s = true := by
  have hentities : (s.entities.toList.zip s.entities.toList).all (fun p =>
      p.1.1 == p.2.1 && Attributes.same p.1.2 p.2.2) = true :=
    all_zip_self (fun e => by simp [Attributes.same_self]) _
  have hrelationships : (s.relationships.zip s.relationships).all (fun p => p.1.same p.2) = true :=
    all_zip_self (fun r => r.same_self) _
  rw [same, hentities, hrelationships, beq_self_eq_true, beq_self_eq_true]
  rfl

namespace WorldGraph

variable {g h : WorldGraph}

/-! ### Rows of changes -/

theorem applyAll_append {us vs : List GraphUpdate} (hus : g.applyAll us = (.ok (), h)) :
    g.applyAll (us ++ vs) = h.applyAll vs := by
  induction us generalizing g with
  | nil =>
    cases hus
    rfl
  | cons u us ih =>
    unfold applyAll at hus
    split at hus
    · next g' hu => rw [List.cons_append, applyAll_cons hu, ih hus]
    · cases hus

/-- Entities whose names are not blank are registered one after another. -/
theorem exists_registerAll (es : List (String × Attributes))
    (hnamed : ∀ e ∈ es, Text.isBlankText e.1 = false) (g : WorldGraph) :
    ∃ h, g.applyAll (es.map fun e => .register ⟨e.1, e.2⟩) = (.ok (), h) ∧
      h.entities = g.entities.insertAll es ∧ h.edges = g.edges := by
  induction es generalizing g with
  | nil => exact ⟨g, rfl, rfl, rfl⟩
  | cons e es ih =>
    obtain ⟨hname, hnamed⟩ := List.forall_mem_cons.mp hnamed
    obtain ⟨g₁, hfirst, hentities₁, hedges₁⟩ := exists_register (g := g) (e := ⟨e.1, e.2⟩) hname
    obtain ⟨h, hrest, hentities, hedges⟩ := ih hnamed g₁
    refine ⟨h, ?_, ?_, hedges.trans hedges₁⟩
    · rw [List.map_cons, applyAll_cons hfirst, hrest]
    · rw [hentities, hentities₁]
      rfl

/-- Edges whose ends are entities and whose labels are not blank are added one after another, and no
entity changes. -/
theorem exists_relateAll (es : List ((String × String) × Edge)) (g : WorldGraph)
    (hends : ∀ e ∈ es, e.1.1 ∈ g.entities.keys ∧ e.1.2 ∈ g.entities.keys)
    (hlabels : ∀ e ∈ es, Text.isBlankText e.2.predicate = false) :
    ∃ h, g.applyAll ((es.map relationshipOf).map .relate) = (.ok (), h) ∧
      h.entities = g.entities ∧ h.edges = g.edges.insertAll es := by
  induction es generalizing g with
  | nil => exact ⟨g, rfl, rfl, rfl⟩
  | cons e es ih =>
    obtain ⟨⟨hsubject, hobject⟩, hends⟩ := List.forall_mem_cons.mp hends
    obtain ⟨hlabel, hlabels⟩ := List.forall_mem_cons.mp hlabels
    obtain ⟨g₁, hfirst, hentities₁, hedges₁⟩ := exists_relate (g := g) (r := relationshipOf e)
      (g.named _ hsubject) (g.named _ hobject) hlabel
    have hkept : g₁.entities = g.entities := by
      rw [hentities₁]
      have hs : g.entities.insertIfNew (relationshipOf e).subject .empty = g.entities :=
        OrderedMap.insertIfNew_of_mem hsubject
      rw [hs]
      exact OrderedMap.insertIfNew_of_mem hobject
    obtain ⟨h, hrest, hentities, hedges⟩ := ih g₁ (by rwa [hkept]) hlabels
    refine ⟨h, ?_, hentities.trans hkept, ?_⟩
    · rw [List.map_cons, List.map_cons, applyAll_cons hfirst, hrest]
    · rw [hedges, hedges₁]
      rfl

/-! ### Rebuilding -/

/-- The entities of a snapshot are those of the world, each once. -/
theorem perm_toSnapshot (g : WorldGraph) : g.toSnapshot.entities.toList.Perm g.entities.toList :=
  SortedMap.perm_ofList g.entities.nodup

/-- **A snapshot is accepted**, and the world built from it has the entities of the snapshot and the
edges of the world that it shows. -/
theorem exists_ofSnapshot (g : WorldGraph) : ∃ h, ofSnapshot g.toSnapshot = .ok h ∧
    h.entities.toList = g.toSnapshot.entities.toList ∧ h.edges = g.edges := by
  have hnodup := g.toSnapshot.entities.nodup
  have hnamed : ∀ e ∈ g.toSnapshot.entities.toList, Text.isBlankText e.1 = false := fun e he =>
    g.named _ (List.mem_map.mpr ⟨e, g.perm_toSnapshot.mem_iff.mp he, rfl⟩)
  obtain ⟨g₁, hregistered, hentities₁, hedges₁⟩ :=
    exists_registerAll g.toSnapshot.entities.toList hnamed empty
  have hlist : g₁.entities.toList = g.toSnapshot.entities.toList := by
    rw [hentities₁]
    exact OrderedMap.toList_ofList hnodup
  have hkeys : ∀ n, n ∈ g.entities.keys ↔ n ∈ g₁.entities.keys := fun n => by
    rw [OrderedMap.keys, OrderedMap.keys, hlist]
    exact (g.perm_toSnapshot.map Prod.fst).mem_iff.symm
  -- the ends of each edge are entities by now
  have hends : ∀ e ∈ g.edges.toList, e.1.1 ∈ g₁.entities.keys ∧ e.1.2 ∈ g₁.entities.keys := by
    intro e he
    obtain ⟨hsubject, hobject⟩ := g.linked e.1 (List.mem_map.mpr ⟨e, he, rfl⟩)
    exact ⟨(hkeys _).mp hsubject, (hkeys _).mp hobject⟩
  obtain ⟨h, hrelated, hentities, hedges⟩ := exists_relateAll g.edges.toList g₁ hends g.labelled
  refine ⟨h, ?_, by rw [hentities, hlist], ?_⟩
  · have hall : empty.applyAll g.toSnapshot.updates = (.ok (), h) :=
      (applyAll_append hregistered).trans hrelated
    rw [ofSnapshot, hall]
  · rw [hedges, hedges₁]
    exact OrderedMap.ofList_toList g.edges

/-- A world with the entities of a snapshot in their order, and with the edges of the world that it shows,
has this snapshot. -/
theorem toSnapshot_eq_of (hentities : h.entities.toList = g.toSnapshot.entities.toList)
    (hedges : h.edges = g.edges) : h.toSnapshot = g.toSnapshot := by
  have hsame : h.toSnapshot.entities = g.toSnapshot.entities := by
    show SortedMap.ofList h.entities.toList = _
    rw [hentities, SortedMap.ofList_toList]
  have hrelationships : h.relationships = g.relationships := by
    rw [WorldGraph.relationships, WorldGraph.relationships, hedges]
  exact congrArg₂ GraphSnapshot.mk hsame hrelationships

/-- Two worlds have the same relationships in the same order, and give the same answers to whatever is
asked of an entity, of an edge or of a class. -/
structure AnswersLike (h g : WorldGraph) : Prop where
  relationships : h.relationships = g.relationships
  relationshipsOf (name : String) : h.relationshipsOf name = g.relationshipsOf name
  matching (subject predicate object : Option String) :
    h.matching subject predicate object = g.matching subject predicate object
  typesOf (name : String) : h.typesOf name = g.typesOf name
  ofType (type : String) : h.ofType type = g.ofType type
  has (name : String) : h.has name = g.has name
  attributes? (name : String) : h.attributes? name = g.attributes? name

/-- The order of entities is not seen in these answers. -/
theorem answersLike_of (hentities : h.entities.toList.Perm g.entities.toList)
    (hedges : h.edges = g.edges) : h.AnswersLike g := by
  have hrelationships : h.relationships = g.relationships := by
    rw [WorldGraph.relationships, WorldGraph.relationships, hedges]
  have hclassifications : h.classifications = g.classifications := by
    rw [classifications, classifications, hrelationships]
  constructor
  case relationships => exact hrelationships
  case relationshipsOf =>
    intro name
    rw [WorldGraph.relationshipsOf, WorldGraph.relationshipsOf, hrelationships]
  case matching =>
    intro subject predicate object
    rw [WorldGraph.matching, WorldGraph.matching, hrelationships]
  case typesOf =>
    intro name
    rw [WorldGraph.typesOf, WorldGraph.typesOf, hclassifications]
  case ofType =>
    intro type
    rw [WorldGraph.ofType, WorldGraph.ofType, hclassifications]
  case has =>
    intro name
    have hkeys : name ∈ h.entities.keys ↔ name ∈ g.entities.keys := (hentities.map Prod.fst).mem_iff
    rw [Bool.eq_iff_iff, WorldGraph.has, WorldGraph.has, OrderedMap.contains_iff,
      OrderedMap.contains_iff]
    exact hkeys
  case attributes? =>
    intro name
    exact OrderedMap.get?_eq_of_perm hentities name

/-- **A world is rebuilt from its snapshot.** The snapshot is accepted. The world built from it has the
same entities with the same attributes, in ascending order of their names; its snapshot is the one it
was built from; and it has the same relationships in the same order and answers like the first. -/
theorem rebuilt_answersLike (g : WorldGraph) : ∃ h, ofSnapshot g.toSnapshot = .ok h ∧
    h.entities.toList.Perm g.entities.toList ∧ h.entities.keys.Pairwise (· < ·) ∧
    h.toSnapshot = g.toSnapshot ∧ h.toSnapshot.same g.toSnapshot = true ∧ h.AnswersLike g := by
  obtain ⟨h, hbuilt, hlist, hedges⟩ := g.exists_ofSnapshot
  have hentities : h.entities.toList.Perm g.entities.toList := hlist ▸ g.perm_toSnapshot
  have halike := answersLike_of hentities hedges
  have hsnapshot := toSnapshot_eq_of hlist hedges
  refine ⟨h, hbuilt, hentities, ?_, hsnapshot, hsnapshot ▸ GraphSnapshot.same_self _, halike⟩
  rw [OrderedMap.keys, hlist]
  exact g.toSnapshot.entities.ascending

end WorldGraph
end HornReasoner
