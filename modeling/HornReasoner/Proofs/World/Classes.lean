/-
# The entities of a class stand in the order of their edges

The entities of a class are the subjects of the edges into it that classify, in the order
of these edges. There is one edge from an entity to a class, so each stands once
(`WorldGraph.nodup_ofType`). The two labels that classify are not told apart, and an edge
that is relabelled keeps its place. Asking for one label after the other gives the same
entities (`WorldGraph.byLabel_eq`), and in the same order exactly if no edge into the class
that is labelled `type` stands before one that is labelled `is_a`
(`WorldGraph.ofType_eq_byLabel_iff`).

Key definition: `WorldGraph.byLabel`.
Key theorems: `filter_append_filter_not_eq_iff`, `WorldGraph.nodup_ofType`,
`WorldGraph.ofType_eq_byLabel_iff`.
-/
import HornReasoner.Proofs.World.History
import Mathlib.Data.List.Nodup
import Mathlib.Data.List.Perm.Basic

namespace HornReasoner

/-! ### Lists split in two -/

/-- Putting the elements with a property first changes nothing exactly if none of them stands after
one without it. -/
theorem filter_append_filter_not_eq_iff {α : Type} (p : α → Bool) : ∀ l : List α,
    l.filter p ++ l.filter (fun a => !p a) = l ↔ l.Pairwise fun a b => p b = true → p a = true
  | [] => by simp
  | a :: l => by
    have ih := filter_append_filter_not_eq_iff p l
    rw [List.pairwise_cons, ← ih]
    cases ha : p a with
    | true => simp [ha]
    | false =>
      -- the first element comes after all that have the property, so there is none
      have hnone : (∀ b ∈ l, p b = true → false = true) ↔ l.filter p = [] := by
        simp [List.filter_eq_nil_iff]
      rw [hnone]
      constructor
      · intro h
        cases hp : l.filter p with
        | nil => simpa [ha, hp] using h
        | cons b bs =>
          have hb : p b = true := (List.mem_filter.mp (hp ▸ List.mem_cons_self : b ∈ l.filter p)).2
          simp only [List.filter_cons, ha, hp, Bool.false_eq_true, if_false, List.cons_append,
            List.cons.injEq] at h
          rw [h.1, ha] at hb
          cases hb
      · rintro ⟨hp, h⟩
        simpa [ha, hp] using h

/-- Rows with the same images are equal if no two of their elements have the same image. -/
theorem eq_of_map_eq_map {α β : Type} {f : α → β} {l l' : List α} (hperm : l.Perm l')
    (hnodup : (l.map f).Nodup) (h : l.map f = l'.map f) : l = l' := by
  have hinj := List.inj_on_of_nodup_map hnodup
  refine List.ext_getElem hperm.length_eq fun i hi hi' => ?_
  refine hinj (List.getElem_mem hi) (hperm.mem_iff.mpr (List.getElem_mem hi')) ?_
  rw [← List.getElem_map f (h := by simpa using hi), ← List.getElem_map f (h := by simpa using hi')]
  exact List.getElem_of_eq h _

namespace WorldGraph

/-! ### Classes -/

/-- The entities of a class, those of each label that classifies together, the labels in the order in
which they are looked up. -/
def byLabel (g : WorldGraph) (type : String) : List String :=
  TypePredicate.all.flatMap fun p =>
    (g.matching none (some p.label) (some type)).map Relationship.subject

/-- The edges into a class that classify. -/
def classifying (g : WorldGraph) (type : String) : List Relationship :=
  g.classifications.filter fun r => r.object == type

variable {g : WorldGraph} {type : String}

theorem classifying_eq (g : WorldGraph) (type : String) : g.classifying type =
    (g.matching none none (some type)).filter fun r => (TypePredicate.ofLabel? r.predicate).isSome := by
  unfold classifying classifications matching
  rw [List.filter_filter, List.filter_filter]
  exact List.filter_congr fun r _ => by simp [fits, Bool.and_comm]

/-- Each entity stands once in its class. -/
theorem nodup_ofType (g : WorldGraph) (type : String) : (g.ofType type).Nodup := by
  have hpairs : ((g.classifying type).map Relationship.pair).Nodup := by
    have hkeys : (g.relationships.map Relationship.pair).Nodup := by
      rw [map_pair_relationships]
      exact g.edges.nodup
    exact hkeys.sublist ((List.filter_sublist.trans List.filter_sublist).map _)
  have hobject : (g.classifying type).map Relationship.pair =
      (g.ofType type).map fun subject => (subject, type) := by
    unfold ofType
    rw [List.map_map]
    refine List.map_congr_left fun r hr => ?_
    rw [← beq_iff_eq.mp (List.mem_filter.mp hr).2]
    rfl
  rw [hobject] at hpairs
  exact hpairs.of_map

/-- The edges into a class with one of the labels that classify. -/
theorem matching_label (g : WorldGraph) (type : String) (p : TypePredicate) :
    g.matching none (some p.label) (some type) =
      (g.classifying type).filter fun r => r.predicate == p.label := by
  have hlabel : p.label = "is_a" ∨ p.label = "type" := by
    cases p with
    | isA => exact Or.inl rfl
    | type => exact Or.inr rfl
  rw [classifying_eq, List.filter_filter]
  unfold matching
  rw [List.filter_filter]
  refine List.filter_congr fun r _ => ?_
  have hclass : r.predicate = p.label → r.predicate = "is_a" ∨ r.predicate = "type" :=
    fun h => h ▸ hlabel
  rw [Bool.eq_iff_iff]
  simp only [fits, Bool.and_eq_true, isSome_ofLabel?_iff, beq_iff_eq]
  tauto

/-- One label after the other lists the edges that classify, those labelled `is_a` first. -/
theorem byLabel_eq (g : WorldGraph) (type : String) : g.byLabel type =
    ((g.classifying type).filter (fun r => r.predicate == "is_a") ++
      (g.classifying type).filter (fun r => !(r.predicate == "is_a"))).map Relationship.subject := by
  have htype : (g.classifying type).filter (fun r => !(r.predicate == "is_a")) =
      (g.classifying type).filter fun r => r.predicate == "type" := by
    refine List.filter_congr fun r hr => ?_
    rw [classifying_eq] at hr
    rcases isSome_ofLabel?_iff.mp (List.mem_filter.mp hr).2 with h | h <;> rw [h] <;> rfl
  rw [List.map_append, htype]
  unfold byLabel TypePredicate.all
  simp only [List.flatMap_cons, List.flatMap_nil, List.append_nil, matching_label]
  rfl

/-- **The entities of a class stand in the order of their edges.** Each stands once, and they are those
that one label after the other gives. The order is the same exactly if no edge into the class that is
labelled `type` stands before one that is labelled `is_a`. -/
theorem ofType_eq_byLabel_iff (g : WorldGraph) (type : String) :
    (g.ofType type).Nodup ∧ (g.ofType type).Perm (g.byLabel type) ∧
    (g.ofType type = g.byLabel type ↔ (g.matching none none (some type)).Pairwise fun r r' =>
      ¬ (r.predicate = "type" ∧ r'.predicate = "is_a")) := by
  have hperm := List.filter_append_perm (fun r => r.predicate == "is_a") (g.classifying type)
  refine ⟨nodup_ofType g type, ?_, ?_⟩
  · rw [byLabel_eq]
    exact (hperm.map Relationship.subject).symm
  · have hedges : g.ofType type = g.byLabel type ↔
        (g.classifying type).filter (fun r => r.predicate == "is_a") ++
          (g.classifying type).filter (fun r => !(r.predicate == "is_a")) = g.classifying type := by
      rw [byLabel_eq]
      refine ⟨fun h => (eq_of_map_eq_map hperm.symm (nodup_ofType g type) h).symm, fun h => ?_⟩
      rw [h]
      rfl
    rw [hedges, filter_append_filter_not_eq_iff, classifying_eq, List.pairwise_filter]
    refine List.Pairwise.iff fun {r r'} => ?_
    have hne : r.predicate = "type" → ¬ r.predicate = "is_a" := fun h => h ▸ by decide
    simp only [isSome_ofLabel?_iff, beq_iff_eq]
    tauto

/-- An edge labelled `type`, and after it one labelled `is_a`, into the same class. -/
def mixedLabels : WorldGraph :=
  run [.relate { subject := "aristotle", predicate := "type", object := "human" },
    .relate { subject := "plato", predicate := "is_a", object := "human" }]

/-- The first edge comes first, whatever its label. -/
theorem ofType_mixedLabels : mixedLabels.ofType "human" = ["aristotle", "plato"] ∧
    mixedLabels.byLabel "human" = ["plato", "aristotle"] := by
  decide +kernel

end WorldGraph
end HornReasoner
