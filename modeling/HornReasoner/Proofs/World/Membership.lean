/-
# Classes of entities and entities of classes

What the world says of classes is a row of pairs, an entity and a class of it, in the order
of their edges (`WorldGraph.classified`). The classes of an entity and the entities of a class
are read off this row, so they are the two sides of one relation (`WorldGraph.mem_typesOf_iff`,
`WorldGraph.mem_ofType_iff`). Relating a pair again acts on the row in one place: a label that
does not classify takes the pair out, and one that does leaves the row as it is if the pair was
in it. No other pair moves (`WorldGraph.classified_of_relate`).

Key definition: `WorldGraph.classified`.
Key theorems: `WorldGraph.mem_typesOf_iff`, `WorldGraph.mem_ofType_iff`,
`WorldGraph.classified_of_relate`, `WorldGraph.classes_dual`.
-/
import HornReasoner.Proofs.World.Classes

namespace HornReasoner

namespace OrderedMap

variable {κ α : Type} [DecidableEq κ] {k : κ} {v w : α} {p : α → Bool}

/-- Writing a value that fails a test takes its key out of those whose values pass. -/
theorem map_filter_insertList_of_not (hv : p v = false) : ∀ {es : List (κ × α)},
    (es.map Prod.fst).Nodup → ((insertList k v es).filter fun e => p e.2).map Prod.fst =
      ((es.filter fun e => p e.2).map Prod.fst).filter fun j => j ≠ k
  | [], _ => by simp [insertList, hv]
  | e :: es, h => by
    obtain ⟨hfresh, hes⟩ := List.nodup_cons.mp h
    have ih := map_filter_insertList_of_not hv hes
    by_cases he : e.1 = k
    · -- the key stands here and nowhere after
      have hrest : ((es.filter fun e => p e.2).map Prod.fst).filter (fun j => j ≠ k) =
          (es.filter fun e => p e.2).map Prod.fst := by
        refine List.filter_eq_self.mpr fun j hj => decide_eq_true fun hjk => hfresh ?_
        rw [he, ← hjk]
        exact (List.filter_sublist.map Prod.fst).subset hj
      rw [insertList, if_pos he]
      cases hp : p e.2 <;> simp only [List.filter_cons, hv, hp, he, hrest, List.map_cons, ne_eq,
        not_true_eq_false, decide_false, Bool.false_eq_true, if_true, if_false]
    · rw [insertList, if_neg he]
      cases hp : p e.2 <;> simp only [List.filter_cons, hp, he, ih, List.map_cons, ne_eq,
        not_false_eq_true, decide_true, Bool.false_eq_true, if_true, if_false]

/-- Writing a value that passes a test where one did that passes leaves these keys as they are. -/
theorem map_filter_insertList_of_mem (hv : p v = true) (hw : p w = true) : ∀ {es : List (κ × α)},
    (es.map Prod.fst).Nodup → (k, w) ∈ es →
      ((insertList k v es).filter fun e => p e.2).map Prod.fst = (es.filter fun e => p e.2).map Prod.fst
  | [], _, hmem => absurd hmem List.not_mem_nil
  | e :: es, h, hmem => by
    obtain ⟨hfresh, hes⟩ := List.nodup_cons.mp h
    rcases List.mem_cons.mp hmem with rfl | hmem
    · rw [insertList, if_pos rfl]
      simp only [List.filter_cons, hv, hw, if_true, List.map_cons]
    · have hne : e.1 ≠ k := fun he => hfresh (he ▸ List.mem_map.mpr ⟨_, hmem, rfl⟩)
      have ih := map_filter_insertList_of_mem hv hw hes hmem
      rw [insertList, if_neg hne]
      cases hp : p e.2 <;> simp only [List.filter_cons, hp, ih, List.map_cons, Bool.false_eq_true, if_true,
        if_false]

end OrderedMap

namespace WorldGraph

variable {g g' : WorldGraph} {name type label : String} {attributes : Attributes}

/-- The label puts its subject into a class. -/
def classifies (label : String) : Bool :=
  (TypePredicate.ofLabel? label).isSome

/-- The entities and their classes, in the order of their edges. -/
def classified (g : WorldGraph) : List (String × String) :=
  (g.edges.toList.filter fun e => classifies e.2.predicate).map Prod.fst

/-! ### The two sides -/

theorem classifications_eq (g : WorldGraph) : g.classifications =
    (g.edges.toList.filter fun e => classifies e.2.predicate).map relationshipOf := by
  rw [classifications, relationships, List.filter_map]
  rfl

theorem typesOf_eq (g : WorldGraph) (name : String) : g.typesOf name =
    (SortedMap.ofList ((g.classified.filter fun p => p.1 == name).map fun p => (p.2, ()))).keys := by
  rw [typesOf, classifications_eq, classified, List.filter_map, List.filter_map, List.map_map,
    List.map_map]
  rfl

theorem ofType_eq (g : WorldGraph) (type : String) : g.ofType type =
    (g.classified.filter fun p => p.2 == type).map Prod.fst := by
  rw [ofType, classifications_eq, classified, List.filter_map, List.filter_map, List.map_map,
    List.map_map]
  rfl

theorem mem_typesOf_iff : type ∈ g.typesOf name ↔ (name, type) ∈ g.classified := by
  rw [typesOf_eq, SortedMap.mem_keys_ofList, List.map_map]
  simp [Function.comp_def]

theorem mem_ofType_iff : name ∈ g.ofType type ↔ (name, type) ∈ g.classified := by
  rw [ofType_eq]
  simp

/-- The classes of an entity stand in ascending order. -/
theorem ascending_typesOf (g : WorldGraph) (name : String) : (g.typesOf name).Pairwise (· < ·) :=
  (SortedMap.ofList _).ascending

/-! ### Relating a pair again -/

/-- **What relating a pair does to the classes.** A label that does not classify takes the pair out, and
one that does leaves the row as it is if the pair was in it. -/
theorem classified_of_relate
    (hedges : g'.edges = g.edges.insert (name, type) ⟨label, attributes⟩) :
    (classifies label = false → g'.classified = g.classified.filter fun p => p ≠ (name, type)) ∧
      (classifies label = true → (name, type) ∈ g.classified → g'.classified = g.classified) := by
  have hlist : g'.edges.toList = OrderedMap.insertList (name, type) ⟨label, attributes⟩ g.edges.toList := by
    rw [hedges]
    rfl
  unfold classified
  rw [hlist]
  constructor
  · intro hlabel
    exact OrderedMap.map_filter_insertList_of_not (p := fun e : Edge => classifies e.predicate) hlabel
      g.edges.nodup
  · intro hlabel hmem
    obtain ⟨⟨_, w⟩, he, rfl⟩ := List.mem_map.mp hmem
    obtain ⟨hentry, hw⟩ := List.mem_filter.mp he
    exact OrderedMap.map_filter_insertList_of_mem (p := fun e : Edge => classifies e.predicate) hlabel hw
      g.edges.nodup hentry

/-- Without one pair, the classes of each entity are those it had, without one class of one entity. -/
theorem typesOf_of_filter (h : g'.classified = g.classified.filter fun p => p ≠ (name, type)) (n : String) :
    g'.typesOf n = (g.typesOf n).filter fun c => (n, c) ≠ (name, type) := by
  have hsorted := (g.ascending_typesOf n).filter fun c => (n, c) ≠ (name, type)
  have hperm : (g'.typesOf n).Perm ((g.typesOf n).filter fun c => (n, c) ≠ (name, type)) := by
    rw [List.perm_ext_iff_of_nodup ((g'.ascending_typesOf n).imp String.ne_of_lt)
      (hsorted.imp String.ne_of_lt)]
    intro c
    rw [mem_typesOf_iff, h, List.mem_filter, List.mem_filter, mem_typesOf_iff]
  exact hperm.eq_of_pairwise (fun a b _ _ hab hba => absurd hab (String.lt_asymm hba))
    (g'.ascending_typesOf n) hsorted

/-- Without one pair, the entities of each class are those it had, without one entity of one class. -/
theorem ofType_of_filter (h : g'.classified = g.classified.filter fun p => p ≠ (name, type)) (c : String) :
    g'.ofType c = (g.ofType c).filter fun n => (n, c) ≠ (name, type) := by
  rw [ofType_eq, ofType_eq, h, List.filter_map, List.filter_filter, List.filter_filter]
  refine congrArg _ (List.filter_congr fun p _ => ?_)
  rw [Bool.eq_iff_iff]
  simp only [Bool.and_eq_true, beq_iff_eq, decide_eq_true_eq, Function.comp_apply]
  constructor
  · rintro ⟨rfl, hp⟩
    exact ⟨hp, rfl⟩
  · rintro ⟨hp, rfl⟩
    exact ⟨rfl, hp⟩

/-- **The classes of entities and the entities of classes are the two sides of one relation.** An entity
has a class exactly if it is among the entities of the class, and exactly if one of the two labels that
classify relates them. It then stands once among these. In whatever world the pair is related later, a
label that does not classify takes the one out of the classes and the other out of the entities, and
leaves all other classes and entities as they were; the other label that classifies leaves all of them. -/
theorem classes_dual (g : WorldGraph) (name type : String) :
    (type ∈ g.typesOf name ↔ name ∈ g.ofType type) ∧
    (type ∈ g.typesOf name ↔ g.matching (some name) (some "is_a") (some type) ≠ [] ∨
      g.matching (some name) (some "type") (some type) ≠ []) ∧
    (type ∈ g.typesOf name → (g.ofType type).count name = 1 ∧
      ∀ (later : WorldGraph) (label : String) (attributes : Attributes), Text.trim label ≠ "" →
        ∃ g', later.apply (.relate ⟨name, label, type, attributes⟩) = (.ok (), g') ∧
          (label ≠ "is_a" ∧ label ≠ "type" → type ∉ g'.typesOf name ∧ name ∉ g'.ofType type ∧
            (∀ n, g'.typesOf n = (later.typesOf n).filter fun c => (n, c) ≠ (name, type)) ∧
            ∀ c, g'.ofType c = (later.ofType c).filter fun n => (n, c) ≠ (name, type)) ∧
          (label = "is_a" ∨ label = "type" → type ∈ later.typesOf name →
            (∀ n, g'.typesOf n = later.typesOf n) ∧ ∀ c, g'.ofType c = later.ofType c)) := by
  refine ⟨mem_typesOf_iff.trans mem_ofType_iff.symm, ?_, fun htype => ⟨?_, ?_⟩⟩
  · rw [mem_typesOf, matching_ne_nil_iff, matching_ne_nil_iff, ← exists_or]
    simp only [and_or_left]
  · rw [(nodup_ofType g type).count, if_pos (mem_ofType_iff.mpr (mem_typesOf_iff.mp htype))]
  · intro later label attributes hlabel
    obtain ⟨e, hedge, -⟩ := mem_typesOf.mp htype
    obtain ⟨hsubject, hobject⟩ :=
      g.linked (name, type) (List.mem_map.mpr ⟨_, OrderedMap.get?_eq_some_iff.mp hedge, rfl⟩)
    obtain ⟨g', happly, -, hedges⟩ := exists_relate (g := later) (r := ⟨name, label, type, attributes⟩)
      (g.named _ hsubject) (g.named _ hobject)
      (Text.isBlankText_eq_false_iff.mpr hlabel)
    obtain ⟨hother, hclass⟩ := classified_of_relate hedges
    refine ⟨g', happly, fun hneither => ?_, fun heither hmem => ?_⟩
    · have hout : g'.classified = later.classified.filter fun p => p ≠ (name, type) :=
        hother (Bool.eq_false_iff.mpr fun h => not_or.mpr hneither (isSome_ofLabel?_iff.mp h))
      have hgone : (name, type) ∉ g'.classified := by
        rw [hout]
        simp
      exact ⟨mem_typesOf_iff.not.mpr hgone, mem_ofType_iff.not.mpr hgone, typesOf_of_filter hout,
        ofType_of_filter hout⟩
    · have hsame : g'.classified = later.classified :=
        hclass (isSome_ofLabel?_iff.mpr heither) (mem_typesOf_iff.mp hmem)
      exact ⟨fun n => by rw [typesOf_eq, typesOf_eq, hsame], fun c => by rw [ofType_eq, ofType_eq, hsame]⟩

/-- People who are put into classes by both labels, and one who is related to a class in another way. -/
def academy : WorldGraph :=
  run [.relate { subject := "socrates", predicate := "is_a", object := "human" },
    .relate { subject := "zeus", predicate := "made", object := "human" },
    .relate { subject := "socrates", predicate := "type", object := "philosopher" },
    .relate { subject := "plato", predicate := "type", object := "human" }]

/-- Socrates leaves one class, and all else stays. -/
theorem academy_relabelled : (academy.ofType "human").count "socrates" = 1 ∧
    ∃ g', academy.apply (.relate ⟨"socrates", "admires", "human", .empty⟩) = (.ok (), g') ∧
      g'.typesOf "socrates" = ["philosopher"] ∧ g'.ofType "human" = ["plato"] ∧
      g'.ofType "philosopher" = ["socrates"] := by
  obtain ⟨-, -, hclass⟩ := classes_dual academy "socrates" "human"
  obtain ⟨honce, hrelated⟩ := hclass (by decide +kernel)
  obtain ⟨g', happly, hother, -⟩ := hrelated academy "admires" .empty (by decide +kernel)
  obtain ⟨-, -, htypes, hmembers⟩ := hother (by decide)
  refine ⟨honce, g', happly, ?_, ?_, ?_⟩
  · rw [htypes]
    decide +kernel
  · rw [hmembers]
    decide +kernel
  · rw [hmembers]
    decide +kernel

end WorldGraph
end HornReasoner
