/-
# Rebuilding a world normalises its snapshot

Any snapshot can be given, not only one that a world was shown in. It is accepted exactly if
it names nothing blank (`WorldGraph.ofSnapshot_eq_ok_iff`), and then its changes are a log
that is made as a whole, so the world built from it is the run of that log
(`WorldGraph.Follows`). The snapshot of that world has the entities given and the ends
that were missing, and one relationship for each pair, where the pair first stands and as
it stands last (`GraphSnapshot.Normalises`). Nothing is left to do for a snapshot that lists
its ends and repeats no pair (`GraphSnapshot.IsNormal`), and for no other
(`GraphSnapshot.Normalises.same_iff`).

Key definitions: `GraphSnapshot.IsSound`, `GraphSnapshot.IsNormal`, `GraphSnapshot.lastOn`,
`GraphSnapshot.Normalises`.
Key theorems: `WorldGraph.ofSnapshot_eq_ok_iff`, `WorldGraph.toSnapshot_normalises`,
`GraphSnapshot.Normalises.eq_iff`, `GraphSnapshot.Normalises.same_iff`.
-/
import HornReasoner.Proofs.World.Classes
import HornReasoner.Proofs.World.Snapshot

namespace HornReasoner

/-- Rows that agree item by item in a test agree in what the test compares. -/
theorem map_eq_of_all_zip {α β : Type} {test : α × α → Bool} {f : α → β}
    (htest : ∀ a b, test (a, b) = true → f a = f b) : ∀ {l l' : List α}, l.length = l'.length →
    (l.zip l').all test = true → l.map f = l'.map f
  | [], [], _, _ => rfl
  | a :: l, b :: l', hlength, hall => by
    rw [List.zip_cons_cons, List.all_cons, Bool.and_eq_true] at hall
    rw [List.map_cons, List.map_cons, htest a b hall.1,
      map_eq_of_all_zip htest (Nat.succ.inj hlength) hall.2]

namespace GraphSnapshot

variable {s t : GraphSnapshot}

/-- No name and no label in a snapshot is blank. -/
structure IsSound (s : GraphSnapshot) : Prop where
  names : ∀ n ∈ s.entities.keys, Text.trim n ≠ ""
  relationships : ∀ r ∈ s.relationships,
    Text.trim r.subject ≠ "" ∧ Text.trim r.object ≠ "" ∧ Text.trim r.predicate ≠ ""

/-- Every end of a relationship is listed as an entity, and no pair is related twice. -/
structure IsNormal (s : GraphSnapshot) : Prop where
  ends : ∀ r ∈ s.relationships, r.subject ∈ s.entities.keys ∧ r.object ∈ s.entities.keys
  pairs : (s.relationships.map Relationship.pair).Nodup

/-- The relationships of a snapshot under their pairs. -/
def underPairs (s : GraphSnapshot) : List ((String × String) × Relationship) :=
  s.relationships.map fun r => (r.pair, r)

/-- The last relationship of a pair. -/
def lastOn (s : GraphSnapshot) (p : String × String) : Option Relationship :=
  lastUnder p s.underPairs

/-- The first snapshot says once what the second says: it has the entities of the second with their
attributes, and the ends that are no entities there with none; and it has one relationship for each pair
of the second, in the order in which the pairs first stand there, and as they stand there last. -/
structure Normalises (t s : GraphSnapshot) : Prop where
  mem_entities (n : String) (a : Attributes) : (n, a) ∈ t.entities.toList ↔ (n, a) ∈ s.entities.toList ∨
    a = .empty ∧ n ∉ s.entities.keys ∧ ∃ r ∈ s.relationships, n = r.subject ∨ n = r.object
  pairs : t.relationships.map Relationship.pair = (s.relationships.map Relationship.pair).eraseDups
  mem_relationships (r : Relationship) : r ∈ t.relationships ↔ s.lastOn r.pair = some r

/-! ### The changes of a snapshot -/

theorem isSound_iff : s.IsSound ↔ ∀ u ∈ s.updates, u.isSound = true := by
  unfold updates
  rw [List.forall_mem_append, List.forall_mem_map, List.forall_mem_map]
  simp only [GraphUpdate.isSound_register_iff, GraphUpdate.isSound_relate_iff,
    Text.isBlankText_eq_false_iff]
  exact ⟨fun h => ⟨fun e he => h.names _ (List.mem_map_of_mem he), h.relationships⟩,
    fun h => ⟨List.forall_mem_map.mpr h.1, h.2⟩⟩

theorem registered_updates (s : GraphSnapshot) :
    s.updates.filterMap GraphUpdate.registered? = s.entities.toList := by
  unfold updates
  rw [List.filterMap_append, List.filterMap_map, List.filterMap_map]
  simp [Function.comp_def, GraphUpdate.registered?]

theorem related_updates (s : GraphSnapshot) :
    s.updates.filterMap GraphUpdate.related? = s.underPairs := by
  unfold updates underPairs
  rw [List.filterMap_append, List.filterMap_map, List.filterMap_map]
  simp [Function.comp_def, GraphUpdate.related?]

theorem mem_mentions_updates {n : String} : n ∈ s.updates.flatMap GraphUpdate.mentions ↔
    n ∈ s.entities.keys ∨ ∃ r ∈ s.relationships, n = r.subject ∨ n = r.object := by
  unfold updates SortedMap.keys
  rw [List.flatMap_append, List.mem_append, List.flatMap_map, List.flatMap_map]
  simp [GraphUpdate.mentions, eq_comm]

/-! ### Normal snapshots -/

theorem map_fst_underPairs (s : GraphSnapshot) :
    s.underPairs.map Prod.fst = s.relationships.map Relationship.pair :=
  List.map_map

theorem lastOn_eq_some_iff (h : (s.relationships.map Relationship.pair).Nodup) {r : Relationship} :
    s.lastOn r.pair = some r ↔ r ∈ s.relationships := by
  rw [lastOn, OrderedMap.lastUnder_eq_some_iff (by rwa [map_fst_underPairs]), underPairs, List.mem_map]
  constructor
  · rintro ⟨t, ht, he⟩
    exact (Prod.mk.inj he).2 ▸ ht
  · exact fun hr => ⟨r, hr, rfl⟩

namespace Normalises

/-- A snapshot with the keys and pairs of what it normalises is of that which is normal. -/
theorem isNormal_of (h : t.Normalises s) (hkeys : t.entities.keys = s.entities.keys)
    (hpairs : t.relationships.map Relationship.pair = s.relationships.map Relationship.pair) :
    s.IsNormal where
  ends r hr := by
    have hlisted (n : String) (hn : n = r.subject ∨ n = r.object) : n ∈ s.entities.keys := by
      by_contra hmissing
      have hadded : (n, .empty) ∈ t.entities.toList :=
        (h.mem_entities n .empty).mpr (Or.inr ⟨rfl, hmissing, r, hr, hn⟩)
      exact hmissing (hkeys ▸ List.mem_map.mpr ⟨_, hadded, rfl⟩)
    exact ⟨hlisted _ (Or.inl rfl), hlisted _ (Or.inr rfl)⟩
  pairs := by
    rw [← hpairs, h.pairs]
    exact OrderedMap.nodup_eraseDups _

/-- A normal snapshot is normalised to itself. -/
theorem eq_of_isNormal (h : t.Normalises s) (hs : s.IsNormal) : t = s := by
  have hentities : t.entities = s.entities := by
    refine SortedMap.eq_of_perm ?_
    rw [List.perm_ext_iff_of_nodup (.of_map _ t.entities.nodup) (.of_map _ s.entities.nodup)]
    rintro ⟨n, a⟩
    rw [h.mem_entities]
    refine or_iff_left ?_
    rintro ⟨-, hmissing, r, hr, rfl | rfl⟩
    · exact hmissing (hs.ends r hr).1
    · exact hmissing (hs.ends r hr).2
  have hpairs : t.relationships.map Relationship.pair = s.relationships.map Relationship.pair := by
    rw [h.pairs, OrderedMap.eraseDups_of_nodup hs.pairs]
  have hrelationships : t.relationships = s.relationships := by
    have hnodup := hpairs ▸ hs.pairs
    refine eq_of_map_eq_map ?_ hnodup hpairs
    rw [List.perm_ext_iff_of_nodup (.of_map _ hnodup) (.of_map _ hs.pairs)]
    intro r
    rw [h.mem_relationships, lastOn_eq_some_iff hs.pairs]
  exact congrArg₂ GraphSnapshot.mk hentities hrelationships

theorem eq_iff (h : t.Normalises s) : t = s ↔ s.IsNormal := by
  constructor
  · rintro rfl
    exact h.isNormal_of rfl rfl
  · exact h.eq_of_isNormal

/-- **What is changed by normalising** is a snapshot that lacks an end or repeats a pair, also when
floats are compared as numbers. -/
theorem same_iff (h : t.Normalises s) : t.same s = true ↔ s.IsNormal := by
  constructor
  · intro hsame
    simp only [same, Bool.and_eq_true, beq_iff_eq] at hsame
    obtain ⟨⟨⟨hentities, hkeys⟩, hrelationships⟩, hpairs⟩ := hsame
    refine h.isNormal_of (map_eq_of_all_zip (fun a b hab => ?_) hentities hkeys)
      (map_eq_of_all_zip (fun a b hab => ?_) hrelationships hpairs)
    · simp only [Bool.and_eq_true, beq_iff_eq] at hab
      exact hab.1
    · simp only [Relationship.same, Bool.and_eq_true, beq_iff_eq] at hab
      exact Prod.ext hab.1.1.1 hab.1.2
  · intro hs
    rw [h.eq_of_isNormal hs]
    exact s.same_self

end Normalises
end GraphSnapshot

namespace WorldGraph

variable {s : GraphSnapshot} {g : WorldGraph}

/-! ### What is accepted -/

/-- Changes that name nothing blank are all made. -/
theorem applyAll_of_isSound {us : List GraphUpdate} (h : ∀ u ∈ us, u.isSound = true) :
    ∀ g : WorldGraph, g.applyAll us = (.ok (), us.foldl attempt g) := by
  induction us with
  | nil => exact fun g => rfl
  | cons u us ih =>
    intro g
    obtain ⟨hu, hus⟩ := List.forall_mem_cons.mp h
    rw [applyAll_cons (g.apply_of_isSound hu), List.foldl_cons, ih hus]

/-- Changes that are all made name nothing blank. -/
theorem isSound_of_applyAll {us : List GraphUpdate} {g g' : WorldGraph}
    (h : g.applyAll us = (.ok (), g')) : ∀ u ∈ us, u.isSound = true := by
  induction us generalizing g with
  | nil => exact fun u hu => absurd hu List.not_mem_nil
  | cons u us ih =>
    unfold applyAll at h
    split at h
    · next g₁ happly =>
      refine List.forall_mem_cons.mpr ⟨?_, ih h⟩
      rw [GraphUpdate.isSound, Option.isNone_iff_eq_none, Option.eq_none_iff_forall_ne_some]
      intro e he
      rw [g.apply_of_fault? he] at happly
      cases happly
    · cases h

/-- **A snapshot is accepted exactly if it names nothing blank**, and its world is then that of its
changes. -/
theorem ofSnapshot_eq_ok_iff : ofSnapshot s = .ok g ↔ s.IsSound ∧ g = run s.updates := by
  unfold ofSnapshot
  rw [GraphSnapshot.isSound_iff]
  constructor
  · intro h
    split at h
    · next g' hall =>
      cases h
      have hsound := isSound_of_applyAll hall
      rw [applyAll_of_isSound hsound] at hall
      exact ⟨hsound, (Prod.mk.inj hall).2.symm⟩
    · cases h
  · rintro ⟨hsound, rfl⟩
    rw [applyAll_of_isSound hsound]
    rfl

theorem exists_ofSnapshot_iff : (∃ g, ofSnapshot s = .ok g) ↔ s.IsSound := by
  simp only [ofSnapshot_eq_ok_iff, exists_and_left, exists_eq, and_true]

/-! ### What is built -/

/-- **The snapshot of the world built** normalises the one it was built from. -/
theorem toSnapshot_normalises (h : ofSnapshot s = .ok g) : g.toSnapshot.Normalises s := by
  obtain ⟨hsound, rfl⟩ := ofSnapshot_eq_ok_iff.mp h
  have hlists := (follows_run s.updates (GraphSnapshot.isSound_iff.mp hsound)).listsLog
  refine ⟨fun n a => ?_, ?_, fun r => ?_⟩
  · rw [(perm_toSnapshot _).mem_iff, hlists.mem_entities, GraphSnapshot.mem_mentions_updates,
      GraphSnapshot.registered_updates]
    by_cases hn : n ∈ s.entities.keys
    · -- an entity that is listed has the attributes given
      obtain ⟨e, he, rfl⟩ := List.mem_map.mp hn
      have hlast := (OrderedMap.lastUnder_eq_some_iff s.entities.nodup).mpr he
      rw [hlast, Option.getD_some, ← OrderedMap.lastUnder_eq_some_iff s.entities.nodup, hlast,
        Option.some_inj]
      simp [hn, eq_comm]
    · -- one that is not is an end
      have hunlisted : (n, a) ∉ s.entities.toList := fun hmem => hn (List.mem_map.mpr ⟨_, hmem, rfl⟩)
      rw [lastUnder_eq_none hn, Option.getD_none]
      simp only [hn, hunlisted, false_or, not_false_eq_true, true_and]
      exact and_comm
  · have hpairs := hlists.pairs
    rw [GraphSnapshot.related_updates, GraphSnapshot.map_fst_underPairs] at hpairs
    exact hpairs
  · rw [GraphSnapshot.lastOn, ← GraphSnapshot.related_updates]
    exact hlists.mem_relationships r

end WorldGraph
end HornReasoner
