/-
# The order of relationships in a snapshot

The relationships of a snapshot can be listed in any order. The order does not decide
whether the snapshot is accepted, nor which entities the world built from it has, with which
attributes, nor which pairs are related there. It decides one thing: of several
relationships of one pair the last counts (`GraphSnapshot.lastOn`). So a snapshot builds
the same edges in every order exactly if it relates each pair in one way only
(`GraphSnapshot.IsConsistent`), as a snapshot does that a world is shown in.

Key definitions: `GraphSnapshot.Reorders`, `GraphSnapshot.IsConsistent`.
Key theorems: `WorldGraph.attributes?_of_reorders`, `WorldGraph.mem_relationships_iff_of_reorders`,
`WorldGraph.reordered_alike_iff`.
-/
import HornReasoner.Proofs.World.Rebuilding

namespace HornReasoner
namespace GraphSnapshot

variable {s t : GraphSnapshot} {r : Relationship} {p : String × String}

/-- The first snapshot lists what the second lists, with the relationships in any order. -/
structure Reorders (t s : GraphSnapshot) : Prop where
  entities : t.entities = s.entities
  relationships : t.relationships.Perm s.relationships

/-- Each pair is related in one way only. -/
def IsConsistent (s : GraphSnapshot) : Prop :=
  ∀ r ∈ s.relationships, ∀ r' ∈ s.relationships, r.pair = r'.pair → r = r'

/-! ### The last relationship of a pair -/

theorem mem_of_lastOn (h : s.lastOn p = some r) : r ∈ s.relationships ∧ r.pair = p := by
  obtain ⟨t, ht, he⟩ := List.mem_map.mp (mem_of_lastUnder h)
  obtain ⟨rfl, rfl⟩ := Prod.mk.inj he
  exact ⟨ht, rfl⟩

theorem exists_lastOn (h : r ∈ s.relationships) : ∃ t, s.lastOn r.pair = some t := by
  have hkey : r.pair ∈ (OrderedMap.ofList s.underPairs).keys := by
    rw [OrderedMap.keys_ofList, List.mem_eraseDups, map_fst_underPairs]
    exact List.mem_map_of_mem h
  rw [lastOn, ← OrderedMap.get?_ofList, ← Option.ne_none_iff_exists', ne_eq,
    OrderedMap.get?_eq_none_iff, not_not]
  exact hkey

/-- Where each pair is related in one way, its place does not matter. -/
theorem IsConsistent.lastOn_eq_some_iff (hs : s.IsConsistent) :
    s.lastOn p = some r ↔ r ∈ s.relationships ∧ r.pair = p := by
  refine ⟨mem_of_lastOn, ?_⟩
  rintro ⟨hr, rfl⟩
  obtain ⟨t, ht⟩ := exists_lastOn hr
  obtain ⟨hmem, hpair⟩ := mem_of_lastOn ht
  rw [ht, hs t hmem r hr hpair]

/-! ### Orders of one snapshot -/

theorem Reorders.mem_relationships (h : t.Reorders s) : r ∈ t.relationships ↔ r ∈ s.relationships :=
  h.relationships.mem_iff

theorem Reorders.isSound_iff (h : t.Reorders s) : t.IsSound ↔ s.IsSound := by
  constructor
  · exact fun ht => ⟨h.entities ▸ ht.names, fun r hr => ht.relationships r (h.mem_relationships.mpr hr)⟩
  · exact fun hs => ⟨h.entities ▸ hs.names, fun r hr => hs.relationships r (h.mem_relationships.mp hr)⟩

theorem Reorders.lastOn_eq (h : t.Reorders s) (hs : s.IsConsistent) : t.lastOn p = s.lastOn p := by
  have ht : t.IsConsistent := fun r hr r' hr' =>
    hs r (h.mem_relationships.mp hr) r' (h.mem_relationships.mp hr')
  refine Option.ext fun r => ?_
  rw [ht.lastOn_eq_some_iff, hs.lastOn_eq_some_iff, h.mem_relationships]

/-- Any relationship comes last in some order. -/
theorem exists_reorders_last (h : r ∈ s.relationships) :
    ∃ t : GraphSnapshot, t.Reorders s ∧ t.lastOn r.pair = some r := by
  obtain ⟨before, after, hsplit⟩ := List.append_of_mem h
  refine ⟨{ s with relationships := before ++ after ++ [r] }, ⟨rfl, ?_⟩, ?_⟩
  · rw [hsplit]
    exact (List.perm_append_singleton r _).trans List.perm_middle.symm
  · unfold lastOn underPairs
    dsimp only
    rw [List.map_append, List.map_singleton, lastUnder_concat, if_pos rfl]

end GraphSnapshot

namespace WorldGraph

open GraphSnapshot (Reorders)

variable {s t : GraphSnapshot} {g h : WorldGraph}

/-! ### Worlds built in two orders -/

/-- The attributes of an entity are those listed, and none for an end that is not listed. -/
theorem attributes?_ofSnapshot_eq_some_iff (hg : ofSnapshot s = .ok g) {n : String}
    {a : Attributes} :
    g.attributes? n = some a ↔ (n, a) ∈ s.entities.toList ∨
      a = .empty ∧ n ∉ s.entities.keys ∧ ∃ r ∈ s.relationships, n = r.subject ∨ n = r.object := by
  rw [attributes?, OrderedMap.get?_eq_some_iff, ← (perm_toSnapshot g).mem_iff]
  exact (toSnapshot_normalises hg).mem_entities n a

/-- The entities and their attributes are the same. -/
theorem attributes?_of_reorders (hts : t.Reorders s) (hg : ofSnapshot s = .ok g)
    (hh : ofSnapshot t = .ok h) (n : String) : h.attributes? n = g.attributes? n := by
  refine Option.ext fun a => ?_
  rw [attributes?_ofSnapshot_eq_some_iff hg, attributes?_ofSnapshot_eq_some_iff hh, hts.entities]
  simp only [hts.mem_relationships]

/-- The same pairs are related. -/
theorem pairs_perm_of_reorders (hts : t.Reorders s) (hg : ofSnapshot s = .ok g)
    (hh : ofSnapshot t = .ok h) :
    (h.relationships.map Relationship.pair).Perm (g.relationships.map Relationship.pair) := by
  have hpairs : h.relationships.map Relationship.pair = _ := (toSnapshot_normalises hh).pairs
  have hpairs' : g.relationships.map Relationship.pair = _ := (toSnapshot_normalises hg).pairs
  rw [hpairs, hpairs',
    List.perm_ext_iff_of_nodup (OrderedMap.nodup_eraseDups _) (OrderedMap.nodup_eraseDups _)]
  intro p
  rw [List.mem_eraseDups, List.mem_eraseDups]
  exact (hts.relationships.map _).mem_iff

/-- The same relationships stand in both worlds exactly if the same come last. -/
theorem mem_relationships_iff_of_reorders (hg : ofSnapshot s = .ok g) (hh : ofSnapshot t = .ok h) :
    (∀ r, r ∈ h.relationships ↔ r ∈ g.relationships) ↔ ∀ p, t.lastOn p = s.lastOn p := by
  have hlast (r : Relationship) : r ∈ h.relationships ↔ t.lastOn r.pair = some r :=
    (toSnapshot_normalises hh).mem_relationships r
  have hlast' (r : Relationship) : r ∈ g.relationships ↔ s.lastOn r.pair = some r :=
    (toSnapshot_normalises hg).mem_relationships r
  constructor
  · intro hsame p
    refine Option.ext fun r => ⟨fun ht => ?_, fun hs => ?_⟩
    · obtain ⟨-, rfl⟩ := GraphSnapshot.mem_of_lastOn ht
      exact (hlast' r).mp ((hsame r).mp ((hlast r).mpr ht))
    · obtain ⟨-, rfl⟩ := GraphSnapshot.mem_of_lastOn hs
      exact (hlast r).mp ((hsame r).mpr ((hlast' r).mpr hs))
  · intro hp r
    rw [hlast, hlast', hp]

/-- A relationship that is in the world whatever the order is the only one of its pair. -/
theorem isConsistent_of_reordered (hg : ofSnapshot s = .ok g) (hall : ∀ t h, t.Reorders s →
    ofSnapshot t = .ok h → ∀ r, r ∈ h.relationships ↔ r ∈ g.relationships) : s.IsConsistent := by
  have hkept : ∀ r ∈ s.relationships, s.lastOn r.pair = some r := by
    intro r hr
    obtain ⟨t, hts, hlast⟩ := GraphSnapshot.exists_reorders_last hr
    obtain ⟨h, hh⟩ := exists_ofSnapshot_iff.mpr (hts.isSound_iff.mpr (exists_ofSnapshot_iff.mp ⟨g, hg⟩))
    have hmem : r ∈ h.relationships := ((toSnapshot_normalises hh).mem_relationships r).mpr hlast
    exact ((toSnapshot_normalises hg).mem_relationships r).mp ((hall t h hts hh r).mp hmem)
  intro r hr r' hr' hpair
  have hlast := hkept r hr
  rw [hpair, hkept r' hr'] at hlast
  exact (Option.some.inj hlast).symm

/-- **The order of relationships is seen only where a pair is related in several ways.** In any order a
snapshot is accepted or none is, and the worlds built have the same entities with the same attributes
and relate the same pairs; they have the same relationships exactly if the same come last for each pair.
That is so in every order exactly if each pair is related in one way only. -/
theorem reordered_alike_iff (s : GraphSnapshot) :
    (∀ t : GraphSnapshot, t.Reorders s →
      ((∃ h, ofSnapshot t = .ok h) ↔ ∃ g, ofSnapshot s = .ok g) ∧
      ∀ g h, ofSnapshot s = .ok g → ofSnapshot t = .ok h →
        (∀ n, h.attributes? n = g.attributes? n) ∧
        (h.relationships.map Relationship.pair).Perm (g.relationships.map Relationship.pair) ∧
        ((∀ r, r ∈ h.relationships ↔ r ∈ g.relationships) ↔ ∀ p, t.lastOn p = s.lastOn p)) ∧
    ∀ g, ofSnapshot s = .ok g →
      ((∀ t h, t.Reorders s → ofSnapshot t = .ok h → ∀ r, r ∈ h.relationships ↔ r ∈ g.relationships) ↔
        s.IsConsistent) := by
  constructor
  · intro t hts
    refine ⟨?_, fun g h hg hh => ⟨?_, ?_, ?_⟩⟩
    · rw [exists_ofSnapshot_iff, exists_ofSnapshot_iff]
      exact hts.isSound_iff
    · exact attributes?_of_reorders hts hg hh
    · exact pairs_perm_of_reorders hts hg hh
    · exact mem_relationships_iff_of_reorders hg hh
  · intro g hg
    refine ⟨isConsistent_of_reordered hg, fun hs t h hts hh => ?_⟩
    rw [mem_relationships_iff_of_reorders hg hh]
    exact fun p => hts.lastOn_eq hs

/-- A pair that is related twice in one way, and its converse. -/
def repeatedTie : GraphSnapshot where
  entities := .ofList [("ada", .ofList [("age", .string "36")])]
  relationships := [⟨"ada", "knows", "bob", .empty⟩, ⟨"ada", "knows", "bob", .empty⟩,
    ⟨"bob", "knows", "ada", .empty⟩]

theorem repeatedTie_reordered : ∃ g h, ofSnapshot repeatedTie = .ok g ∧
    ofSnapshot { repeatedTie with relationships := repeatedTie.relationships.reverse } = .ok h ∧
    (∀ n, h.attributes? n = g.attributes? n) ∧ ∀ r, r ∈ h.relationships ↔ r ∈ g.relationships := by
  obtain ⟨halike, hedges⟩ := reordered_alike_iff repeatedTie
  have hreorders : GraphSnapshot.Reorders
      { repeatedTie with relationships := repeatedTie.relationships.reverse } repeatedTie :=
    ⟨rfl, List.reverse_perm _⟩
  have hconsistent : repeatedTie.IsConsistent := by
    simp [repeatedTie, GraphSnapshot.IsConsistent, Relationship.pair]
  refine ⟨_, _, rfl, rfl, ?_, ?_⟩
  · exact ((halike _ hreorders).2 _ _ rfl rfl).1
  · exact (hedges _ rfl).mpr hconsistent _ _ hreorders rfl

/-- Two people who are related in two ways. -/
def twoTies : GraphSnapshot where
  relationships := [⟨"socrates", "teacher_of", "plato", .empty⟩, ⟨"socrates", "friend_of", "plato", .empty⟩]

/-- The way that is listed last is the one in the world. -/
theorem twoTies_reversed : ∃ g h, ofSnapshot twoTies = .ok g ∧
    ofSnapshot { twoTies with relationships := twoTies.relationships.reverse } = .ok h ∧
    g.relationships.map Relationship.predicate = ["friend_of"] ∧
    h.relationships.map Relationship.predicate = ["teacher_of"] :=
  ⟨_, _, rfl, rfl, rfl, rfl⟩

end WorldGraph
end HornReasoner
