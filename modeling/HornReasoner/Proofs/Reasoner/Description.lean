/-
# The relationships that describe an entity

The relationships of an entity are those that leave it, and after them those that reach it
(`WorldGraph.relationshipsOf_eq`). These are the relationships that involve it, each of which
the world has once (`WorldGraph.involving`), and every one is listed once for each end that is
the entity (`WorldGraph.count_pair_relationshipsOf`). So a relationship of the entity with
itself, as `x is x.` makes one, is listed twice, and the description of the entity counts it
twice: in the number of relationships that it reports, and among the pieces of evidence that it
scores (`Reasoner.describe_counts_ends`).

Key definition: `WorldGraph.involving`.
Key theorems: `WorldGraph.map_pair_relationshipsOf`, `WorldGraph.length_relationshipsOf`,
`Reasoner.confidence_describe`, `Reasoner.describe_counts_ends`.
-/
import HornReasoner.Proofs.Confidence.Scores
import HornReasoner.Proofs.World.History
import HornReasoner.Reasoner.Basic

namespace HornReasoner

/-- What two tests pass one after the other is what one of them passes, and once more what both do. -/
theorem length_filter_add {α : Type} (p q : α → Bool) : ∀ l : List α,
    (l.filter p).length + (l.filter q).length =
      (l.filter fun a => p a || q a).length + (l.filter fun a => p a && q a).length
  | [] => rfl
  | a :: l => by
    have ih := length_filter_add p q l
    cases hp : p a <;> cases hq : q a <;> simp [hp, hq] <;> omega

namespace WorldGraph

/-- The relationships of which an entity is an end, each once. -/
def involving (g : WorldGraph) (name : String) : List Relationship :=
  g.relationships.filter fun r => r.subject == name || r.object == name

/-- The pairs that are related. -/
def pairs (g : WorldGraph) : List (String × String) :=
  g.relationships.map Relationship.pair

variable {g : WorldGraph} {name : String}

/-! ### Pairs -/

theorem nodup_pairs (g : WorldGraph) : g.pairs.Nodup := by
  rw [pairs, map_pair_relationships]
  exact g.edges.nodup

/-- A test of the ends of a relationship is a test of its pair. -/
theorem map_pair_filter (g : WorldGraph) (p : String × String → Bool) :
    (g.relationships.filter fun r => p r.pair).map Relationship.pair = g.pairs.filter p := by
  rw [pairs, List.filter_map]
  rfl

theorem map_pair_involving (g : WorldGraph) (name : String) : (g.involving name).map Relationship.pair =
    g.pairs.filter fun p => p.1 == name || p.2 == name :=
  g.map_pair_filter fun p => p.1 == name || p.2 == name

theorem map_pair_relationshipsOf (g : WorldGraph) (name : String) :
    (g.relationshipsOf name).map Relationship.pair =
      (g.pairs.filter fun p => p.1 == name) ++ g.pairs.filter fun p => p.2 == name := by
  rw [relationshipsOf, List.map_append]
  exact congrArg₂ _ (g.map_pair_filter fun p => p.1 == name) (g.map_pair_filter fun p => p.2 == name)

/-! ### The relationships of an entity -/

/-- The relationships that leave an entity stand before those that reach it, both in order. -/
theorem relationshipsOf_eq (g : WorldGraph) (name : String) : g.relationshipsOf name =
    g.matching (some name) none none ++ g.matching none none (some name) := by
  simp [relationshipsOf, matching, fits]

theorem mem_relationshipsOf {r : Relationship} : r ∈ g.relationshipsOf name ↔ r ∈ g.involving name := by
  simp [relationshipsOf, involving, and_or_left]

/-- Among the pairs a test passes, one that is related stands once. -/
theorem count_filter_pairs (g : WorldGraph) (test : String × String → Bool) (p : String × String) :
    (g.pairs.filter test).count p = if p ∈ g.pairs ∧ test p = true then 1 else 0 := by
  rw [(g.nodup_pairs.filter test).count]
  simp only [List.mem_filter]

/-- A pair is listed once for each of its ends that is the entity. -/
theorem count_pair_relationshipsOf (g : WorldGraph) (name : String) (p : String × String) :
    ((g.relationshipsOf name).map Relationship.pair).count p =
      if p ∈ g.pairs then (if p.1 = name then 1 else 0) + (if p.2 = name then 1 else 0) else 0 := by
  rw [map_pair_relationshipsOf, List.count_append, count_filter_pairs, count_filter_pairs]
  by_cases hp : p ∈ g.pairs <;> simp [hp]

/-- No pair is listed twice exactly if the entity is not related with itself. -/
theorem nodup_pair_relationshipsOf_iff :
    ((g.relationshipsOf name).map Relationship.pair).Nodup ↔ (name, name) ∉ g.pairs := by
  rw [List.nodup_iff_count_le_one]
  simp only [count_pair_relationshipsOf]
  constructor
  · intro h hloop
    have htwice := h (name, name)
    rw [if_pos hloop, if_pos rfl] at htwice
    omega
  · intro h p
    by_cases hp : p ∈ g.pairs
    · rw [if_pos hp]
      by_cases hsubject : p.1 = name
      · have hobject : p.2 ≠ name := by
          intro hobject
          have hloop : p = (name, name) := Prod.ext hsubject hobject
          exact h (hloop ▸ hp)
        rw [if_pos hsubject, if_neg hobject]
      · rw [if_neg hsubject, Nat.zero_add]
        split
        · exact le_refl 1
        · exact Nat.zero_le 1
    · rw [if_neg hp]
      exact Nat.zero_le 1

/-- The relationship of an entity with itself is counted once more than it is there. -/
theorem length_relationshipsOf (g : WorldGraph) (name : String) : (g.relationshipsOf name).length =
    (g.involving name).length + if (name, name) ∈ g.pairs then 1 else 0 := by
  have hloop : (g.pairs.filter fun p => p.1 == name && p.2 == name) =
      g.pairs.filter fun p => p == (name, name) :=
    List.filter_congr fun p _ => by
      rw [Bool.eq_iff_iff]
      simp [Prod.ext_iff]
  have hlisted := congrArg List.length (g.map_pair_relationshipsOf name)
  have hinvolved := congrArg List.length (g.map_pair_involving name)
  rw [List.length_map, List.length_append, length_filter_add, hloop, ← List.count_eq_length_filter,
    g.nodup_pairs.count] at hlisted
  rw [List.length_map] at hinvolved
  rw [hlisted, hinvolved]

end WorldGraph

namespace Reasoner

/-- The confidence of a description is scored with one certain factor for each relationship listed. -/
theorem confidence_describe (r : Reasoner) (name : String) : (r.describe name).1.confidence =
    if (r.world.relationshipsOf name).length = 0 then 0.0
    else logistic Float.exp (meanFloats (List.replicate (r.world.relationshipsOf name).length 1.0)) := by
  unfold describe
  generalize r.world.relationshipsOf name = listed
  dsimp only
  rw [List.map_const']
  cases hlisted : listed with
  | nil => rfl
  | cons e es =>
    have hfinite : ∀ x ∈ List.replicate (e :: es).length (1.0 : Float), x.isFinite = true := by
      intro x hx
      rw [List.eq_of_mem_replicate hx]
      rfl
    have hscore : r.evaluator.score (e :: es) (List.replicate (e :: es).length 1.0) Float.exp = (.ok _, _) :=
      r.evaluator.score_of_isFinite (List.cons_ne_nil e es) List.length_replicate.symm hfinite
    rw [hscore]
    rfl

/-- **A description counts a relationship once for each end that is the entity described.** The
relationships listed for it are those that leave it and then those that reach it, in order. They are
those that involve it, which the world has once each; but each is listed as often as it has the entity
for an end, so once if it has another end. No pair is listed twice exactly if the entity is not related
with itself, and the number of relationships that the description reports, and of the factors that it
scores, is one more than there are if it is. -/
theorem describe_counts_ends (r : Reasoner) (name : String) :
    let g := r.world
    let listed := g.relationshipsOf name
    let n := (g.involving name).length + if (name, name) ∈ g.pairs then 1 else 0
    listed = g.matching (some name) none none ++ g.matching none none (some name) ∧
    (∀ e, e ∈ listed ↔ e ∈ g.relationships ∧ (e.subject = name ∨ e.object = name)) ∧
    ((g.involving name).map Relationship.pair).Nodup ∧
    (∀ p, (listed.map Relationship.pair).count p =
      if p ∈ g.pairs then (if p.1 = name then 1 else 0) + (if p.2 = name then 1 else 0) else 0) ∧
    ((listed.map Relationship.pair).Nodup ↔ (name, name) ∉ g.pairs) ∧
    (r.describe name).1.explanation = describeExplanation name n ∧
    (r.describe name).1.confidence =
      if n = 0 then 0.0 else logistic Float.exp (meanFloats (List.replicate n 1.0)) := by
  intro g listed n
  have hlength : listed.length = n := g.length_relationshipsOf name
  refine ⟨g.relationshipsOf_eq name, fun e => ?_, ?_, g.count_pair_relationshipsOf name,
    WorldGraph.nodup_pair_relationshipsOf_iff, ?_, ?_⟩
  · rw [WorldGraph.mem_relationshipsOf]
    simp [WorldGraph.involving]
  · rw [WorldGraph.map_pair_involving]
    exact g.nodup_pairs.filter _
  · rw [← hlength]
    rfl
  · rw [r.confidence_describe name, ← hlength]

/-- One who is related to nobody else. -/
def narcissus : Reasoner :=
  ((new {} Sentence.read).tellText (.ofNat 0) "Narcissus loves narcissus.").2

/-- The one relationship there is counts twice. -/
theorem narcissus_describe : narcissus.world.relationships.length = 1 ∧
    (narcissus.world.relationshipsOf "narcissus").length = 2 ∧
    (narcissus.describe "narcissus").1.answer = "narcissus loves narcissus, loves narcissus." ∧
    (narcissus.describe "narcissus").1.explanation =
      "Found 2 relationships involving 'narcissus' in the world model." := by
  decide +kernel

end Reasoner
end HornReasoner
