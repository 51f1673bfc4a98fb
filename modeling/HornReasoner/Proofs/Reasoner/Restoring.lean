/-
# Restoring a world from any snapshot

A reasoner takes a snapshot whoever wrote it. It replaces its world by the one that the
snapshot builds, if the snapshot names nothing blank, and otherwise stays as it was
(`Reasoner.restore_of_ok`, `Reasoner.restore_of_not_isSound`). The world that is
taken shows the snapshot in its normal form (`GraphSnapshot.Normalises`), and restoring that
form changes nothing more.

Key theorems: `Reasoner.restore_of_not_isSound`, `WorldGraph.exists_rebuilt_alike`,
`Reasoner.restore_normalises`.
-/
import HornReasoner.Proofs.Reasoner.Memory
import HornReasoner.Proofs.World.Rebuilding

namespace HornReasoner

open WorldGraph (ofSnapshot)

/-- The snapshot of a world builds a world with the same snapshot. -/
theorem WorldGraph.exists_rebuilt_alike (g : WorldGraph) :
    ∃ h, ofSnapshot g.toSnapshot = .ok h ∧ h.toSnapshot = g.toSnapshot := by
  obtain ⟨h, hbuilt, hentities, hedges⟩ := g.exists_ofSnapshot
  exact ⟨h, hbuilt, toSnapshot_eq_of hentities hedges⟩

namespace Reasoner

variable {s : GraphSnapshot} {g : WorldGraph}

/-- A snapshot that names something blank is refused and leaves the reasoner as it was. -/
theorem restore_of_not_isSound (r : Reasoner) (h : ¬ s.IsSound) :
    ∃ e, r.restore s = (.error e, r) := by
  rw [← WorldGraph.exists_ofSnapshot_iff] at h
  cases hbuilt : ofSnapshot s with
  | ok g => exact absurd ⟨g, hbuilt⟩ h
  | error e => exact ⟨e, r.restore_of_error hbuilt⟩

/-- **Restoring normalises any snapshot.** A snapshot is accepted exactly if no name and no label in it
is blank. Then the snapshot of the world built from it has its entities with their attributes, and the
ends that were missing with none; it has one relationship for each pair, where the pair first stood and
as it stood last; and it builds a world with the same snapshot again. It is the snapshot given exactly if
that lists all ends and repeats no pair. A snapshot that is refused leaves the reasoner as it was, and
one that is accepted replaces its world only. -/
theorem restore_normalises (s : GraphSnapshot) :
    ((∃ g, ofSnapshot s = .ok g) ↔ s.IsSound) ∧
    (∀ g, ofSnapshot s = .ok g →
      g.toSnapshot.Normalises s ∧
      (∃ h, ofSnapshot g.toSnapshot = .ok h ∧ h.toSnapshot = g.toSnapshot) ∧
      (g.toSnapshot = s ↔ s.IsNormal) ∧ (g.toSnapshot.same s = true ↔ s.IsNormal)) ∧
    ∀ r : Reasoner,
      (∀ g, ofSnapshot s = .ok g → r.restore s = (.ok (), { r with world := g })) ∧
      (¬ s.IsSound → ∃ e, r.restore s = (.error e, r)) := by
  refine ⟨WorldGraph.exists_ofSnapshot_iff, fun g hg => ?_, fun r => ⟨?_, ?_⟩⟩
  · have hnormalises := WorldGraph.toSnapshot_normalises hg
    exact ⟨hnormalises, g.exists_rebuilt_alike, hnormalises.eq_iff, hnormalises.same_iff⟩
  · exact fun g => r.restore_of_ok
  · exact r.restore_of_not_isSound

/-- A snapshot with ends that are not listed, an end that stands on both sides and a pair that is
related twice. -/
def scattered : GraphSnapshot where
  entities := .ofList [("cyd", .ofList [("age", .string "40")])]
  relationships := [⟨"ada", "knows", "bob", .empty⟩, ⟨"cyd", "trusts", "cyd", .empty⟩,
    ⟨"ada", "trusts", "bob", .empty⟩]

/-- A snapshot with an object that consists of a space that does not break. -/
def blankEnd : GraphSnapshot where
  relationships := [⟨"ada", "knows", "bob", .empty⟩, ⟨"ada", "knows", "\u00a0", .empty⟩]

theorem scattered_restored : let r := new {} Sentence.read
    (∃ g, r.restore scattered = (.ok (), { r with world := g }) ∧ g.toSnapshot.Normalises scattered ∧
      g.toSnapshot.same scattered = false) ∧ ∃ e, r.restore blankEnd = (.error e, r) := by
  intro r
  obtain ⟨-, hbuilt, hrestore⟩ := restore_normalises scattered
  have hrepeated : ¬ scattered.IsNormal := fun h => absurd h.pairs (by decide +kernel)
  have hblank : ¬ blankEnd.IsSound := fun h =>
    (h.relationships ⟨"ada", "knows", "\u00a0", .empty⟩ (by simp [blankEnd])).2.1 (by decide +kernel)
  obtain ⟨hnormalises, -, -, hsame⟩ := hbuilt _ rfl
  refine ⟨⟨_, (hrestore r).1 _ rfl, hnormalises, ?_⟩, ?_⟩
  · exact Bool.eq_false_iff.mpr (hsame.not.mpr hrepeated)
  · exact ((restore_normalises blankEnd).2.2 r).2 hblank

end Reasoner
end HornReasoner
