/-
# What a revision by the store does to a confidence

The confidence in a goal is in the unit interval: it is zero, or a sum of positive terms
that is capped at one (`KnowledgeStore.confidence_reason_inUnit`). A boost adds 0.15 to it
and caps again, so it never lowers it (`le_boosted`).

The store boosts a confidence below its threshold if some clause mentions the predicate of
the goal, as a run of letters anywhere in its text
(`KnowledgeStore.confidence_reconsider_of_related`). That is a test of texts and not of
what proved the goal, but a goal that is proved passes it: the last step of a proof uses a
clause for the goal's own predicate, and the text of a clause begins with the name of its
predicate (`KnowledgeStore.related_of_proves`).

Key definition: `KnowledgeStore.Related`.
Key theorems: `le_boosted`, `KnowledgeStore.confidence_reason_inUnit`,
`KnowledgeStore.confidence_reconsider_of_related`, `KnowledgeStore.related_of_proves`.
-/
import HornReasoner.Proofs.Binary64.Arithmetic
import HornReasoner.Proofs.Store.Explanation

namespace HornReasoner

open Binary64 (HasSign InUnit parts)

variable {x : Float}

/-! ### Capped sums -/

theorem atMostOne_inUnit (h : 0.0 ≤ x) : InUnit (atMostOne x) := by
  unfold atMostOne
  by_cases hx : x < 1.0
  · rw [if_pos hx]
    exact ⟨h, Binary64.le_of_lt hx⟩
  · rw [if_neg hx]
    exact ⟨by decide, by decide⟩

theorem provenConfidence_inUnit (answers : Nat) : InUnit (provenConfidence answers) := by
  have hshare : HasSign .positive (parts (Float.ofNat answers * 0.05)) :=
    (Binary64.hasSign_mul (Binary64.hasSign_ofNat answers) (by decide)).stored
  have hsum : HasSign .positive (parts (0.8 + Float.ofNat answers * 0.05)) :=
    (Binary64.hasSign_add (by rfl) hshare).stored
  exact atMostOne_inUnit hsum.zero_le

theorem boosted_inUnit (h : 0.0 ≤ x) : InUnit (boosted x) :=
  atMostOne_inUnit (Binary64.le_trans h (Binary64.le_add h (by rfl)))

/-- **A boost does not lower a confidence.** -/
theorem le_boosted (h : InUnit x) : x ≤ boosted x := by
  unfold boosted atMostOne
  split
  · exact Binary64.le_add h.1 (by rfl)
  · exact h.2

namespace KnowledgeStore

variable {s : KnowledgeStore} {goal : Atom String}

theorem confidence_reason_inUnit (s : KnowledgeStore) (goal : Atom String) :
    InUnit (s.reason goal).confidence := by
  unfold reason
  split
  · exact provenConfidence_inUnit _
  · exact ⟨by decide, by decide⟩

/-! ### Related clauses -/

/-- Some stored clause has the name somewhere in its text. -/
def Related (s : KnowledgeStore) (predicate : String) : Prop :=
  ∃ c ∈ s.clauses, predicate.toList <:+: c.text.toList

theorem mentioning_ne_nil_iff {predicate : String} :
    s.mentioning predicate ≠ [] ↔ s.Related predicate := by
  simp [mentioning, Related, Clause.mentions, Text.mentions, Text.occursIn_iff_isInfix]

/-- **A low confidence is boosted if there is a related clause.** -/
theorem confidence_reconsider_of_related
    (hlow : (s.reason goal).confidence < s.config.confidenceThreshold)
    (hrelated : s.Related goal.predicate) :
    (s.reconsider goal).confidence = boosted (s.reason goal).confidence := by
  unfold reconsider
  dsimp only
  rw [if_pos ⟨hlow, mentioning_ne_nil_iff.mpr hrelated⟩]

/-- Any other confidence stays as it was. -/
theorem confidence_reconsider_of_not
    (h : ¬ ((s.reason goal).confidence < s.config.confidenceThreshold ∧ s.Related goal.predicate)) :
    (s.reconsider goal).confidence = (s.reason goal).confidence := by
  unfold reconsider
  dsimp only
  rw [if_neg (by rwa [mentioning_ne_nil_iff])]

/-! ### A goal that is proved has a related clause -/

/-- **A goal that is proved has a related clause.** -/
theorem related_of_proves (h : s.Proves goal) : s.Related goal.predicate := by
  obtain ⟨c, hc, hhead⟩ := exists_clause_of_proves h
  exact mentioning_ne_nil_iff.mp (List.ne_nil_of_mem (mem_mentioning_of_sameSymbol hc hhead))

end KnowledgeStore
end HornReasoner
