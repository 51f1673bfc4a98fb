/-
# A store is rebuilt from its clauses as written

The transcript of a store asks for each of its clauses again, in order and by its text, a
clause without body as a fact and any other as a rule, under whatever identifiers. The
clauses are well formed, so each is read back as it was and accepted
(`KnowledgeStore.exists_addEach_asAddition`), and the empty store becomes one with the same
clauses. Answers come from the clauses and the settings alone, so the two stores answer
alike (`KnowledgeStore.answersLike_of`).

Key definitions: `Clause.asAddition`, `KnowledgeStore.transcript`, `KnowledgeStore.AnswersLike`.
Key theorems: `KnowledgeStore.exists_addEach_asAddition`, `KnowledgeStore.transcript_rebuilds`.
-/
import HornReasoner.Proofs.Logic.Printing
import HornReasoner.Proofs.Store.Growth

namespace HornReasoner

/-- Asks for the clause by its text. -/
def Clause.asAddition (id : Uuid) (c : Clause String) : Addition :=
  .text c.kind id c.text

theorem Clause.accepted?_asAddition {c : Clause String} (h : c.validate = .ok ()) (id : Uuid) :
    (c.asAddition id).accepted? = some ⟨id, c⟩ :=
  Addition.accepted?_eq_some_iff.mpr ⟨.text id (Clause.read_text (grammatical_of_validate h)) c.fits_kind, h⟩

namespace KnowledgeStore

variable {s t : KnowledgeStore}

/-- The clauses as written, in order, each under the identifier of its place. -/
def transcript (s : KnowledgeStore) (ids : Nat → Uuid) : List Addition :=
  s.clauses.mapIdx fun place c => c.asAddition (ids place)

/-! ### Requests by text -/

/-- **Well-formed clauses are accepted by their texts**, one after another. -/
theorem exists_addEach_asAddition (s : KnowledgeStore) {cs : List (Clause String)}
    (hvalid : ∀ c ∈ cs, c.validate = .ok ()) (ids : Nat → Uuid) :
    ∃ t, s.addEach (cs.mapIdx fun place c => c.asAddition (ids place)) = (.ok (), t) ∧
      t.clauses = s.clauses ++ cs ∧ t.config = s.config := by
  have haccepted : List.Forall₂ (fun x a => x.accepted? = some a)
      (cs.mapIdx fun place c => c.asAddition (ids place)) (cs.mapIdx fun place c => ⟨ids place, c⟩) := by
    refine List.forall₂_iff_get.mpr ⟨by simp, fun place hplace _ => ?_⟩
    rw [List.length_mapIdx] at hplace
    simp only [List.get_eq_getElem, List.getElem_mapIdx]
    exact Clause.accepted?_asAddition (hvalid _ (List.getElem_mem hplace)) (ids place)
  obtain ⟨t, ht, happends⟩ := s.addEach_of_accepted haccepted
  refine ⟨t, ht, ?_, happends.config⟩
  rw [happends.clauses]
  exact congrArg _ (List.ext_getElem (by simp) fun place _ _ => by simp)

theorem validate_of_mem_clauses {c : Clause String} (h : c ∈ s.clauses) : c.validate = .ok () := by
  obtain ⟨a, ha, rfl⟩ := List.mem_map.mp h
  exact s.wellFormed a ha

/-! ### Stores that answer alike -/

/-- The stores give the same answers, decisions, explanations and revisions for every goal. -/
structure AnswersLike (t s : KnowledgeStore) : Prop where
  query (goal : Atom String) : t.query goal = s.query goal
  reason (goal : Atom String) : t.reason goal = s.reason goal
  explain (goal : Atom String) : t.explain goal = s.explain goal
  reconsider (goal : Atom String) : t.reconsider goal = s.reconsider goal
  reviser (goal : Atom String) : t.reviser goal = s.reviser goal

/-- Answers come from the clauses and the settings. -/
theorem answersLike_of (hclauses : t.clauses = s.clauses) (hconfig : t.config = s.config) :
    t.AnswersLike s := by
  have hquery : ∀ goal, t.query goal = s.query goal := fun goal => by
    rw [KnowledgeStore.query, KnowledgeStore.query, hclauses, hconfig]
  have hreason : ∀ goal, t.reason goal = s.reason goal := fun goal => by
    rw [KnowledgeStore.reason, KnowledgeStore.reason, hquery]
  have hmentioning : ∀ predicate, t.mentioning predicate = s.mentioning predicate := fun predicate => by
    rw [mentioning, mentioning, hclauses]
  have hexplain : ∀ goal, t.explain goal = s.explain goal := fun goal => by
    rw [KnowledgeStore.explain, KnowledgeStore.explain, hreason, hmentioning]
  have hreconsider : ∀ goal, t.reconsider goal = s.reconsider goal := fun goal => by
    rw [KnowledgeStore.reconsider, KnowledgeStore.reconsider, hreason, hmentioning, hexplain, hconfig]
  refine ⟨hquery, hreason, hexplain, hreconsider, fun goal => ?_⟩
  rw [KnowledgeStore.reviser, KnowledgeStore.reviser, hreconsider]

/-- **What is written is read back.** A well-formed clause is read back from its text, and so is a
well-formed atom. Whatever text was read as a clause, the clause as written reads as the same clause,
which is written in the same way again. And the transcript of a store is accepted as a whole by the
empty store with its settings, which then has the same clauses and answers alike. -/
theorem transcript_rebuilds :
    (∀ c : Clause String, c.validate = .ok () → Clause.read c.text = .ok c) ∧
    (∀ a : Atom String, a.validate = .ok () → Atom.read a.text = .ok a) ∧
    (∀ (text : String) (c : Clause String), Clause.read text = .ok c →
      Clause.read c.text = .ok c ∧ (Clause.read c.text).map Clause.text = .ok c.text) ∧
    ∀ (s : KnowledgeStore) (ids : Nat → Uuid), ∃ t,
      (KnowledgeStore.empty s.config).addEach (s.transcript ids) = (.ok (), t) ∧
      t.clauses = s.clauses ∧ t.config = s.config ∧ t.AnswersLike s := by
  refine ⟨fun c hc => Clause.read_text (Clause.grammatical_of_validate hc), fun a ha => Atom.read_text ha,
    fun text c hread => ?_, fun s ids => ?_⟩
  · have hagain : Clause.read c.text = .ok c := Clause.read_text (Clause.read_eq_ok_iff.mp hread).1
    exact ⟨hagain, by rw [hagain]; rfl⟩
  · obtain ⟨t, heach, hclauses, hconfig⟩ :=
      (empty s.config).exists_addEach_asAddition (fun c hc => validate_of_mem_clauses hc) ids
    have hsame : t.clauses = s.clauses := hclauses
    exact ⟨t, heach, hsame, hconfig, answersLike_of hsame hconfig⟩

/-- A text with blanks and an underscore is read, and the clause as written is read back; and the family
is rebuilt. -/
theorem family_transcript_rebuilds :
    Clause.read "likes(X, music)." = .ok (.fact ⟨"likes", [.var "X", .const "music"]⟩) ∧
    Atom.read "parent(a, _)" = .ok ⟨"parent", [.const "a", .var "_"]⟩ ∧
    Clause.read "near(X, Y) :- near(Y, X), place(_)." =
      .ok ⟨⟨"near", [.var "X", .var "Y"]⟩, [⟨"near", [.var "Y", .var "X"]⟩, ⟨"place", [.var "_"]⟩]⟩ ∧
    ∃ t, (KnowledgeStore.empty family.config).addEach (family.transcript .ofNat) = (.ok (), t) ∧
      t.AnswersLike family := by
  obtain ⟨hclause, hatom, hread, hstore⟩ := transcript_rebuilds
  have hnear : Clause.read "near(X,Y):-near( Y , X ),place(_) ." =
      .ok ⟨⟨"near", [.var "X", .var "Y"]⟩, [⟨"near", [.var "Y", .var "X"]⟩, ⟨"place", [.var "_"]⟩]⟩ := by
    decide +kernel
  obtain ⟨t, heach, -, -, halike⟩ := hstore family .ofNat
  refine ⟨hclause (.fact ⟨"likes", [.var "X", .const "music"]⟩) (by decide +kernel),
    hatom ⟨"parent", [.const "a", .var "_"]⟩ (by decide +kernel), (hread _ _ hnear).1, t, heach, halike⟩

end KnowledgeStore
end HornReasoner
