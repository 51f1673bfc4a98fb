/-
# An explanation of a proved goal lists what proved it

A goal is explained by the clauses that mention its predicate, and that is a search in
their texts: neither the proof nor the number of arguments is looked at. It misses nothing
all the same. A clause is written with the text of each of its atoms, and an atom with its
predicate first, so every clause that uses a predicate mentions it
(`KnowledgeStore.filter_uses_mentioning`). And the last step of a proof uses a clause for
the symbol of the goal (`KnowledgeStore.exists_clause_of_proves`). So what is said of a
goal that is true ends with a line for that clause at least, and a goal that is not true,
malformed and undecided goals among them, could not be proven
(`KnowledgeStore.explain_supported`).

Key definition: `Clause.uses`.
Key theorems: `Clause.mentions_of_uses`, `KnowledgeStore.exists_clause_of_proves`,
`KnowledgeStore.explain_supported`.
-/
import HornReasoner.Proofs.Logic.Grammar
import HornReasoner.Proofs.Store.Facts

namespace HornReasoner

/-! ### Clauses mention the predicates they use -/

/-- An atom of the clause has the predicate. -/
def Clause.uses {ν : Type} (c : Clause ν) (predicate : String) : Bool :=
  c.head.predicate == predicate || c.body.any fun a => a.predicate == predicate

/-- A row is a run of what it is joined into. -/
theorem isInfix_intercalate_of_mem {α : Type} (sep : List α) {row : List α} :
    ∀ {rows : List (List α)}, row ∈ rows → row <:+: sep.intercalate rows
  | r :: rows, h => by
    rw [intercalate_cons]
    rcases List.mem_cons.mp h with rfl | h
    · exact (List.prefix_append _ _).isInfix
    · have hrow : row <:+: sep ++ row := (List.suffix_append _ _).isInfix
      have hrows : sep ++ row <:+: rows.flatMap (sep ++ ·) :=
        List.infix_of_mem_flatten (List.mem_map_of_mem h)
      exact (hrow.trans hrows).trans (List.suffix_append _ _).isInfix

/-- An atom is written with its predicate first. -/
theorem Atom.predicate_isPrefix_text (a : Atom String) : a.predicate.toList <+: a.text.toList := by
  unfold text
  simp [String.toList_append, List.append_assoc]

theorem Clause.head_isPrefix_text (c : Clause String) : c.head.text.toList <+: c.text.toList := by
  unfold text
  split <;> simp [String.toList_append, List.append_assoc]

/-- A clause is written with the texts of the atoms of its body. -/
theorem Clause.body_isInfix_text {c : Clause String} {a : Atom String} (ha : a ∈ c.body) :
    a.text.toList <:+: c.text.toList := by
  have hrow : a.text.toList ∈ (c.body.map Atom.text).map String.toList :=
    List.mem_map_of_mem (List.mem_map_of_mem ha)
  have hjoined := isInfix_intercalate_of_mem (", " : String).toList hrow
  unfold text
  split
  · next hbody => simp [hbody] at ha
  · refine hjoined.trans ?_
    rw [String.toList_append, String.toList_append, String.toList_intercalate]
    exact List.infix_append _ _ _

/-- **A clause mentions the predicates it uses.** -/
theorem Clause.mentions_of_uses {c : Clause String} {predicate : String} (h : c.uses predicate = true) :
    c.mentions predicate = true := by
  rw [mentions, Text.mentions, Text.occursIn_iff_isInfix]
  rcases Bool.or_eq_true_iff.mp h with hhead | hbody
  · rw [← beq_iff_eq.mp hhead]
    exact ((Atom.predicate_isPrefix_text _).trans c.head_isPrefix_text).isInfix
  · obtain ⟨a, ha, hpredicate⟩ := List.any_eq_true.mp hbody
    rw [← beq_iff_eq.mp hpredicate]
    exact (Atom.predicate_isPrefix_text a).isInfix.trans (body_isInfix_text ha)

/-- Each clause has a line in a listing. -/
theorem line_isInfix_listing {c : Clause String} {cs : List (Clause String)} (h : c ∈ cs) :
    ("- " ++ c.text ++ "\n").toList <:+: (listing cs).toList := by
  rw [listing, String.toList_join, List.flatMap_map]
  exact List.infix_of_mem_flatten (List.mem_map_of_mem h)

namespace KnowledgeStore

variable {s : KnowledgeStore} {goal : Atom String} {c : Clause String}

/-- The clauses that use a predicate stand among those that mention it, in the order asserted. -/
theorem filter_uses_mentioning (s : KnowledgeStore) (predicate : String) :
    (s.mentioning predicate).filter (·.uses predicate) = s.clauses.filter (·.uses predicate) := by
  rw [mentioning, List.filter_filter]
  refine List.filter_congr fun c _ => ?_
  by_cases h : c.uses predicate = true
  · rw [h, Clause.mentions_of_uses h]; rfl
  · rw [Bool.eq_false_iff.mpr h]; rfl

theorem mem_mentioning_of_uses (hc : c ∈ s.clauses) {predicate : String}
    (h : c.uses predicate = true) : c ∈ s.mentioning predicate :=
  List.mem_filter.mpr ⟨hc, Clause.mentions_of_uses h⟩

theorem mem_mentioning_of_sameSymbol (hc : c ∈ s.clauses) (h : c.head.sameSymbol goal = true) :
    c ∈ s.mentioning goal.predicate :=
  mem_mentioning_of_uses hc (Bool.or_eq_true_iff.mpr (Or.inl (Bool.and_eq_true_iff.mp h).1))

/-! ### Proofs end with a clause for the goal -/

/-- **A goal that is proved has a clause for its predicate and number of arguments**: the one that its
derivation ends with. -/
theorem exists_clause_of_proves (h : s.Proves goal) :
    ∃ c ∈ s.clauses, c.head.sameSymbol goal = true := by
  obtain ⟨θ, hderivable⟩ := (proves_iff (validate_of_proves h) (room_of_proves h)).mp h
  obtain ⟨c', hc', θ', hhead, -⟩ := derivable_iff.mp hderivable
  obtain ⟨c, hc, rfl⟩ := List.mem_map.mp hc'
  obtain ⟨hpredicate, hargs⟩ := Atom.mk.inj hhead
  have hlength := congrArg List.length hargs
  refine ⟨c, hc, Bool.and_eq_true_iff.mpr ⟨beq_iff_eq.mpr hpredicate.symm, beq_iff_eq.mpr ?_⟩⟩
  simpa [Clause.apart, Atom.apart] using hlength.symm

/-! ### Explanations -/

theorem reason_truth_of_error {e : QueryError} (h : s.query goal = .error e) :
    (s.reason goal).truth = false := by
  rw [Bool.eq_false_iff, ne_eq, reason_truth_iff]
  rintro ⟨bs, hquery, -⟩
  rw [h] at hquery
  cases hquery

/-- **Explanations of proved goals list what proved them.** Among the clauses that mention the predicate
of a goal, in the order asserted, stand all that use it. If the goal is true, one of them is for its
predicate and its number of arguments, and it is explained as true by the list of them, in which each
clause that uses the predicate has a line. Any other goal could not be proven; so it is said of
malformed goals, and of those whose query is an error. -/
theorem explain_supported (s : KnowledgeStore) (goal : Atom String) :
    (s.mentioning goal.predicate).Sublist s.clauses ∧
    (s.mentioning goal.predicate).filter (·.uses goal.predicate) =
      s.clauses.filter (·.uses goal.predicate) ∧
    ((s.reason goal).truth = true →
      (∃ c ∈ s.mentioning goal.predicate, c.head.sameSymbol goal = true) ∧
      s.explain goal = "The query '" ++ goal.text ++ "' is true with " ++
        Decimal.percent (s.reason goal).confidence ++
        " confidence.\nThis conclusion is based on the following facts and rules:\n" ++
        listing (s.mentioning goal.predicate) ∧
      ∀ c ∈ s.clauses, c.uses goal.predicate = true →
        ("- " ++ c.text ++ "\n").toList <:+: (s.explain goal).toList) ∧
    ((s.reason goal).truth = false ∨ goal.validate ≠ .ok () ∨ (∃ e, s.query goal = .error e) →
      s.explain goal =
        "The query '" ++ goal.text ++ "' could not be proven based on the current knowledge base.") := by
  refine ⟨List.filter_sublist, filter_uses_mentioning s _, fun htruth => ?_, fun hother => ?_⟩
  · have hexplain : s.explain goal = _ := if_pos htruth
    refine ⟨?_, hexplain, fun c hc huses => ?_⟩
    · obtain ⟨c, hc, hhead⟩ := exists_clause_of_proves (reason_truth_iff.mp htruth)
      exact ⟨c, mem_mentioning_of_sameSymbol hc hhead, hhead⟩
    · refine (line_isInfix_listing (mem_mentioning_of_uses hc huses)).trans ?_
      rw [hexplain, String.toList_append]
      exact (List.suffix_append _ _).isInfix
  · have hfalse : (s.reason goal).truth = false := by
      rcases hother with h | h | ⟨e, h⟩
      · exact h
      · rw [Bool.eq_false_iff, ne_eq, reason_truth_iff]
        exact fun hproves => h (validate_of_proves hproves)
      · exact reason_truth_of_error h
    have hnot : ¬ (s.reason goal).truth = true := by rw [hfalse]; exact Bool.false_ne_true
    exact if_neg hnot

/-- That `a` is an ancestor of `c` is explained with the rule that ends its proof; for `d` the search is
cut off before there is one. -/
theorem family_explained :
    (∃ c ∈ family.mentioning "ancestor",
      c.head.sameSymbol (⟨"ancestor", [.const "a", .const "c"]⟩ : Atom String) = true) ∧
    family.explain ⟨"ancestor", [.const "a", .const "d"]⟩ =
      "The query 'ancestor(a, d)' could not be proven based on the current knowledge base." := by
  obtain ⟨-, -, hproved, -⟩ := explain_supported family ⟨"ancestor", [.const "a", .const "c"]⟩
  obtain ⟨-, -, -, hother⟩ := explain_supported family ⟨"ancestor", [.const "a", .const "d"]⟩
  exact ⟨(hproved (by decide +kernel)).1,
    hother (.inr (.inr ⟨.depthLimitExceeded 2, by decide +kernel⟩))⟩

end KnowledgeStore
end HornReasoner
