/-
# Why texts are refused

The names in a text that reads as a clause are names already, and each argument is the term
that its name denotes. So a text that is to be asserted is refused for one of three reasons
(`Clause.TextRefused`): it does not read as a clause, the clause is of the wrong kind, or
some predicate starts with a digit, a capital letter or an underscore, and then the first
such is named. A goal given as a text has no answer for one of three reasons as well: it
does not read as a goal, its predicate starts like none, or the search was cut before
anything was found (`KnowledgeStore.queryText_eq_error_iff`).

Key definition: `Clause.TextRefused`.
Key theorems: `KnowledgeStore.assertText_eq_error_iff`, `KnowledgeStore.queryText_eq_error_iff`,
`KnowledgeStore.texts_refused`.
-/
import HornReasoner.Proofs.Logic.Checking
import HornReasoner.Proofs.Store.Facts

namespace HornReasoner

/-- Why a text is refused as a clause of a kind: it does not read as a clause, the clause is not of that
kind, or it has a predicate that starts like none; the first such is named. -/
inductive Clause.TextRefused (kind : ClauseKind) (text : String) : ClauseError → Prop
  | unreadable {e : SyntaxError} (h : Clause.read text = .error e) :
      TextRefused kind text (.unreadable e)
  | unfit {c : Clause String} (h : Clause.read text = .ok c) (hkind : kind.fits c = false) :
      TextRefused kind text (kind.unfit c)
  | predicate {c : Clause String} {a : Atom String} (h : Clause.read text = .ok c)
      (hkind : kind.fits c = true)
      (hfirst : (c.head :: c.body).find? (startsNoPredicate ·.predicate) = some a) :
      TextRefused kind text (.invalidName .predicate a.predicate)

namespace KnowledgeStore

variable {s : KnowledgeStore} {a : Atom String} {text : String} {e : ClauseError}

/-! ### Assertions -/

/-- **A grammatical clause** is refused for its first predicate that starts like none. -/
theorem append_eq_error_iff (s : KnowledgeStore) {x : Assertion} (hc : x.clause.Grammatical) :
    (s.append x).1 = .error e ↔
      ∃ a, (x.clause.head :: x.clause.body).find? (startsNoPredicate ·.predicate) = some a ∧
        e = .invalidName .predicate a.predicate := by
  have hvalidate := Clause.validate_of_grammatical hc
  cases hfirst : (x.clause.head :: x.clause.body).find? (startsNoPredicate ·.predicate) with
  | none =>
    rw [hfirst] at hvalidate
    obtain ⟨s', hs', -⟩ := s.append_of_valid hvalidate
    simp [hs']
  | some a =>
    rw [hfirst] at hvalidate
    rw [append_of_invalid s hvalidate]
    simp [eq_comm]

/-- **Texts are refused as facts and as rules alike.** -/
theorem assertText_eq_error_iff (s : KnowledgeStore) (kind : ClauseKind) (id : Uuid) :
    (s.assertText kind id text).1 = .error e ↔ Clause.TextRefused kind text e := by
  cases hread : Clause.read text with
  | error e' =>
    rw [assertText_of_unreadable hread]
    constructor
    · rintro ⟨⟩
      exact .unreadable hread
    · rintro (h | ⟨h, -⟩ | ⟨h, -⟩) <;> rw [hread] at h <;> cases h
      rfl
  | ok c =>
    have hgrammatical := (Clause.read_eq_ok_iff.mp hread).1
    rw [assertText_of_read hread, assert]
    cases hkind : kind.fits c with
    | false =>
      rw [if_neg Bool.false_ne_true]
      constructor
      · rintro ⟨⟩
        exact .unfit hread hkind
      · rintro (h | ⟨h, -⟩ | ⟨h, hkind', -⟩) <;> rw [hread] at h <;> cases h
        · rfl
        · rw [hkind] at hkind'
          cases hkind'
    | true =>
      rw [if_pos rfl, append_eq_error_iff s hgrammatical]
      constructor
      · rintro ⟨a, hfirst, rfl⟩
        exact .predicate hread hkind hfirst
      · rintro (h | ⟨h, hkind'⟩ | ⟨h, -, hfirst⟩) <;> rw [hread] at h <;> cases h
        · rw [hkind] at hkind'
          cases hkind'
        · exact ⟨_, hfirst, rfl⟩

/-! ### Queries -/

theorem queryText_of_readAtoms_error {e : SyntaxError} (h : readAtoms .goal text = .error e) :
    s.queryText text = .error (.unreadableGoal e) := by
  unfold queryText
  rw [Atom.read_eq_unreadable_iff.mpr h]
  rfl

theorem queryText_of_startsNoPredicate (h : readAtoms .goal text = .ok [a])
    (hstart : startsNoPredicate a.predicate = true) :
    s.queryText text = .error (.malformedGoal (.invalidName .predicate a.predicate)) := by
  unfold queryText
  rw [Atom.read_of_readAtoms h, if_pos hstart]
  rfl

/-- A well-formed goal is decided, or the search was cut. -/
theorem query_cases (hgoal : a.validate = .ok ()) :
    s.query a = .error (.depthLimitExceeded s.config.maxDepth) ∨ ∃ bs, s.query a = .ok bs := by
  rw [query_eq_solve s hgoal, solve_eq]
  split
  · exact Or.inl rfl
  · exact Or.inr ⟨_, rfl⟩

theorem queryText_of_startsPredicate (h : readAtoms .goal text = .ok [a])
    (hstart : startsNoPredicate a.predicate = false) :
    s.queryText text = .error (.depthLimitExceeded s.config.maxDepth) ∨ ∃ bs, s.queryText text = .ok bs := by
  have hread : Atom.read text = .ok a := by
    rw [Atom.read_of_readAtoms h, hstart, if_neg Bool.false_ne_true]
  have hquery : s.queryText text = s.query a := by
    unfold queryText
    rw [hread]
    rfl
  rw [hquery]
  exact query_cases (Atom.read_eq_ok_iff_readAtoms.mp hread).1

/-- **A goal given as a text has no answer** if it does not read as a goal, if its predicate starts like
none, or if the search was cut. -/
theorem queryText_eq_error_iff (s : KnowledgeStore) (text : String) :
    (∀ e, s.queryText text = .error (.unreadableGoal e) ↔ readAtoms .goal text = .error e) ∧
    (∀ e, s.queryText text = .error (.malformedGoal e) ↔ ∃ a, readAtoms .goal text = .ok [a] ∧
      startsNoPredicate a.predicate = true ∧ e = .invalidName .predicate a.predicate) ∧
    ∀ limit, s.queryText text = .error (.depthLimitExceeded limit) →
      limit = s.config.maxDepth ∧ ∃ a, Atom.read text = .ok a := by
  cases hread : readAtoms .goal text with
  | error e =>
    rw [queryText_of_readAtoms_error hread]
    simp
  | ok atoms =>
    obtain ⟨a, -, rfl⟩ := exists_atom_of_readAtoms hread
    cases hstart : startsNoPredicate a.predicate with
    | true =>
      rw [queryText_of_startsNoPredicate hread hstart]
      refine ⟨by simp, fun e => ⟨?_, ?_⟩, by simp⟩
      · rintro ⟨⟩
        exact ⟨a, rfl, hstart, rfl⟩
      · rintro ⟨_, ⟨⟩, -, rfl⟩
        rfl
    | false =>
      have hatom : Atom.read text = .ok a := by
        rw [Atom.read_of_readAtoms hread, hstart, if_neg Bool.false_ne_true]
      obtain hcut | ⟨bs, hbs⟩ := queryText_of_startsPredicate (s := s) hread hstart
      · rw [hcut]
        refine ⟨by simp, by simp [hstart], ?_⟩
        rintro limit ⟨⟩
        exact ⟨rfl, a, hatom⟩
      · rw [hbs]
        simp [hstart]

/-- **Texts are refused for few reasons.** The arguments of a clause that is read are well formed, and
there are some, so that checking it fails only for the first predicate that starts with a digit, a
capital letter or an underscore. A text is refused as a fact or as a rule because it does not read as a
clause, because the clause is of the other kind, or for such a predicate. A goal is refused as unreadable
exactly if it does not read as a goal, as malformed exactly for such a predicate, and else it is decided
unless the search was cut. And each name of a well-formed atom is found in itself as one token, and
denotes the argument that has it. -/
theorem texts_refused (s : KnowledgeStore) (text : String) :
    (∀ c, Clause.read text = .ok c →
      (∀ a ∈ c.head :: c.body, a.args ≠ [] ∧ ∀ t ∈ a.args, t.validate = .ok ()) ∧
      c.validate = match (c.head :: c.body).find? (startsNoPredicate ·.predicate) with
        | some a => .error (.invalidName .predicate a.predicate)
        | none => .ok ()) ∧
    (∀ kind id e, (s.assertText kind id text).1 = .error e ↔ Clause.TextRefused kind text e) ∧
    (∀ e, s.queryText text = .error (.unreadableGoal e) ↔ readAtoms .goal text = .error e) ∧
    (∀ e, s.queryText text = .error (.malformedGoal e) ↔ ∃ a, readAtoms .goal text = .ok [a] ∧
      startsNoPredicate a.predicate = true ∧ e = .invalidName .predicate a.predicate) ∧
    (∀ limit, s.queryText text = .error (.depthLimitExceeded limit) →
      limit = s.config.maxDepth ∧ ∃ a, Atom.read text = .ok a) ∧
    ∀ a : Atom String, a.validate = .ok () →
      tokens 0 a.predicate.toList = .ok [(0, .name a.predicate.toList)] ∧
      ∀ t ∈ a.args, tokens 0 t.name.toList = .ok [(0, .name t.name.toList)] ∧
        Term.ofIdentifier t.name = t := by
  obtain ⟨hunreadable, hmalformed, hcut⟩ := queryText_eq_error_iff s text
  refine ⟨fun c hread => ?_, fun kind id e => s.assertText_eq_error_iff kind id, hunreadable, hmalformed,
    hcut, fun a hvalid => ?_⟩
  · obtain ⟨hgrammatical, -⟩ := Clause.read_eq_ok_iff.mp hread
    have hatoms : ∀ a ∈ c.head :: c.body, a.Grammatical :=
      List.forall_mem_cons.mpr ⟨hgrammatical.head, hgrammatical.body⟩
    exact ⟨fun a ha => ⟨(hatoms a ha).args_ne_nil, fun t ht =>
      Term.validate_eq_ok_iff.mpr ((hatoms a ha).args t ht)⟩, Clause.validate_of_grammatical hgrammatical⟩
  · obtain ⟨hgrammatical, -⟩ := Atom.validate_iff_grammatical.mp hvalid
    refine ⟨tokens_name hgrammatical.predicate, fun t ht => ?_⟩
    obtain ⟨hname, hdenoted⟩ := Term.grammatical_iff.mp (hgrammatical.args t ht)
    exact ⟨tokens_name hname, hdenoted.symm⟩

/-- Of two predicates that start wrongly in a rule, the first one met is blamed. -/
theorem misnamedRule_refused :
    let text := "likes(X, ann) :- Knows(X, ann), 9lives(X)."
    let c : Clause String := ⟨⟨"likes", [.var "X", .const "ann"]⟩,
      [⟨"Knows", [.var "X", .const "ann"]⟩, ⟨"9lives", [.var "X"]⟩]⟩
    Clause.read text = .ok c ∧ (∀ a ∈ c.head :: c.body, a.args ≠ [] ∧ ∀ t ∈ a.args, t.validate = .ok ()) ∧
    ((empty {}).assertText .rule (.ofNat 0) text).1 = .error (.invalidName .predicate "Knows") ∧
    c.head.validate = .ok () ∧ tokens 0 "likes".toList = .ok [(0, .name "likes".toList)] := by
  intro text c
  have hread : Clause.read text = .ok c := by decide +kernel
  have hfirst : (c.head :: c.body).find? (startsNoPredicate ·.predicate) =
      some ⟨"Knows", [.var "X", .const "ann"]⟩ := by decide +kernel
  have hhead : c.head.validate = .ok () := by decide +kernel
  obtain ⟨harguments, hrefused, -, -, -, hnames⟩ := texts_refused (empty {}) text
  exact ⟨hread, (harguments c hread).1, (hrefused .rule _ _).mpr (.predicate hread rfl hfirst), hhead,
    (hnames c.head hhead).1⟩

end KnowledgeStore
end HornReasoner
