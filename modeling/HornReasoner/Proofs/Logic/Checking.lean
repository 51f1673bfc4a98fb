/-
# What is left to check after reading

A text that reads as a clause or as a goal has grammatical atoms, so each of its arguments
is well formed and there is one at least. Of a well-formed atom, only the first character of
the predicate is left to check: a name that starts with a digit, a capital letter or an
underscore names no predicate (`isPredicateName_of_isName`), and the first atom with such a
predicate is the reason why a clause is refused (`Clause.validate_of_grammatical`). So
reading a goal fails for its text or for its predicate (`Atom.read_of_readAtoms`,
`Atom.read_eq_unreadable_iff`).

The other way round, a name is found in itself as one token (`tokens_name`).

Key definition: `startsNoPredicate`.
Key theorems: `Atom.validate_of_grammatical`, `Clause.validate_of_grammatical`,
`Clause.read_eq_error_iff`, `Atom.read_eq_unreadable_iff`, `tokens_name`.
-/
import HornReasoner.Proofs.Logic.Grammar

namespace HornReasoner

variable {s : String} {atoms : List (Atom String)} {a : Atom String} {c : Clause String}
  {e : SyntaxError}

/-! ### Names of predicates -/

/-- The name starts with a digit, a capital letter or an underscore. -/
def startsNoPredicate (s : String) : Bool :=
  match s.toList with
  | [] => false
  | c :: _ => c.isDigit || c.isUpper || c == '_'

theorem startsNoPredicate_iff {c : Char} {cs : List Char} (hs : s.toList = c :: cs) :
    startsNoPredicate s = true ↔ (c.isDigit = true ∨ c.isUpper = true) ∨ c = '_' := by
  unfold startsNoPredicate
  rw [hs]
  simp

/-- **A name is that of a predicate** unless it starts like no predicate. -/
theorem isPredicateName_of_isName (h : IsName s.toList) : isPredicateName s = !startsNoPredicate s := by
  obtain ⟨c, cs, hs⟩ := List.exists_cons_of_ne_nil h.1
  have hc : isNameChar c = true := h.2 c (hs ▸ List.mem_cons_self)
  have hlower : c.isLower = true ↔ ¬ ((c.isDigit = true ∨ c.isUpper = true) ∨ c = '_') := by
    rw [isNameChar_iff, isAlpha_iff] at hc
    constructor
    · intro hlower hstart
      rw [isLower_iff] at hlower
      rw [isDigit_iff, isUpper_iff] at hstart
      rcases hstart with hstart | rfl
      · omega
      · revert hlower
        decide
    · intro hstart
      tauto
  rw [← startsNoPredicate_iff hs, Bool.not_eq_true] at hlower
  rw [Bool.eq_iff_iff, isPredicateName_iff, Bool.not_eq_true', ← hlower]
  constructor
  · rintro ⟨-, d, ds, hds, hd⟩
    obtain ⟨rfl, -⟩ := List.cons.inj (hs.symm.trans hds)
    exact hd
  · exact fun hd => ⟨h, c, cs, hs, hd⟩

/-! ### Checking what was read -/

/-- **A grammatical atom** is refused for its predicate only. -/
theorem Atom.validate_of_grammatical (h : a.Grammatical) : a.validate =
    if startsNoPredicate a.predicate then .error (.invalidName .predicate a.predicate) else .ok () := by
  cases hstart : startsNoPredicate a.predicate with
  | true =>
    have hp : isPredicateName a.predicate = false := by
      rw [isPredicateName_of_isName h.predicate, hstart]
      rfl
    rw [Atom.validate, hp]
    rfl
  | false =>
    have hp : isPredicateName a.predicate = true := by
      rw [isPredicateName_of_isName h.predicate, hstart]
      rfl
    exact Atom.validate_eq_ok_iff.mpr
      ⟨hp, h.args_ne_nil, fun t ht => Term.validate_eq_ok_iff.mpr (h.args t ht)⟩

/-- A row of checks fails with the first that fails. -/
theorem forM_eq_find? {ε α : Type} {f : α → Except ε Unit} {p : α → Bool} {error : α → ε} :
    ∀ {l : List α}, (∀ x ∈ l, f x = if p x then .error (error x) else .ok ()) →
      l.forM f = match l.find? p with | some x => .error (error x) | none => .ok ()
  | [], _ => rfl
  | x :: l, h => by
    obtain ⟨hx, hl⟩ := List.forall_mem_cons.mp h
    rw [List.forM, hx, List.find?_cons]
    cases p x with
    | true => rfl
    | false =>
      rw [← forM_eq_find? hl]
      rfl

/-- **A grammatical clause** is refused for its first atom whose predicate starts like none. -/
theorem Clause.validate_of_grammatical (h : c.Grammatical) : c.validate =
    match (c.head :: c.body).find? (startsNoPredicate ·.predicate) with
    | some a => .error (.invalidName .predicate a.predicate)
    | none => .ok () := by
  have hatoms : ∀ a ∈ c.head :: c.body, a.Grammatical := List.forall_mem_cons.mpr ⟨h.head, h.body⟩
  show (c.head :: c.body).forM Atom.validate = _
  rw [forM_eq_find? fun a ha => Atom.validate_of_grammatical (hatoms a ha)]
  cases (c.head :: c.body).find? (startsNoPredicate ·.predicate) <;> rfl

/-! ### Reading and checking -/

theorem exists_clause_of_readAtoms (h : readAtoms .clause s = .ok atoms) :
    ∃ c : Clause String, c.head :: c.body = atoms := by
  obtain ⟨ps, -, hleads⟩ := readAtoms_eq_ok_iff_tokens.mp h
  obtain ⟨c, -, -, hatoms⟩ := Reading.leads_start_clause.mp hleads
  exact ⟨c, hatoms⟩

theorem exists_atom_of_readAtoms (h : readAtoms .goal s = .ok atoms) :
    ∃ a : Atom String, a.Grammatical ∧ [a] = atoms := by
  obtain ⟨ps, htokens, hleads⟩ := readAtoms_eq_ok_iff_tokens.mp h
  obtain ⟨a, hdenoted, hts, hatoms⟩ := Reading.leads_start_goal.mp hleads
  have hnames := (spells_of_tokens htokens).2
  refine ⟨a, Atom.grammatical_iff.mpr ⟨hdenoted, fun n hn => hnames n ?_⟩, hatoms⟩
  rcases hts with hts | hts <;> rw [hts]
  · exact hn
  · exact List.mem_append_left _ hn

/-- A text is read as a clause unless its atoms are not found. -/
theorem Clause.read_eq_error_iff : Clause.read s = .error e ↔ readAtoms .clause s = .error e := by
  unfold Clause.read
  cases hread : readAtoms .clause s with
  | error e' => simp [bind, Except.bind]
  | ok atoms =>
    obtain ⟨c, rfl⟩ := exists_clause_of_readAtoms hread
    simp [bind, Except.bind, pure, Except.pure]

theorem Clause.exists_read_iff : (∃ c, Clause.read s = .ok c) ↔ ∃ atoms, readAtoms .clause s = .ok atoms := by
  constructor
  · rintro ⟨c, hc⟩
    exact ⟨_, Clause.read_eq_ok_iff_readAtoms.mp hc⟩
  · rintro ⟨atoms, hatoms⟩
    obtain ⟨c, rfl⟩ := exists_clause_of_readAtoms hatoms
    exact ⟨c, Clause.read_eq_ok_iff_readAtoms.mpr hatoms⟩

/-- **A goal whose atom is found** is refused for its predicate only. -/
theorem Atom.read_of_readAtoms (h : readAtoms .goal s = .ok [a]) : Atom.read s =
    if startsNoPredicate a.predicate then .error (.invalidName .predicate a.predicate) else .ok a := by
  obtain ⟨b, hgrammatical, hb⟩ := exists_atom_of_readAtoms h
  cases hb
  unfold Atom.read
  rw [h]
  dsimp only
  rw [Atom.validate_of_grammatical hgrammatical]
  split <;> rfl

/-- A goal is unreadable if its atom is not found. -/
theorem Atom.read_eq_unreadable_iff :
    Atom.read s = .error (.unreadable e) ↔ readAtoms .goal s = .error e := by
  cases hread : readAtoms .goal s with
  | error e' =>
    unfold Atom.read
    rw [hread]
    simp [throw, throwThe, MonadExceptOf.throw]
  | ok atoms =>
    obtain ⟨a, -, rfl⟩ := exists_atom_of_readAtoms hread
    rw [Atom.read_of_readAtoms hread]
    split <;> simp

/-! ### A name is one token -/

/-- **A name is found in itself** as one token. -/
theorem tokens_name {n : List Char} (h : IsName n) : tokens 0 n = .ok [(0, .name n)] := by
  have hlexes : Lexes 0 (n ++ []) [(0, .name n)] := .name h nofun .done
  rw [List.append_nil] at hlexes
  exact tokens_of_lexes hlexes

end HornReasoner
