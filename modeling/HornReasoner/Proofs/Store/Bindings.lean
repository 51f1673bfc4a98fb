/-
# What an answer shows

An answer has an entry for each variable that its goal asks for and no others
(`mem_keys_of_mem_answers`): a goal without variables has the empty answer only, and a who
question has a name in each of its answers. The value of an entry is the constant that a
proof binds the variable to, and that is one of the goal or of the stored clauses, or it is
the underscore that stands for any value (`KnowledgeStore.bindings_show_names`). The
variables of the copies that a proof makes of clauses have no names to be shown by: keys
and values are made of the characters of names, as in well-formed goals and clauses.

Key theorems: `mem_keys_of_mem_answers`, `const_mem_of_mem_answers`,
`KnowledgeStore.bindings_show_names`.
-/
import HornReasoner.Dialogue.Intent
import HornReasoner.Proofs.Map.Entries
import HornReasoner.Proofs.Resolution.Origin
import HornReasoner.Proofs.Store.Constants

namespace HornReasoner

variable {clauses : List (Clause String)} {goal : Atom String} {depth : Nat} {b : Binding}

/-! ### Answers by recursion -/

/-- The keys of an answer are the variables that the goal asks for. -/
theorem mem_keys_of_mem_answers (h : b ∈ (answersByRecursion clauses goal depth).answers) {v : String} :
    v ∈ b.keys ↔ v ∈ goal.asked := by
  obtain ⟨branch, -, rfl⟩ := List.mem_map.mp h
  rw [SortedMap.mem_keys_ofList, List.map_map]
  show v ∈ goal.asked.map id ↔ v ∈ goal.asked
  rw [List.map_id]

/-- The values of an answer are constants of the goal and of the clauses, or left open. -/
theorem const_mem_of_mem_answers (h : b ∈ (answersByRecursion clauses goal depth).answers)
    {e : String × String} (he : e ∈ b.toList) :
    e.2 = "_" ∨ .const e.2 ∈ goal.args ∨ ∃ c ∈ clauses, .const e.2 ∈ c.args := by
  obtain ⟨branch, hbranch, rfl⟩ := List.mem_map.mp h
  obtain ⟨-, hshown⟩ := SortedMap.mem_ofList_map.mp he
  cases hvalue : branch.subst.apply ⟨0, .named e.1⟩ with
  | var w => exact Or.inl (hshown.trans (congrArg Term.shown hvalue))
  | const x =>
    have hx : e.2 = x := hshown.trans (congrArg Term.shown hvalue)
    rw [hx]
    refine Or.inr ((const_mem_of_proveAtom hbranch hvalue).imp Atom.const_mem_of_apart ?_)
    rintro ⟨c', hc', hmem⟩
    obtain ⟨c, hc, rfl⟩ := List.mem_map.mp hc'
    exact ⟨c, hc, Clause.const_mem_of_apart hmem⟩

/-- A ground goal asks for nothing. -/
theorem Atom.asked_of_isGround (h : goal.isGround = true) : goal.asked = [] := by
  rw [List.eq_nil_iff_forall_not_mem]
  intro v hv
  have hterm := List.all_eq_true.mp h _ (mem_asked.mp hv).1
  exact Bool.false_ne_true hterm

/-! ### Names -/

/-- The constants of a well-formed clause are names. -/
theorem Clause.isName_of_mem_args {c : Clause String} (hc : c.validate = .ok ()) {x : String}
    (hx : .const x ∈ c.args) : IsName x.toList :=
  (isConstantName_iff.mp (isConstantName_of_mem_args hc hx)).1

/-- Constants and variables of a well-formed goal are names. -/
theorem Atom.isName_of_mem_args (hgoal : goal.validate = .ok ()) {t : Term String} (ht : t ∈ goal.args) :
    IsName t.name.toList :=
  (Term.grammatical_iff.mp (Term.validate_eq_ok_iff.mp ((Atom.validate_eq_ok_iff.mp hgoal).2.2 t ht))).1

namespace KnowledgeStore

/-- **Answers show names of the goal and of the stored clauses only.** The keys of an answer are the
variables of the goal that do not start with an underscore, each once. So a goal without variables has
no answer but the empty one, and every answer to a who question has a value for its variable. Each value
is the underscore or a constant of the goal or of a stored clause. Keys and values are made of letters,
digits and underscores: nothing tells of the copies of clauses that a proof has made. -/
theorem bindings_show_names (s : KnowledgeStore) (goal : Atom String) (bs : List Binding)
    (h : s.query goal = .ok bs) (b : Binding) (hb : b ∈ bs) :
    (∀ v, v ∈ b.keys ↔ .var v ∈ goal.args ∧ v.toList.head? ≠ some '_') ∧ b.keys.Nodup ∧
    (goal.isGround = true → b = .empty) ∧
    (∀ predicate, (Intent.question (.who predicate)).goal? = some goal →
      ∃ name, b.get? whoVariable = some name) ∧
    (∀ e ∈ b.toList, e.2 = "_" ∨ .const e.2 ∈ goal.args ∨ ∃ c ∈ s.clauses, .const e.2 ∈ c.args) ∧
    ∀ e ∈ b.toList, IsName e.1.toList ∧ IsName e.2.toList := by
  have hgoal := validate_of_query h
  have hmem := mem_answers_of_query h hb
  have hkeys (v : String) : v ∈ b.keys ↔ v ∈ goal.asked := mem_keys_of_mem_answers hmem
  have hvalues (e : String × String) (he : e ∈ b.toList) := const_mem_of_mem_answers hmem he
  refine ⟨fun v => (hkeys v).trans Atom.mem_asked, b.nodup, fun hground => ?_, fun p hp => ?_, hvalues,
    fun e he => ⟨?_, ?_⟩⟩
  · obtain ⟨branch, -, rfl⟩ := List.mem_map.mp hmem
    rw [Atom.asked_of_isGround hground]
    rfl
  · obtain ⟨branch, -, rfl⟩ := List.mem_map.mp hmem
    rw [← Option.some.inj hp]
    exact ⟨_, SortedMap.get?_ofList_map ..⟩
  · have hasked := Atom.mem_asked.mp ((hkeys e.1).mp (List.mem_map.mpr ⟨e, he, rfl⟩))
    exact Atom.isName_of_mem_args hgoal hasked.1
  · rcases hvalues e he with hopen | hconst | ⟨c, hc, hconst⟩
    · rw [hopen]
      exact (isVariableName_iff.mp (by decide)).1
    · exact Atom.isName_of_mem_args hgoal hconst
    · exact Clause.isName_of_mem_args (validate_of_mem_clauses hc) hconst

/-- Ada introduces everybody to themselves, and who introduces one to another knows both. -/
def introductions : KnowledgeStore :=
  ofClauses {}
    [⟨⟨"knows", [.var "X", .var "Y", .var "Z"]⟩, [⟨"introduces", [.var "X", .var "Y", .var "Z"]⟩]⟩,
      .fact ⟨"introduces", [.const "ada", .var "X", .var "X"]⟩]

/-- It is Ada who knows them, it does not matter whom, and the last variable is not asked for. -/
theorem introductions_show_names :
    (∀ v, v ∈ (SortedMap.ofList [("V", "_"), ("W", "ada")]).keys ↔
      .var v ∈ ([.var "W", .var "V", .var "_Z"] : List (Term String)) ∧ v.toList.head? ≠ some '_') ∧
    ∃ c ∈ introductions.clauses, .const "ada" ∈ c.args := by
  obtain ⟨hkeys, -, -, -, hvalues, -⟩ := bindings_show_names introductions
    ⟨"knows", [.var "W", .var "V", .var "_Z"]⟩ [.ofList [("V", "_"), ("W", "ada")]] (by decide +kernel)
    (.ofList [("V", "_"), ("W", "ada")]) (List.mem_singleton_self _)
  refine ⟨hkeys, ?_⟩
  rcases hvalues ("W", "ada") (by decide +kernel) with hopen | hgoal | hclause
  · exact absurd hopen (by decide)
  · exact absurd hgoal (by decide)
  · exact hclause

end KnowledgeStore
end HornReasoner
