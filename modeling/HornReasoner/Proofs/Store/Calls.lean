/-
# A store only appends

A call asks to assert a clause, or asks for answers. The store appends the clause that is
offered, and answers with its identifier, if each of its atoms is well formed; else nothing
changes, as nothing does for a query (`KnowledgeStore.appended_perform_iff`,
`KnowledgeStore.unchanged_perform_iff`). So after a row of calls a store holds what it held
and then the accepted clauses of the calls in their order (`KnowledgeStore.appends_afterCalls`),
whatever was refused or asked in between, and all names in it are made of letters, digits
and underscores.

Key definitions: `StoreCall`, `StoreCall.Offers`, `StoreCall.accepted?`,
`KnowledgeStore.perform`, `KnowledgeStore.afterCalls`, `Clause.names`.
Key theorems: `Clause.isNameChar_of_mem_names`, `StoreCall.accepted?_eq_some_iff`,
`KnowledgeStore.appended_perform_iff`, `KnowledgeStore.unchanged_perform_iff`,
`KnowledgeStore.appends_afterCalls`, `KnowledgeStore.only_appends`.
-/
import HornReasoner.Proofs.Logic.Printing
import HornReasoner.Proofs.Store.Additions

namespace HornReasoner

/-! ### Names of a clause -/

/-- The name of the predicate and those of the arguments. -/
def Atom.names (a : Atom String) : List String :=
  a.predicate :: a.args.map Term.name

/-- The names in all atoms, those of the head first. -/
def Clause.names (c : Clause String) : List String :=
  (c.head :: c.body).flatMap Atom.names

/-- The characters of names by their ranges. -/
theorem isNameChar_iff_range {c : Char} : isNameChar c = true ↔
    ('A' ≤ c ∧ c ≤ 'Z') ∨ ('a' ≤ c ∧ c ≤ 'z') ∨ ('0' ≤ c ∧ c ≤ '9') ∨ c = '_' := by
  rw [isNameChar_iff, isAlpha_iff, isUpper_iff, isLower_iff, isDigit_iff, or_assoc, or_assoc]
  rfl

theorem Clause.validate_iff_atoms {c : Clause String} :
    c.validate = .ok () ↔ ∀ a ∈ c.head :: c.body, a.validate = .ok () := by
  rw [validate_eq_ok_iff, List.forall_mem_cons]

/-- The names of a well-formed clause are made of the characters of names. -/
theorem Clause.isNameChar_of_mem_names {c : Clause String} (hc : c.validate = .ok ()) {n : String}
    (hn : n ∈ c.names) : ∀ x ∈ n.toList, isNameChar x = true := by
  obtain ⟨a, ha, hn⟩ := List.mem_flatMap.mp hn
  obtain ⟨hgrammatical, -⟩ := Atom.validate_iff_grammatical.mp (validate_iff_atoms.mp hc a ha)
  rcases List.mem_cons.mp hn with rfl | hn
  · exact hgrammatical.predicate.2
  · obtain ⟨t, ht, rfl⟩ := List.mem_map.mp hn
    exact (hgrammatical.args t ht).name.2

/-! ### Calls -/

/-- A call of a store. -/
inductive StoreCall
  | add (addition : Addition)
  | query (goal : Atom String)
  | queryText (text : String)

/-- What a store replies. -/
inductive StoreReply
  | added (result : Except ClauseError Uuid)
  | answered (answers : Except QueryError (List Binding))

namespace StoreCall

/-- The call is to assert the clause, and the clause is of the kind that it asks for. -/
inductive Offers : StoreCall → Assertion → Prop
  | add {x : Addition} {a : Assertion} (h : x.Offers a) : Offers (.add x) a

/-- The clause that a store accepts from the call, if any. -/
def accepted? : StoreCall → Option Assertion
  | add x => x.accepted?
  | query _ => none
  | queryText _ => none

/-- **A clause is accepted** if its kind fits the call and each of its atoms is well formed. -/
theorem accepted?_eq_some_iff {call : StoreCall} {a : Assertion} : call.accepted? = some a ↔
    call.Offers a ∧ ∀ x ∈ a.clause.head :: a.clause.body, x.validate = .ok () := by
  rw [← Clause.validate_iff_atoms]
  constructor
  · intro h
    cases call with
    | add x =>
      obtain ⟨hoffers, hvalid⟩ := Addition.accepted?_eq_some_iff.mp h
      exact ⟨.add hoffers, hvalid⟩
    | query goal => cases h
    | queryText text => cases h
  · rintro ⟨⟨hoffers⟩, hvalid⟩
    exact Addition.accepted?_eq_some_iff.mpr ⟨hoffers, hvalid⟩

end StoreCall

namespace KnowledgeStore

variable {s : KnowledgeStore} {a : Assertion} {call : StoreCall}

/-- The reply to a call, and the store after it. -/
def perform (s : KnowledgeStore) : StoreCall → StoreReply × KnowledgeStore
  | .add x =>
    let (result, s) := s.add x
    (.added result, s)
  | .query goal => (.answered (s.query goal), s)
  | .queryText text => (.answered (s.queryText text), s)

/-- The store after a row of calls. -/
def afterCalls (s : KnowledgeStore) (calls : List StoreCall) : KnowledgeStore :=
  calls.foldl (fun s call => (s.perform call).2) s

/-! ### One call -/

/-- Nothing is added, and the store is as it was. -/
def Unchanged (s : KnowledgeStore) (outcome : StoreReply × KnowledgeStore) : Prop :=
  outcome.2 = s ∧ ∀ id, outcome.1 ≠ .added (.ok id)

/-- The clause is added at the end, and the reply is its identifier. -/
def Appended (s : KnowledgeStore) (a : Assertion) (outcome : StoreReply × KnowledgeStore) : Prop :=
  s.Appends [a] outcome.2 ∧ outcome.1 = .added (.ok a.id)

theorem appended_of_accepted (s : KnowledgeStore) (h : call.accepted? = some a) :
    s.Appended a (s.perform call) := by
  cases call with
  | add x =>
    obtain ⟨t, ht, happends⟩ := s.add_of_accepted h
    rw [perform, ht]
    exact ⟨happends, rfl⟩
  | query goal => cases h
  | queryText text => cases h

theorem unchanged_of_refused (s : KnowledgeStore) (h : call.accepted? = none) :
    s.Unchanged (s.perform call) := by
  cases call with
  | add x =>
    obtain ⟨e, he⟩ := s.add_of_refused h
    rw [perform, he]
    exact ⟨rfl, nofun⟩
  | query goal => exact ⟨rfl, nofun⟩
  | queryText text => exact ⟨rfl, nofun⟩

/-- **A clause is appended** exactly if it is accepted. -/
theorem appended_perform_iff : s.Appended a (s.perform call) ↔ call.accepted? = some a := by
  refine ⟨fun h => ?_, s.appended_of_accepted⟩
  cases haccept : call.accepted? with
  | some b =>
    have hsame := (s.appended_of_accepted haccept).1.assertions.symm.trans h.1.assertions
    rw [List.append_cancel_left_eq, List.cons.injEq] at hsame
    rw [hsame.1]
  | none => exact absurd h.2 ((s.unchanged_of_refused haccept).2 a.id)

/-- **Nothing changes** exactly if no clause is accepted. -/
theorem unchanged_perform_iff : s.Unchanged (s.perform call) ↔ call.accepted? = none := by
  refine ⟨fun h => ?_, s.unchanged_of_refused⟩
  cases haccept : call.accepted? with
  | some b => exact absurd (s.appended_of_accepted haccept).2 (h.2 b.id)
  | none => rfl

/-! ### Rows of calls -/

theorem afterCalls_append (s : KnowledgeStore) (earlier later : List StoreCall) :
    s.afterCalls (earlier ++ later) = (s.afterCalls earlier).afterCalls later :=
  List.foldl_append

/-- **A store holds what is accepted**, in order, after what it held. -/
theorem appends_afterCalls (calls : List StoreCall) (s : KnowledgeStore) :
    s.Appends (calls.filterMap StoreCall.accepted?) (s.afterCalls calls) := by
  induction calls generalizing s with
  | nil => exact .refl s
  | cons call calls ih =>
    have hrest := ih (s.perform call).2
    cases haccept : call.accepted? with
    | some a =>
      rw [List.filterMap_cons_some haccept]
      exact (s.appended_of_accepted haccept).1.trans hrest
    | none =>
      rw [(s.unchanged_of_refused haccept).1] at hrest
      rw [List.filterMap_cons_none haccept, afterCalls, List.foldl_cons,
        (s.unchanged_of_refused haccept).1]
      exact hrest

/-- The clauses in a store are accepted ones, so all names in them are made of characters of names. -/
theorem isNameChar_of_mem_names {calls : List StoreCall} {config : StoreConfig} {c : Clause String}
    (hc : c ∈ ((empty config).afterCalls calls).clauses) :
    c.validate = .ok () ∧ ∀ n ∈ c.names, ∀ x ∈ n.toList, isNameChar x = true := by
  obtain ⟨a, ha, rfl⟩ := List.mem_map.mp hc
  rw [(appends_afterCalls calls _).assertions] at ha
  obtain ⟨call, -, haccept⟩ := List.mem_filterMap.mp ha
  have hvalid := Clause.validate_iff_atoms.mpr (StoreCall.accepted?_eq_some_iff.mp haccept).2
  exact ⟨hvalid, fun n hn => Clause.isNameChar_of_mem_names hvalid hn⟩

/-- **A store only appends**, and what it holds is well formed. A call appends a clause, and is answered
with the identifier of this clause, exactly if it offers the clause as what it is and each atom is well
formed; and it leaves the store as it is exactly if it offers no such clause. At every moment of a row of
calls the store holds the clauses that were accepted so far, in order, and they remain the first ones. They
are well formed, and no name in them has another character than letters, digits and underscores; none has a
number sign. -/
theorem only_appends :
    (∀ (s : KnowledgeStore) (call : StoreCall),
      (∀ a, s.Appended a (s.perform call) ↔
        call.Offers a ∧ ∀ x ∈ a.clause.head :: a.clause.body, x.validate = .ok ()) ∧
      (s.Unchanged (s.perform call) ↔
        ∀ a, call.Offers a → ∃ x ∈ a.clause.head :: a.clause.body, x.validate ≠ .ok ())) ∧
    ∀ (config : StoreConfig) (earlier later : List StoreCall),
      ((empty config).afterCalls earlier).assertions = earlier.filterMap StoreCall.accepted? ∧
      ((empty config).afterCalls earlier).assertions <+:
        ((empty config).afterCalls (earlier ++ later)).assertions ∧
      ∀ c ∈ ((empty config).afterCalls earlier).clauses, c.validate = .ok () ∧
        ∀ n ∈ c.names, '#' ∉ n.toList ∧ ∀ x ∈ n.toList,
          ('A' ≤ x ∧ x ≤ 'Z') ∨ ('a' ≤ x ∧ x ≤ 'z') ∨ ('0' ≤ x ∧ x ≤ '9') ∨ x = '_' := by
  refine ⟨fun s call => ⟨fun a => ?_, ?_⟩, fun config earlier later => ⟨?_, ?_, ?_⟩⟩
  · rw [appended_perform_iff, StoreCall.accepted?_eq_some_iff]
  · rw [unchanged_perform_iff, Option.eq_none_iff_forall_ne_some]
    simp only [ne_eq, StoreCall.accepted?_eq_some_iff, not_and, not_forall, exists_prop]
  · exact (appends_afterCalls earlier (empty config)).assertions
  · rw [afterCalls_append, (appends_afterCalls later _).assertions]
    exact List.prefix_append _ _
  · intro c hc
    obtain ⟨hvalid, hnames⟩ := isNameChar_of_mem_names hc
    refine ⟨hvalid, fun n hn => ⟨fun hsign => ?_, fun x hx => isNameChar_iff_range.mp (hnames n hn x hx)⟩⟩
    exact absurd (hnames n hn '#' hsign) (by decide)

/-- A rule is refused as a fact and then accepted as a rule, under an identifier that is taken already; a
name with a number sign and an atom without arguments are refused. -/
theorem mortals_only_append :
    let rule : Clause String := ⟨⟨"mortal", [.var "X"]⟩, [⟨"human", [.var "X"]⟩]⟩
    let id := Uuid.ofNat 7
    let calls : List StoreCall :=
      [.add (.clause .fact ⟨id, .fact ⟨"human", [.const "plato"]⟩⟩), .add (.clause .fact ⟨id, rule⟩),
        .query ⟨"mortal", [.var "X"]⟩, .add (.clause .rule ⟨id, rule⟩),
        .add (.clause .fact ⟨id, .fact ⟨"old", []⟩⟩),
        .add (.clause .fact ⟨id, .fact ⟨"human", [.var "X#1"]⟩⟩), .add (.text .fact id "human(ada).")]
    ((empty {}).afterCalls calls).assertions =
        [⟨id, .fact ⟨"human", [.const "plato"]⟩⟩, ⟨id, rule⟩, ⟨id, .fact ⟨"human", [.const "ada"]⟩⟩] ∧
      rule ∈ ((empty {}).afterCalls calls).clauses ∧ '#' ∉ "mortal".toList ∧
      (empty {}).Appended ⟨id, rule⟩ ((empty {}).perform (.add (.clause .rule ⟨id, rule⟩))) ∧
      (empty {}).Unchanged ((empty {}).perform (.add (.clause .fact ⟨id, rule⟩))) := by
  intro rule id calls
  obtain ⟨hcalls, hruns⟩ := only_appends
  obtain ⟨haccepted, -, hnames⟩ := hruns {} calls []
  have hstored : ((empty {}).afterCalls calls).assertions =
      [⟨id, .fact ⟨"human", [.const "plato"]⟩⟩, ⟨id, rule⟩, ⟨id, .fact ⟨"human", [.const "ada"]⟩⟩] :=
    haccepted.trans (by decide +kernel)
  have hrule : rule ∈ ((empty {}).afterCalls calls).clauses := by
    rw [clauses, hstored]
    exact List.mem_cons_of_mem _ List.mem_cons_self
  refine ⟨hstored, hrule, ((hnames rule hrule).2 "mortal" (by decide)).1,
    ((hcalls _ _).1 _).mpr ⟨.add (.clause rfl), by decide +kernel⟩, (hcalls _ _).2.mpr ?_⟩
  rintro _ ⟨⟨⟨⟩⟩⟩

end KnowledgeStore
end HornReasoner
