/-
# Requests to assert

A request offers a clause with an identifier: the clause itself, or the one that a text
reads as. If the clause is of the kind asked for and well formed, the store appends it and
answers with its identifier (`KnowledgeStore.add_of_accepted`); else the answer is an error
and the store is as it was (`KnowledgeStore.add_of_refused`). Requests in a row are answered
up to the first that is refused, so they append the clauses of some of them
(`KnowledgeStore.exists_appends_addEach`), and of all if none is refused
(`KnowledgeStore.addEach_of_accepted`).

Key definitions: `Addition.Offers`, `Addition.accepted?`, `KnowledgeStore.Appends`,
`KnowledgeStore.ofClauses`.
Key theorems: `Addition.accepted?_eq_some_iff`, `KnowledgeStore.add_of_accepted`,
`KnowledgeStore.add_of_refused`, `KnowledgeStore.addEach_of_accepted`.
-/
import HornReasoner.Store.Basic
import Mathlib.Data.List.Forall2

namespace HornReasoner

theorem toOption_eq_some_iff {ε α : Type} {r : Except ε α} {a : α} : r.toOption = some a ↔ r = .ok a := by
  cases r <;> simp [Except.toOption]

/-! ### What is accepted -/

namespace ClauseKind

/-- The clause, if it is of the kind and well formed. -/
def accept? (kind : ClauseKind) (a : Assertion) : Option Assertion :=
  if kind.fits a.clause ∧ a.clause.validate = .ok () then some a else none

theorem accept?_eq_some_iff {kind : ClauseKind} {a b : Assertion} : kind.accept? a = some b ↔
    b = a ∧ kind.fits b.clause = true ∧ b.clause.validate = .ok () := by
  unfold accept?
  rw [Option.ite_none_right_eq_some, Option.some.injEq, and_comm, eq_comm]
  exact and_congr_right fun h => h ▸ Iff.rfl

end ClauseKind

/-- As what the clause can be asserted. -/
def Clause.kind (c : Clause String) : ClauseKind :=
  if c.isFact then .fact else .rule

theorem Clause.fits_kind (c : Clause String) : c.kind.fits c = true := by
  unfold kind
  split
  · next hfact => exact hfact
  · next hrule => simpa [ClauseKind.fits, isRule, isFact] using hrule

namespace Addition

/-- The request is to assert the clause, and the clause is of the kind that it asks for. -/
inductive Offers : Addition → Assertion → Prop
  | clause {kind : ClauseKind} {a : Assertion} (h : kind.fits a.clause = true) : Offers (.clause kind a) a
  | text {kind : ClauseKind} {text : String} {c : Clause String} (id : Uuid)
      (hread : Clause.read text = .ok c) (h : kind.fits c = true) : Offers (.text kind id text) ⟨id, c⟩

/-- The clause that a store accepts on the request, if any. -/
def accepted? : Addition → Option Assertion
  | .clause kind a => kind.accept? a
  | .text kind id source => (Clause.read source).toOption.bind fun c => kind.accept? ⟨id, c⟩

/-- **A clause is accepted** if it is offered as what it is and is well formed. -/
theorem accepted?_eq_some_iff {x : Addition} {a : Assertion} :
    x.accepted? = some a ↔ x.Offers a ∧ a.clause.validate = .ok () := by
  constructor
  · intro h
    cases x with
    | clause kind b =>
      obtain ⟨rfl, hfits, hvalid⟩ := ClauseKind.accept?_eq_some_iff.mp h
      exact ⟨.clause hfits, hvalid⟩
    | text kind id text =>
      obtain ⟨c, hread, haccept⟩ := Option.bind_eq_some_iff.mp h
      obtain ⟨rfl, hfits, hvalid⟩ := ClauseKind.accept?_eq_some_iff.mp haccept
      exact ⟨.text id (toOption_eq_some_iff.mp hread) hfits, hvalid⟩
  · rintro ⟨hoffers, hvalid⟩
    cases hoffers with
    | clause hfits => exact ClauseKind.accept?_eq_some_iff.mpr ⟨rfl, hfits, hvalid⟩
    | text id hread hfits =>
      exact Option.bind_eq_some_iff.mpr ⟨_, toOption_eq_some_iff.mpr hread,
        ClauseKind.accept?_eq_some_iff.mpr ⟨rfl, hfits, hvalid⟩⟩

end Addition

namespace KnowledgeStore

variable {s t u : KnowledgeStore} {a : Assertion} {as bs : List Assertion} {x : Addition}

/-! ### Stores with more clauses -/

/-- The second store is the first with these clauses after its own. -/
structure Appends (s : KnowledgeStore) (as : List Assertion) (t : KnowledgeStore) : Prop where
  assertions : t.assertions = s.assertions ++ as
  config : t.config = s.config

theorem Appends.refl (s : KnowledgeStore) : s.Appends [] s :=
  ⟨(List.append_nil _).symm, rfl⟩

theorem Appends.trans (h : s.Appends as t) (h' : t.Appends bs u) : s.Appends (as ++ bs) u :=
  ⟨by rw [h'.assertions, h.assertions, List.append_assoc], h'.config.trans h.config⟩

theorem Appends.clauses (h : s.Appends as t) : t.clauses = s.clauses ++ as.map Assertion.clause := by
  rw [KnowledgeStore.clauses, h.assertions, List.map_append]
  rfl

/-! ### One request -/

theorem append_of_valid (s : KnowledgeStore) (h : a.clause.validate = .ok ()) :
    ∃ t, s.append a = (.ok a.id, t) ∧ s.Appends [a] t := by
  unfold append
  split
  · next e he => rw [h] at he; cases he
  · exact ⟨_, rfl, rfl, rfl⟩

theorem append_of_invalid (s : KnowledgeStore) {e : ClauseError} (h : a.clause.validate = .error e) :
    s.append a = (.error e, s) := by
  unfold append
  split
  · next e' he => rw [h] at he; cases he; rfl
  · next he => rw [h] at he; cases he

theorem assert_of_fits {kind : ClauseKind} (hfits : kind.fits a.clause = true) : s.assert kind a = s.append a :=
  if_pos hfits

theorem assert_of_accepted (s : KnowledgeStore) (kind : ClauseKind) (hfits : kind.fits a.clause = true)
    (h : a.clause.validate = .ok ()) : ∃ t, s.assert kind a = (.ok a.id, t) ∧ s.Appends [a] t := by
  rw [assert_of_fits hfits]
  exact s.append_of_valid h

theorem assert_of_refused (s : KnowledgeStore) {kind : ClauseKind} (h : kind.accept? a = none) :
    ∃ e, s.assert kind a = (.error e, s) := by
  unfold assert
  split
  · next hfits =>
    cases hvalidate : a.clause.validate with
    | error e => exact ⟨e, s.append_of_invalid hvalidate⟩
    | ok _ => rw [ClauseKind.accept?, if_pos ⟨hfits, hvalidate⟩] at h; cases h
  · exact ⟨_, rfl⟩

/-- A text that reads as a clause asserts that clause. -/
theorem assertText_of_read {kind : ClauseKind} {id : Uuid} {text : String} {c : Clause String}
    (h : Clause.read text = .ok c) : s.assertText kind id text = s.assert kind ⟨id, c⟩ := by
  rw [assertText, h]

theorem assertText_of_unreadable {kind : ClauseKind} {id : Uuid} {text : String} {e : SyntaxError}
    (h : Clause.read text = .error e) : s.assertText kind id text = (.error (.unreadable e), s) := by
  rw [assertText, h]

/-- **What is accepted is appended**, and the answer is its identifier. -/
theorem add_of_accepted (s : KnowledgeStore) (h : x.accepted? = some a) :
    ∃ t, s.add x = (.ok a.id, t) ∧ s.Appends [a] t := by
  obtain ⟨hoffers, hvalid⟩ := Addition.accepted?_eq_some_iff.mp h
  cases hoffers with
  | clause hfits => exact s.assert_of_accepted _ hfits hvalid
  | text id hread hfits =>
    rw [add, assertText_of_read hread]
    exact s.assert_of_accepted _ hfits hvalid

/-- **A refusal changes nothing.** -/
theorem add_of_refused (s : KnowledgeStore) (h : x.accepted? = none) : ∃ e, s.add x = (.error e, s) := by
  cases x with
  | clause kind a => exact s.assert_of_refused h
  | text kind id text =>
    cases hread : Clause.read text with
    | error e => exact ⟨_, assertText_of_unreadable hread⟩
    | ok c =>
      rw [Addition.accepted?, hread] at h
      rw [add, assertText_of_read hread]
      exact s.assert_of_refused h

/-- An answer with an identifier is that of a clause that was appended. -/
theorem accepted_of_add {id : Uuid} (h : s.add x = (.ok id, t)) :
    ∃ a, x.accepted? = some a ∧ id = a.id ∧ s.Appends [a] t := by
  cases haccept : x.accepted? with
  | none =>
    obtain ⟨e, he⟩ := s.add_of_refused haccept
    rw [he] at h
    cases h
  | some a =>
    obtain ⟨u, hu, happends⟩ := s.add_of_accepted haccept
    rw [hu] at h
    cases h
    exact ⟨a, rfl, rfl, happends⟩

/-- A request appends the clause that is accepted on it, or nothing. -/
theorem appends_add (s : KnowledgeStore) (x : Addition) : s.Appends x.accepted?.toList (s.add x).2 := by
  cases haccept : x.accepted? with
  | none =>
    obtain ⟨e, he⟩ := s.add_of_refused haccept
    rw [he]
    exact .refl s
  | some a =>
    obtain ⟨t, ht, happends⟩ := s.add_of_accepted haccept
    rw [ht]
    exact happends

/-! ### Requests in a row -/

/-- Requests append clauses, also if one is refused and the rest is not answered. -/
theorem exists_appends_addEach (xs : List Addition) (s : KnowledgeStore) :
    ∃ as, s.Appends as (s.addEach xs).2 := by
  induction xs generalizing s with
  | nil => exact ⟨[], .refl s⟩
  | cons x xs ih =>
    have hfirst := s.appends_add x
    unfold addEach
    split
    · next t ht =>
      rw [ht] at hfirst
      obtain ⟨as, hrest⟩ := ih t
      exact ⟨_, hfirst.trans hrest⟩
    · next e t ht =>
      rw [ht] at hfirst
      exact ⟨_, hfirst⟩

/-- **Requests that are all accepted** append their clauses in order. -/
theorem addEach_of_accepted (s : KnowledgeStore) {xs : List Addition}
    (h : List.Forall₂ (fun x a => x.accepted? = some a) xs as) :
    ∃ t, s.addEach xs = (.ok (), t) ∧ s.Appends as t := by
  induction h generalizing s with
  | nil => exact ⟨s, rfl, .refl s⟩
  | cons hx _ ih =>
    obtain ⟨t, ht, hfirst⟩ := s.add_of_accepted hx
    obtain ⟨u, hu, hrest⟩ := ih t
    refine ⟨u, ?_, hfirst.trans hrest⟩
    rw [addEach, ht]
    exact hu

/-- The store with settings in which clauses are asserted, numbered from zero. -/
def ofClauses (config : StoreConfig) (cs : List (Clause String)) : KnowledgeStore :=
  ((empty config).addEach (cs.mapIdx fun i c => .clause c.kind ⟨.ofNat i, c⟩)).2

theorem config_ofClauses (config : StoreConfig) (cs : List (Clause String)) :
    (ofClauses config cs).config = config := by
  obtain ⟨_, happends⟩ := exists_appends_addEach (cs.mapIdx fun i c => .clause c.kind ⟨.ofNat i, c⟩)
    (empty config)
  exact happends.config

end KnowledgeStore
end HornReasoner
