/-
# Chains of bindings end

What a term stands for can be found by looking up the binding of a variable, then the
binding of what it is bound to, and so on until nothing is bound. That loop stops: a
variable is bound only while it is free, and to a term at which every chain has ended, so
a new binding makes a chain longer by one at most (`Substitution.ChainsEnd.bind`). It
stops after no more rounds than there are bindings and at the term that one pass over
them leads to.

Key definitions: `rounds`, `StopsAfter`, `Substitution.next?`, `Substitution.ChainsEnd`.
Key theorems: `exists_stopsAfter`, `StopsAfter.of_map`, `Substitution.ChainsEnd.bind`,
`Substitution.ChainsEnd.unifyArgs`.
-/
import HornReasoner.Proofs.Map.Entries
import HornReasoner.Proofs.Resolution.Unifier

namespace HornReasoner

/-! ### Loops -/

section Loop

variable {α β : Type} {round round' : α → Option α} {a b : α} {n : Nat}

/-- Where a loop is after `n` rounds, if it has that many. -/
def rounds (round : α → Option α) : Nat → α → Option α
  | 0, a => some a
  | n + 1, a => (round a).bind (rounds round n)

/-- From `a` the loop stops at `b` after `n` rounds. -/
def StopsAfter (round : α → Option α) (n : Nat) (a b : α) : Prop :=
  rounds round n a = some b ∧ round b = none

theorem rounds_succ_of_eq_some (h : round a = some b) : rounds round (n + 1) a = rounds round n b := by
  rw [rounds, h, Option.bind_some]

/-- One more round at the end. -/
theorem rounds_concat (h : rounds round n a = some b) : rounds round (n + 1) a = round b := by
  induction n generalizing a with
  | zero =>
    cases h
    cases hb : round b with
    | none => rw [rounds, hb, Option.bind_none]
    | some c => rw [rounds_succ_of_eq_some hb, rounds]
  | succ n ih =>
    obtain ⟨c, hc, hrounds⟩ := Option.bind_eq_some_iff.mp h
    rw [rounds_succ_of_eq_some hc, ih hrounds]

/-- The rounds of a loop go on from where some of them lead. -/
theorem rounds_add (h : rounds round n a = some b) (m : Nat) :
    rounds round (n + m) a = rounds round m b := by
  induction n generalizing a with
  | zero =>
    cases h
    rw [Nat.zero_add]
  | succ n ih =>
    obtain ⟨c, hc, hrest⟩ := Option.bind_eq_some_iff.mp h
    rw [Nat.succ_add, rounds_succ_of_eq_some hc, ih hrest]

/-- A loop that goes on wherever another does goes the same way. -/
theorem rounds_mono (h : ∀ a b, round a = some b → round' a = some b)
    (hrounds : rounds round n a = some b) : rounds round' n a = some b := by
  induction n generalizing a with
  | zero => exact hrounds
  | succ n ih =>
    obtain ⟨c, hc, hrest⟩ := Option.bind_eq_some_iff.mp hrounds
    rw [rounds_succ_of_eq_some (h a c hc), ih hrest]

/-- What no round changes, no number of rounds changes. -/
theorem rounds_induction {I : α → Prop} (hround : ∀ a b, I a → round a = some b → I b) (ha : I a)
    (hrounds : rounds round n a = some b) : I b := by
  induction n generalizing a with
  | zero =>
    cases hrounds
    exact ha
  | succ n ih =>
    obtain ⟨c, hc, hrest⟩ := Option.bind_eq_some_iff.mp hrounds
    exact ih (hround a c ha hc) hrest

/-- A loop stops where its image stops, if it goes as its image does. -/
theorem StopsAfter.of_map {round' : β → Option β} {I : α → Prop} {f : α → β} {c : β}
    (hround : ∀ a b, I a → round a = some b → I b) (hmap : ∀ a, I a → round' (f a) = (round a).map f)
    (ha : I a) (h : StopsAfter round' n (f a) c) : ∃ b, StopsAfter round n a b ∧ f b = c := by
  induction n generalizing a with
  | zero =>
    obtain ⟨hrounds, hstop⟩ := h
    obtain rfl := Option.some.inj hrounds
    exact ⟨a, ⟨rfl, Option.map_eq_none_iff.mp (hmap a ha ▸ hstop)⟩, rfl⟩
  | succ n ih =>
    obtain ⟨hrounds, hstop⟩ := h
    rw [rounds, hmap a ha] at hrounds
    cases hnext : round a with
    | none => rw [hnext] at hrounds; cases hrounds
    | some b =>
      rw [hnext] at hrounds
      obtain ⟨d, ⟨hrest, hover⟩, hd⟩ := ih (hround a b ha hnext) ⟨hrounds, hstop⟩
      exact ⟨d, ⟨(rounds_succ_of_eq_some hnext).trans hrest, hover⟩, hd⟩

/-- **A loop stops if each round makes a measure smaller**, after at most as many rounds as it says. -/
theorem exists_stopsAfter {I : α → Prop} (μ : α → Nat)
    (hround : ∀ a b, I a → round a = some b → I b ∧ μ b < μ a) (ha : I a) :
    ∃ n ≤ μ a, ∃ b, StopsAfter round n a b := by
  induction hm : μ a using Nat.strongRecOn generalizing a with
  | ind m ih =>
    cases hnext : round a with
    | none => exact ⟨0, Nat.zero_le m, a, rfl, hnext⟩
    | some c =>
      obtain ⟨hc, hlt⟩ := hround a c ha hnext
      obtain ⟨n, hn, b, hrounds, hstop⟩ := ih (μ c) (hm ▸ hlt) hc rfl
      refine ⟨n + 1, by omega, b, ?_, hstop⟩
      rw [rounds_succ_of_eq_some hnext, hrounds]

end Loop

/-! ### Chains -/

namespace Substitution

variable {ν : Type} [DecidableEq ν] {s s' : Substitution ν} {l r t x : Term ν} {v : ν}

/-- The binding of a variable. -/
def next? (s : Substitution ν) : Term ν → Option (Term ν)
  | .const _ => none
  | .var v => lastUnder v s.bindings

/-- From every term the chain of bindings ends, after at most as many steps as there are bindings,
and at what the term stands for. -/
def ChainsEnd (s : Substitution ν) : Prop :=
  ∀ x, ∃ n ≤ s.bindings.length, StopsAfter s.next? n x (s.walk x)

theorem chainsEnd_empty : (empty : Substitution ν).ChainsEnd := by
  intro x
  refine ⟨0, Nat.le_refl 0, rfl, ?_⟩
  cases x <;> rfl

theorem next?_bind (s : Substitution ν) (v : ν) (t : Term ν) (w : ν) :
    (s.bind v t).next? (.var w) = if w = v then some t else s.next? (.var w) :=
  lastUnder_concat w s.bindings (v, t)

/-- A binding leads no other term elsewhere. -/
theorem next?_bind_of_ne (hx : x ≠ .var v) : (s.bind v t).next? x = s.next? x := by
  cases x with
  | const c => rfl
  | var w => rw [next?_bind, if_neg fun hw => hx (congrArg Term.var hw)]

/-- A chain that has ended is at what the term stands for. -/
theorem ChainsEnd.next?_walk (h : s.ChainsEnd) (x : Term ν) : s.next? (s.walk x) = none := by
  obtain ⟨_, _, _, hstop⟩ := h x
  exact hstop

theorem ChainsEnd.walk_eq_self (h : s.ChainsEnd) (hx : s.next? x = none) : s.walk x = x := by
  obtain ⟨n, _, hrounds, _⟩ := h x
  cases n with
  | zero => exact (Option.some.inj hrounds).symm
  | succ n =>
    rw [rounds, hx] at hrounds
    cases hrounds

theorem ChainsEnd.walk_walk (h : s.ChainsEnd) (x : Term ν) : s.walk (s.walk x) = s.walk x :=
  h.walk_eq_self (h.next?_walk x)

/-- **A free variable may be bound to another term at which chains have ended.** -/
theorem ChainsEnd.bind (h : s.ChainsEnd) (hv : s.walk (.var v) = .var v) (ht : s.walk t = t)
    (hne : t ≠ .var v) : (s.bind v t).ChainsEnd := by
  intro x
  obtain ⟨n, hn, hrounds, hstop⟩ := h x
  have hlength : (s.bind v t).bindings.length = s.bindings.length + 1 := List.length_append
  have hfree : s.next? (.var v) = none := hv ▸ h.next?_walk (.var v)
  have hkeep : rounds (s.bind v t).next? n x = some (s.walk x) := by
    refine rounds_mono (fun a b hab => ?_) hrounds
    have hav : a ≠ .var v := by
      rintro rfl
      rw [hfree] at hab
      cases hab
    rw [next?_bind_of_ne hav, hab]
  rw [walk_bind, hlength]
  by_cases hx : s.walk x = .var v
  · -- the chain ended at `v`, and now goes on to `t`
    have hnext : (s.bind v t).next? (.var v) = some t := by
      rw [next?_bind, if_pos rfl]
    refine ⟨n + 1, by omega, ?_, ?_⟩
    · rw [rounds_concat hkeep, hx, hnext, Term.replace_var, if_pos rfl]
    · rw [hx, Term.replace_var, if_pos rfl, next?_bind_of_ne hne, ← ht, h.next?_walk]
  · refine ⟨n, by omega, ?_, ?_⟩
    · rw [hkeep, Term.replace_of_ne hx]
    · rw [Term.replace_of_ne hx, next?_bind_of_ne hx, hstop]

theorem ChainsEnd.unify (h : s.ChainsEnd) (hu : s.unify l r = some s') : s'.ChainsEnd :=
  unify_invariant ChainsEnd.walk_walk (fun hs => hs.bind) h hu

theorem ChainsEnd.unifyArgs {ls rs : List (Term ν)} (h : s.ChainsEnd)
    (hu : s.unifyArgs ls rs = some s') : s'.ChainsEnd :=
  unifyArgs_invariant ChainsEnd.unify h hu

theorem ChainsEnd.unifyAtoms {a b : Atom ν} (h : s.ChainsEnd) (hu : s.unifyAtoms a b = some s') :
    s'.ChainsEnd :=
  h.unifyArgs (unifyArgs_of_unifyAtoms hu)

end Substitution
end HornReasoner
