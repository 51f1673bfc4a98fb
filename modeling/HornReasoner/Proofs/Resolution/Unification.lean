/-
# Unification finds most general unifiers

Unification looks bindings up: it follows the two terms of a pair, one binding at a time,
until both have come to an end, and then binds a variable or stops at two different
constants (`Unifying.round`). After unifications that succeeded the chains of bindings
end, so this takes no more rounds than there are bindings on both sides, for each pair, and
what it comes to is what one pass over the bindings gives (`Unifying.exists_stopsAfter`).

The bindings it leaves have no cycle and keep the ones before. They make the atoms equal,
and the unifiers of the atoms that agree with the bindings before are the instances of
them (`Substitution.most_general`).

Key definitions: `Unifying`, `Unifying.round`, `Substitution.Reached`, `Substitution.Acyclic`,
`Substitution.Unifies`.
Key theorems: `Unifying.exists_stopsAfter`, `Substitution.ChainsEnd.acyclic`,
`Substitution.exists_unifyAtoms_iff`, `Substitution.unifies_iff_instance`,
`Substitution.most_general`.
-/
import HornReasoner.Proofs.Resolution.Chain

namespace HornReasoner

/-! ### Unification one round at a time -/

/-- A unification under way: the bindings made, and the pairs of terms still to be made equal. The
terms of the first pair stand as far as they have been followed. -/
structure Unifying (ν : Type) where
  subst : Substitution ν
  pairs : List (Term ν × Term ν)

variable {ν μ : Type} [DecidableEq ν]

/-- Makes two terms equal that no binding leads further. -/
def Substitution.equate (s : Substitution ν) : Term ν → Term ν → Option (Substitution ν)
  | .const a, .const b => if a = b then some s else none
  | .var v, t => if t = .var v then some s else some (s.bind v t)
  | t, .var v => some (s.bind v t)

namespace Unifying

/-- One round. The left term of the first pair is followed by one binding, or the right term if the left
one is at its end; when both are, they are made equal. -/
def round (u : Unifying ν) : Option (Unifying ν) :=
  match u.pairs with
  | [] => none
  | (l, r) :: rest =>
    match u.subst.next? l, u.subst.next? r with
    | some l, _ => some ⟨u.subst, (l, r) :: rest⟩
    | none, some r => some ⟨u.subst, (l, r) :: rest⟩
    | none, none => (u.subst.equate l r).map fun s => ⟨s, rest⟩

/-- What has come of a unification that is over: it failed if a pair is left. -/
def result (u : Unifying ν) : Option (Substitution ν) :=
  if u.pairs.isEmpty then some u.subst else none

variable {s : Substitution ν} {l l' r r' : Term ν} {rest : List (Term ν × Term ν)} {n : Nat}

theorem rounds_left (h : rounds s.next? n l = some l') :
    rounds round n ⟨s, (l, r) :: rest⟩ = some ⟨s, (l', r) :: rest⟩ := by
  induction n generalizing l with
  | zero =>
    cases h
    rfl
  | succ n ih =>
    obtain ⟨t, ht, hrest⟩ := Option.bind_eq_some_iff.mp h
    have hround : round ⟨s, (l, r) :: rest⟩ = some ⟨s, (t, r) :: rest⟩ := by
      simp only [round, ht]
    rw [rounds_succ_of_eq_some hround, ih hrest]

theorem rounds_right (hl : s.next? l = none) (h : rounds s.next? n r = some r') :
    rounds round n ⟨s, (l, r) :: rest⟩ = some ⟨s, (l, r') :: rest⟩ := by
  induction n generalizing r with
  | zero =>
    cases h
    rfl
  | succ n ih =>
    obtain ⟨t, ht, hrest⟩ := Option.bind_eq_some_iff.mp h
    have hround : round ⟨s, (l, r) :: rest⟩ = some ⟨s, (l, t) :: rest⟩ := by
      simp only [round, hl, ht]
    rw [rounds_succ_of_eq_some hround, ih hrest]

theorem round_of_ended (hl : s.next? l = none) (hr : s.next? r = none) :
    round ⟨s, (l, r) :: rest⟩ = (s.equate l r).map fun s => ⟨s, rest⟩ := by
  simp only [round, hl, hr]

/-- A pair is followed to its ends. -/
theorem exists_rounds_followed (h : s.ChainsEnd) (l r : Term ν) (rest : List (Term ν × Term ν)) :
    ∃ n ≤ 2 * s.bindings.length,
      rounds round n ⟨s, (l, r) :: rest⟩ = some ⟨s, (s.walk l, s.walk r) :: rest⟩ := by
  obtain ⟨n, hn, hleft, hended⟩ := h l
  obtain ⟨m, hm, hright, -⟩ := h r
  refine ⟨n + m, by omega, ?_⟩
  rw [rounds_add (rounds_left hleft), rounds_right hended hright]

end Unifying

namespace Substitution

variable {s s' : Substitution ν} {l r : Term ν} {a b : Atom ν}

theorem length_bindings_unify (h : s.unify l r = some s') :
    s'.bindings.length ≤ s.bindings.length + 1 := by
  rcases unify_eq_some h with ⟨rfl, -⟩ | ⟨v, t, rfl, -⟩
  · exact Nat.le_succ _
  · exact Nat.le_of_eq List.length_append

end Substitution

/-- **A unification stops**, and comes to what one pass over the bindings gives, pair by pair. -/
theorem Unifying.exists_stopsAfter {s : Substitution ν} (hs : s.ChainsEnd) :
    ∀ {ls rs : List (Term ν)}, ls.length = rs.length →
      ∃ n ≤ ls.length * (2 * (s.bindings.length + ls.length) + 1), ∃ u,
        StopsAfter round n ⟨s, ls.zip rs⟩ u ∧ u.result = s.unifyArgs ls rs := by
  intro ls
  induction ls generalizing s with
  | nil =>
    intro rs hlength
    obtain rfl : rs = [] := List.length_eq_zero_iff.mp hlength.symm
    exact ⟨0, Nat.zero_le _, ⟨s, []⟩, ⟨rfl, rfl⟩, rfl⟩
  | cons l ls ih =>
    intro rs hlength
    obtain ⟨r, rs, rfl⟩ := List.exists_cons_of_length_eq_add_one hlength.symm
    obtain ⟨n, hn, hfollowed⟩ := exists_rounds_followed hs l r (ls.zip rs)
    have hround : round ⟨s, (s.walk l, s.walk r) :: ls.zip rs⟩ = _ :=
      round_of_ended (hs.next?_walk l) (hs.next?_walk r)
    have hbound : (ls.length + 1) * (2 * (s.bindings.length + (ls.length + 1)) + 1) =
        ls.length * (2 * (s.bindings.length + (ls.length + 1)) + 1) +
          (2 * (s.bindings.length + (ls.length + 1)) + 1) := Nat.succ_mul _ _
    rw [List.length_cons, hbound]
    cases hu : s.unify l r with
    | none =>
      have hstop : round ⟨s, (s.walk l, s.walk r) :: ls.zip rs⟩ = none := by
        have hequate : s.equate (s.walk l) (s.walk r) = none := hu
        rw [hround, hequate, Option.map_none]
      refine ⟨n, by omega, _, ⟨hfollowed, hstop⟩, ?_⟩
      rw [Substitution.unifyArgs, hu]
      rfl
    | some s' =>
      have hnext : round ⟨s, (s.walk l, s.walk r) :: ls.zip rs⟩ = some ⟨s', ls.zip rs⟩ := by
        have hequate : s.equate (s.walk l) (s.walk r) = some s' := hu
        rw [hround, hequate, Option.map_some]
      obtain ⟨m, hm, u, ⟨hrounds, hstop⟩, hresult⟩ := ih (hs.unify hu) (Nat.succ.inj hlength)
      have hless : ls.length * (2 * (s'.bindings.length + ls.length) + 1) ≤
          ls.length * (2 * (s.bindings.length + (ls.length + 1)) + 1) :=
        Nat.mul_le_mul_left _ (by have := Substitution.length_bindings_unify hu; omega)
      refine ⟨n + (m + 1), by omega, u, ⟨?_, hstop⟩, ?_⟩
      · rw [List.zip_cons_cons, rounds_add hfollowed, rounds_succ_of_eq_some hnext, hrounds]
      · rw [hresult, Substitution.unifyArgs, hu]
        rfl

/-! ### The bindings that unifications lead to -/

namespace Substitution

variable {s s' : Substitution ν} {l r : Term ν} {a b : Atom ν}

/-- The bindings that a row of successful unifications leads to, from none at all. -/
inductive Reached : Substitution ν → Prop
  | empty : Reached empty
  | unifyAtoms {s s' : Substitution ν} {a b : Atom ν} (h : Reached s)
      (hu : s.unifyAtoms a b = some s') : Reached s'

/-- No variable leads back to itself. -/
def Acyclic (s : Substitution ν) : Prop :=
  ∀ v n, rounds s.next? (n + 1) (.var v) ≠ some (.var v)

/-- The assignment extends the bindings, and makes the atoms equal argument by argument. -/
structure Unifies (s : Substitution ν) (a b : Atom ν) (τ : ν → Term μ) : Prop where
  solvedBy : s.SolvedBy τ
  arguments : List.Forall₂ (fun l r => l.subst τ = r.subst τ) a.args b.args

/-- Where all chains end, none goes round. -/
theorem ChainsEnd.acyclic (h : s.ChainsEnd) : s.Acyclic := by
  intro v n hcycle
  obtain ⟨m, -, hrounds, hstop⟩ := h (.var v)
  have hagain : ∀ k, rounds s.next? (k * (n + 1)) (.var v) = some (.var v) := by
    intro k
    induction k with
    | zero => rw [Nat.zero_mul, rounds]
    | succ k ih => rw [Nat.succ_mul, rounds_add ih, hcycle]
  -- after `m + 1` turns the chain has gone on from where it ends
  have hlater : (m + 1) * (n + 1) = m + (m * n + n + 1) := by
    rw [Nat.succ_mul, Nat.mul_succ]
    omega
  have hgone := hagain (m + 1)
  rw [hlater, rounds_add hrounds, rounds, hstop] at hgone
  cases hgone

theorem Reached.settled (h : Reached s) : s.Settled := by
  induction h with
  | empty => exact .empty
  | unifyAtoms _ hu ih => exact ih.unifyAtoms hu

theorem Reached.chainsEnd (h : Reached s) : s.ChainsEnd := by
  induction h with
  | empty => exact chainsEnd_empty
  | unifyAtoms _ hu ih => exact ih.unifyAtoms hu

omit [DecidableEq ν] in
theorem forall₂_subst_iff {τ : ν → Term μ} {ls rs : List (Term ν)} :
    List.Forall₂ (fun l r => l.subst τ = r.subst τ) ls rs ↔
      ls.map (Term.subst τ) = rs.map (Term.subst τ) := by
  rw [← List.forall₂_eq_eq_eq, List.forall₂_map_left_iff, List.forall₂_map_right_iff]

omit [DecidableEq ν] in
/-- Unifiers of atoms with one predicate make the atoms equal. -/
theorem unifies_iff {τ : ν → Term μ} (hp : a.predicate = b.predicate) :
    s.Unifies a b τ ↔ s.SolvedBy τ ∧ a.subst τ = b.subst τ := by
  have hatoms : a.subst τ = b.subst τ ↔ a.args.map (Term.subst τ) = b.args.map (Term.subst τ) := by
    simp [Atom.subst, hp]
  rw [hatoms, ← forall₂_subst_iff]
  exact ⟨fun h => ⟨h.1, h.2⟩, fun h => ⟨h.1, h.2⟩⟩

theorem predicate_eq_of_unifyAtoms (h : s.unifyAtoms a b = some s') : a.predicate = b.predicate := by
  unfold unifyAtoms at h
  split at h
  · assumption
  · cases h

/-- **Atoms are unified exactly if there is a unifier.** -/
theorem exists_unifyAtoms_iff (hs : s.Settled) : (∃ s', s.unifyAtoms a b = some s') ↔
    a.predicate = b.predicate ∧ a.arity = b.arity ∧ ∃ τ : ν → Term ν, s.Unifies a b τ := by
  constructor
  · rintro ⟨s', hu⟩
    have hp := predicate_eq_of_unifyAtoms hu
    have hsolved := (hs.unifyAtoms hu).solvedBy_apply Term.var
    exact ⟨hp, length_of_unifyArgs (unifyArgs_of_unifyAtoms hu), _,
      (unifies_iff hp).mpr ((solvedBy_unifyAtoms hu).mp hsolved)⟩
  · rintro ⟨hp, -, τ, hτ⟩
    obtain ⟨hsolved, hequal⟩ := (unifies_iff hp).mp hτ
    exact exists_unifyAtoms hsolved hequal

/-- Both sides have come to the same end. -/
theorem map_walk_eq_of_unifyAtoms (hs : s.Settled) (h : s.unifyAtoms a b = some s') :
    a.args.map s'.walk = b.args.map s'.walk := by
  have hsolved : s'.SolvedBy s'.apply := by
    have hself := (hs.unifyAtoms h).solvedBy_apply Term.var
    have hvar : (fun v => (s'.apply v).subst Term.var) = s'.apply :=
      funext fun v => by cases s'.apply v <;> rfl
    rwa [hvar] at hself
  have hequal := congrArg Atom.args ((solvedBy_unifyAtoms h).mp hsolved).2
  have hwalk : Term.subst s'.apply = s'.walk := funext s'.subst_apply
  simpa only [Atom.subst, hwalk] using hequal

/-- The bindings of `s'` are those of `s` and later ones. -/
structure Keeps (s s' : Substitution ν) : Prop where
  chains : s'.ChainsEnd
  next? : ∀ {x t}, s.next? x = some t → s'.next? x = some t
  walk_eq : ∀ {x y}, s.walk x = s.walk y → s'.walk x = s'.walk y

theorem Keeps.bind (h : s.Keeps s') {v : ν} {t : Term ν} (hv : s'.walk (.var v) = .var v)
    (ht : s'.walk t = t) (hne : t ≠ .var v) : s.Keeps (s'.bind v t) where
  chains := h.chains.bind hv ht hne
  next? {x u} hx := by
    have hkept := h.next? hx
    -- a free variable had no binding to lose
    have hfree : x ≠ .var v := by
      rintro rfl
      rw [← hv, h.chains.next?_walk] at hkept
      cases hkept
    rw [next?_bind_of_ne hfree, hkept]
  walk_eq {x y} hxy := by rw [walk_bind, walk_bind, h.walk_eq hxy]

/-- Unification only adds bindings. -/
theorem ChainsEnd.keeps (hs : s.ChainsEnd) (h : s.unifyAtoms a b = some s') : s.Keeps s' :=
  unifyArgs_invariant (fun hkeeps hu => unify_invariant (fun h => h.chains.walk_walk)
    (fun h => h.bind) hkeeps hu) ⟨hs, id, id⟩ (unifyArgs_of_unifyAtoms h)

/-- **The unifiers are the instances** of the bindings that unification leaves. -/
theorem unifies_iff_instance (hs : s.Settled) (h : s.unifyAtoms a b = some s') {τ : ν → Term μ} :
    s.Unifies a b τ ↔ ∃ ρ : ν → Term μ, ∀ v, τ v = (s'.walk (.var v)).subst ρ := by
  rw [unifies_iff (predicate_eq_of_unifyAtoms h), ← solvedBy_unifyAtoms h]
  constructor
  · intro hτ
    exact ⟨τ, fun v => (hτ.subst_walk (.var v)).symm⟩
  · rintro ⟨ρ, hρ⟩
    obtain rfl : τ = fun v => (s'.apply v).subst ρ := funext hρ
    exact (hs.unifyAtoms h).solvedBy_apply ρ

/-- **Unification finds a most general unifier.** After any row of unifications that succeeded, unifying
two atoms stops: they differ in predicate or number of arguments, or the pairs are gone through in so many
rounds. It succeeds exactly if the predicates and numbers of arguments agree and some assignment that
extends the bindings makes the atoms equal argument by argument. The bindings that it leaves have no
cycle, make the atoms equal, and keep each binding made before and all that was equal under these; and
the unifiers of the atoms that extend the bindings before are the instances of the bindings after. -/
theorem most_general (h : Reached s) (a b : Atom ν) :
    (a.sameSymbol b = false → s.unifyAtoms a b = none) ∧
    (a.sameSymbol b = true →
      ∃ n ≤ a.arity * (2 * (s.bindings.length + a.arity) + 1), ∃ u,
        StopsAfter Unifying.round n ⟨s, a.args.zip b.args⟩ u ∧ s.unifyAtoms a b = u.result) ∧
    ((∃ s', s.unifyAtoms a b = some s') ↔
      a.predicate = b.predicate ∧ a.arity = b.arity ∧ ∃ τ : ν → Term ν, s.Unifies a b τ) ∧
    ∀ s', s.unifyAtoms a b = some s' →
      s'.Acyclic ∧ a.args.map s'.walk = b.args.map s'.walk ∧
      (∀ x t, s.next? x = some t → s'.next? x = some t) ∧
      (∀ x y, s.walk x = s.walk y → s'.walk x = s'.walk y) ∧
      ∀ τ : ν → Term ν, s.Unifies a b τ ↔ ∃ ρ : ν → Term ν, ∀ v, τ v = (s'.walk (.var v)).subst ρ := by
  have hsettled := h.settled
  have hchains := h.chainsEnd
  refine ⟨unifyAtoms_of_not_sameSymbol, fun hsymbol => ?_, exists_unifyAtoms_iff hsettled, fun s' hu => ?_⟩
  · obtain ⟨hp, hlength⟩ := Bool.and_eq_true_iff.mp hsymbol
    obtain ⟨n, hn, u, hstops, hresult⟩ := Unifying.exists_stopsAfter hchains (beq_iff_eq.mp hlength)
    refine ⟨n, hn, u, hstops, ?_⟩
    rw [hresult, unifyAtoms, if_pos (beq_iff_eq.mp hp)]
  · have hkeeps := hchains.keeps hu
    exact ⟨hkeeps.chains.acyclic, map_walk_eq_of_unifyAtoms hsettled hu, fun _ _ => hkeeps.next?,
      fun _ _ => hkeeps.walk_eq, fun τ => unifies_iff_instance hsettled hu⟩

/-- `X` leads to `Z` over `Y`; then `Z`, `W` and `V` are bound one after another, and `X` and `V` come to
the same constant. To make every variable `c` is one unifier. -/
theorem chain_most_general :
    let s : Substitution String := ⟨[("X", .var "Y"), ("Y", .var "Z")]⟩
    let s' : Substitution String := ⟨s.bindings ++ [("Z", .var "W"), ("W", .const "c"), ("V", .const "c")]⟩
    let a : Atom String := ⟨"q", [.var "X", .var "W", .var "X"]⟩
    let b : Atom String := ⟨"q", [.var "W", .const "c", .var "V"]⟩
    Reached s ∧ s.unifyAtoms a b = some s' ∧
      (∃ n ≤ 33, ∃ u, StopsAfter Unifying.round n ⟨s, a.args.zip b.args⟩ u ∧ s.unifyAtoms a b = u.result) ∧
      s'.Acyclic ∧ a.args.map s'.walk = b.args.map s'.walk ∧ s'.next? (.var "X") = some (.var "Y") ∧
      ∃ ρ : String → Term String, ∀ v, .const "c" = (s'.walk (.var v)).subst ρ := by
  intro s s' a b
  have hs : Reached s := .unifyAtoms (a := ⟨"p", [.var "X", .var "Y"]⟩) (b := ⟨"p", [.var "Y", .var "Z"]⟩)
    .empty (by decide)
  have hu : s.unifyAtoms a b = some s' := by decide
  have hunifier : s.Unifies a b fun _ => Term.const (ν := String) "c" :=
    ⟨by simp [SolvedBy, s], by simp [a, b]⟩
  obtain ⟨-, hstops, -, hunified⟩ := most_general hs a b
  obtain ⟨hacyclic, hwalk, hkept, -, hinstances⟩ := hunified s' hu
  exact ⟨hs, hu, hstops (by decide), hacyclic, hwalk, hkept _ _ (by decide), (hinstances _).mp hunifier⟩

end Substitution
end HornReasoner
