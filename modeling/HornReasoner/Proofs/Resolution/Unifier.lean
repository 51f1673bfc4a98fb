/-
# Unification leaves exactly the common solutions

An assignment solves a substitution if both sides of every binding have the same
value under it. Unifying two terms, rows of terms or atoms under a substitution
succeeds if some solution of it makes them equal (`exists_unifyAtoms`), and the
solutions of the result are then exactly those (`solvedBy_unifyAtoms`). So nothing
is lost and nothing made up.

What a substitution makes of a term is final (`Settled`): following it a second
time changes nothing, and following it from both sides of a binding leads to the
same place. Hence every settled substitution has solutions
(`Settled.solvedBy_apply`). Unification brings in no variables of its own
(`Within.unifyAtoms`).

Key definitions: `Term.Within`, `Substitution.SolvedBy`, `Substitution.Settled`.
Key theorems: `Substitution.unify_invariant`, `Substitution.solvedBy_unifyAtoms`,
`Substitution.exists_unifyAtoms`, `Substitution.Settled.unifyAtoms`,
`Substitution.Settled.solvedBy_apply`.
-/
import HornReasoner.Resolution.Substitution
import Mathlib.Data.List.Forall2

namespace HornReasoner

variable {ν μ : Type}

/-- Every variable of the term satisfies `p`. -/
def Term.Within (p : ν → Prop) (t : Term ν) : Prop := ∀ v, t = .var v → p v

/-- Every variable of the atom satisfies `p`. -/
def Atom.Within (p : ν → Prop) (a : Atom ν) : Prop := ∀ t ∈ a.args, t.Within p

theorem Term.Within.mono {p q : ν → Prop} {t : Term ν} (h : t.Within p) (hpq : ∀ v, p v → q v) :
    t.Within q := fun v hv => hpq v (h v hv)

theorem Term.subst_congr {p : ν → Prop} {σ τ : ν → Term μ} (h : ∀ v, p v → σ v = τ v) {t : Term ν}
    (ht : t.Within p) : t.subst σ = t.subst τ := by
  cases t with
  | const c => rfl
  | var v => exact h v (ht v rfl)

theorem Atom.subst_congr {p : ν → Prop} {σ τ : ν → Term μ} (h : ∀ v, p v → σ v = τ v) {a : Atom ν}
    (ha : a.Within p) : a.subst σ = a.subst τ := by
  unfold Atom.subst
  rw [List.map_congr_left fun t ht => Term.subst_congr h (ha t ht)]

theorem Term.replace_of_ne [DecidableEq ν] {v : ν} {x : Term ν} (hx : x ≠ .var v) (t : Term ν) :
    x.replace v t = x := by
  cases x with
  | const c => rfl
  | var w => rw [Term.replace_var, if_neg fun hw => hx (congrArg Term.var hw)]

namespace Substitution

variable [DecidableEq ν] {s s' : Substitution ν} {l r : Term ν}

/-! ### What a step of unification does -/

@[simp] theorem walk_const (s : Substitution ν) (c : String) : s.walk (.const c) = .const c := by
  obtain ⟨bs⟩ := s
  induction bs with
  | nil => rfl
  | cons b bs ih => exact ih

@[simp] theorem walk_bind (s : Substitution ν) (v : ν) (t x : Term ν) :
    (s.bind v t).walk x = (s.walk x).replace v t := by
  simp [walk, bind, List.foldl_append]

/-- Writing the bindings into a term follows it. -/
theorem subst_apply (s : Substitution ν) (x : Term ν) : x.subst s.apply = s.walk x := by
  cases x with
  | const c => rw [walk_const]; rfl
  | var v => rfl

/-- Terms that already mean the same are left alone; else the left side is bound if it is a free
variable, and the right side if only that is one. -/
theorem unify_eq_some (h : s.unify l r = some s') :
    (s' = s ∧ s.walk l = s.walk r) ∨
      ∃ v t, s' = s.bind v t ∧ t ≠ .var v ∧
        ((s.walk l = .var v ∧ s.walk r = t) ∨ (s.walk l = t ∧ s.walk r = .var v)) := by
  unfold unify at h
  split at h
  · next a b hl hr =>
    split at h
    · next hab => cases h; exact Or.inl ⟨rfl, by rw [hl, hr, hab]⟩
    · cases h
  · next v hl =>
    split at h
    · next htv => cases h; exact Or.inl ⟨rfl, by rw [hl, htv]⟩
    · next htv => cases h; exact Or.inr ⟨v, _, rfl, htv, Or.inl ⟨hl, rfl⟩⟩
  · next v hr hl =>
    cases h
    exact Or.inr ⟨v, _, rfl, fun he => hl v he, Or.inr ⟨rfl, hr⟩⟩

/-- Unification keeps what a binding keeps that is made for a free variable, to another term that is
followed already. -/
theorem unify_invariant {I : Substitution ν → Prop}
    (hwalk : ∀ {s : Substitution ν}, I s → ∀ x, s.walk (s.walk x) = s.walk x)
    (hbind : ∀ {s : Substitution ν} {v : ν} {t : Term ν}, I s → s.walk (.var v) = .var v →
      s.walk t = t → t ≠ .var v → I (s.bind v t))
    (h : I s) (hu : s.unify l r = some s') : I s' := by
  rcases unify_eq_some hu with ⟨rfl, -⟩ | ⟨v, t, rfl, hne, ⟨hl, hr⟩ | ⟨hl, hr⟩⟩
  · exact h
  · exact hbind h (hl ▸ hwalk h l) (hr ▸ hwalk h r) hne
  · exact hbind h (hr ▸ hwalk h r) (hl ▸ hwalk h l) hne

/-- Unification fails only on two different constants. -/
theorem unify_eq_none (h : s.unify l r = none) :
    ∃ a b, s.walk l = .const a ∧ s.walk r = .const b ∧ a ≠ b := by
  unfold unify at h
  split at h
  · next a b hl hr =>
    split at h
    · cases h
    · next hab => exact ⟨a, b, hl, hr, hab⟩
  · split at h <;> cases h
  · cases h

/-- What unifying two terms keeps, unifying two rows of terms keeps. -/
theorem unifyArgs_invariant {I : Substitution ν → Prop}
    (hunify : ∀ {s s' : Substitution ν} {l r : Term ν}, I s → s.unify l r = some s' → I s') :
    ∀ {ls rs : List (Term ν)} {s s' : Substitution ν}, I s → s.unifyArgs ls rs = some s' → I s'
  | [], [], _, _, h, hu => by cases hu; exact h
  | _ :: _, _ :: _, _, _, h, hu => by
    obtain ⟨s₁, h₁, h₂⟩ := Option.bind_eq_some_iff.mp hu
    exact unifyArgs_invariant hunify (hunify h h₁) h₂
  | [], _ :: _, _, _, _, hu => by cases hu
  | _ :: _, [], _, _, _, hu => by cases hu

/-- Atoms are unified by their arguments. -/
theorem unifyArgs_of_unifyAtoms {a b : Atom ν} (h : s.unifyAtoms a b = some s') :
    s.unifyArgs a.args b.args = some s' := by
  unfold unifyAtoms at h
  split at h
  · exact h
  · cases h

/-! ### Solutions -/

/-- Both sides of every binding have the same value. -/
def SolvedBy (s : Substitution ν) (τ : ν → Term μ) : Prop := ∀ b ∈ s.bindings, τ b.1 = b.2.subst τ

variable {τ : ν → Term μ}

omit [DecidableEq ν] in
theorem solvedBy_empty (τ : ν → Term μ) : (empty : Substitution ν).SolvedBy τ := by
  simp [SolvedBy, empty]

omit [DecidableEq ν] in
theorem solvedBy_bind {v : ν} {t : Term ν} :
    (s.bind v t).SolvedBy τ ↔ s.SolvedBy τ ∧ τ v = t.subst τ := by
  simp only [SolvedBy, bind, List.forall_mem_append, List.forall_mem_singleton]

theorem subst_replace {v : ν} {t : Term ν} (h : τ v = t.subst τ) (x : Term ν) :
    (x.replace v t).subst τ = x.subst τ := by
  cases x with
  | const c => rfl
  | var w =>
    rw [Term.replace_var]
    by_cases hw : w = v
    · rw [if_pos hw, hw, Term.subst_var, h]
    · rw [if_neg hw]

/-- Following a term does not change its value under a solution. -/
theorem SolvedBy.subst_walk (h : s.SolvedBy τ) (x : Term ν) : (s.walk x).subst τ = x.subst τ := by
  obtain ⟨bs⟩ := s
  induction bs generalizing x with
  | nil => rfl
  | cons b bs ih =>
    have hb : τ b.1 = b.2.subst τ := h b List.mem_cons_self
    have ht : (⟨bs⟩ : Substitution ν).SolvedBy τ := fun c hc => h c (List.mem_cons_of_mem _ hc)
    exact (ih (x.replace b.1 b.2) ht).trans (subst_replace hb x)

theorem solvedBy_unify (h : s.unify l r = some s') :
    s'.SolvedBy τ ↔ s.SolvedBy τ ∧ l.subst τ = r.subst τ := by
  rcases unify_eq_some h with ⟨rfl, hw⟩ | ⟨v, t, rfl, -, hw⟩
  · refine ⟨fun hs => ⟨hs, ?_⟩, fun hs => hs.1⟩
    rw [← hs.subst_walk l, ← hs.subst_walk r, hw]
  · rw [solvedBy_bind]
    refine and_congr_right fun hs => ?_
    rw [← hs.subst_walk l, ← hs.subst_walk r]
    rcases hw with ⟨hl, hr⟩ | ⟨hl, hr⟩
    · rw [hl, hr, Term.subst_var]
    · rw [hl, hr, Term.subst_var, eq_comm]

theorem exists_unify (hs : s.SolvedBy τ) (h : l.subst τ = r.subst τ) : ∃ s', s.unify l r = some s' := by
  cases hu : s.unify l r with
  | some s' => exact ⟨s', rfl⟩
  | none =>
    obtain ⟨a, b, hl, hr, hab⟩ := unify_eq_none hu
    rw [← hs.subst_walk l, ← hs.subst_walk r, hl, hr] at h
    exact absurd (Term.const.inj h) hab

theorem solvedBy_unifyArgs : ∀ {ls rs : List (Term ν)} {s s' : Substitution ν},
    s.unifyArgs ls rs = some s' →
    (s'.SolvedBy τ ↔ s.SolvedBy τ ∧ ls.map (Term.subst τ) = rs.map (Term.subst τ))
  | [], [], s, s', h => by cases h; simp
  | l :: ls, r :: rs, s, s', h => by
    obtain ⟨s₁, h₁, h₂⟩ := Option.bind_eq_some_iff.mp h
    rw [solvedBy_unifyArgs h₂, solvedBy_unify h₁, and_assoc, List.map_cons, List.map_cons,
      List.cons.injEq]
  | [], _ :: _, _, _, h => by cases h
  | _ :: _, [], _, _, h => by cases h

theorem exists_unifyArgs : ∀ {ls rs : List (Term ν)} {s : Substitution ν}, s.SolvedBy τ →
    ls.map (Term.subst τ) = rs.map (Term.subst τ) → ∃ s', s.unifyArgs ls rs = some s'
  | [], [], s, _, _ => ⟨s, rfl⟩
  | l :: ls, r :: rs, s, hs, h => by
    obtain ⟨h₁, h₂⟩ := List.cons.inj h
    obtain ⟨s₁, hu⟩ := exists_unify hs h₁
    obtain ⟨s', hu'⟩ := exists_unifyArgs ((solvedBy_unify hu).mpr ⟨hs, h₁⟩) h₂
    exact ⟨s', by rw [unifyArgs, hu]; exact hu'⟩
  | [], _ :: _, _, _, h => by cases h
  | _ :: _, [], _, _, h => by cases h

/-- **Unification is exact.** The solutions of the result are the solutions so far that make the
atoms equal. -/
theorem solvedBy_unifyAtoms {a b : Atom ν} (h : s.unifyAtoms a b = some s') :
    s'.SolvedBy τ ↔ s.SolvedBy τ ∧ a.subst τ = b.subst τ := by
  unfold unifyAtoms at h
  split at h
  · next hp =>
    rw [solvedBy_unifyArgs h]
    simp [Atom.subst, hp]
  · cases h

/-- Unification succeeds if some solution makes the atoms equal. -/
theorem exists_unifyAtoms {a b : Atom ν} (hs : s.SolvedBy τ) (h : a.subst τ = b.subst τ) :
    ∃ s', s.unifyAtoms a b = some s' := by
  obtain ⟨hp, ha⟩ := Atom.mk.inj h
  unfold unifyAtoms
  rw [if_pos hp]
  exact exists_unifyArgs hs ha

theorem length_of_unifyArgs : ∀ {ls rs : List (Term ν)} {s s' : Substitution ν},
    s.unifyArgs ls rs = some s' → ls.length = rs.length
  | [], [], _, _, _ => rfl
  | _ :: _, _ :: _, _, _, h => by
    obtain ⟨_, _, h₂⟩ := Option.bind_eq_some_iff.mp h
    exact congrArg (· + 1) (length_of_unifyArgs h₂)
  | [], _ :: _, _, _, h => by cases h
  | _ :: _, [], _, _, h => by cases h

/-- Atoms that differ in predicate or number of arguments are never made equal. -/
theorem unifyAtoms_of_not_sameSymbol {a b : Atom ν} (h : a.sameSymbol b = false) :
    s.unifyAtoms a b = none := by
  unfold unifyAtoms
  split
  · next hp =>
    rw [Option.eq_none_iff_forall_ne_some]
    intro s' hs'
    have hlen := length_of_unifyArgs hs'
    simp [Atom.sameSymbol, hp, hlen] at h
  · rfl

/-! ### Settled substitutions -/

/-- Following a term is final, and it leads to the same place from both sides of a binding. -/
structure Settled (s : Substitution ν) : Prop where
  walk_walk : ∀ x, s.walk (s.walk x) = s.walk x
  walk_eq : ∀ b ∈ s.bindings, s.walk (.var b.1) = s.walk b.2

theorem Settled.empty : (empty : Substitution ν).Settled :=
  ⟨fun _ => rfl, fun b hb => by simp [Substitution.empty] at hb⟩

/-- A free variable may be bound to another settled term. -/
theorem Settled.bind (h : s.Settled) {v : ν} {t : Term ν} (hv : s.walk (.var v) = .var v)
    (ht : s.walk t = t) (hne : t ≠ .var v) : (s.bind v t).Settled := by
  have ht' : t.replace v t = t := Term.replace_of_ne hne t
  refine ⟨fun x => ?_, fun b hb => ?_⟩
  · -- the old value of `x` is `v`, and then the new one is `t`, or it stays
    rw [walk_bind, walk_bind]
    by_cases hx : s.walk x = .var v
    · rw [hx, Term.replace_var, if_pos rfl, ht, ht']
    · rw [Term.replace_of_ne hx, h.walk_walk, Term.replace_of_ne hx]
  · rw [walk_bind, walk_bind]
    rcases List.mem_append.mp hb with hb | hb
    · rw [h.walk_eq b hb]
    · rw [List.mem_singleton.mp hb]
      rw [hv, ht, Term.replace_var, if_pos rfl, ht']

theorem Settled.unify (h : s.Settled) (hu : s.unify l r = some s') : s'.Settled :=
  unify_invariant Settled.walk_walk (fun hs => hs.bind) h hu

theorem Settled.unifyArgs {ls rs : List (Term ν)} (h : s.Settled) (hu : s.unifyArgs ls rs = some s') :
    s'.Settled :=
  unifyArgs_invariant Settled.unify h hu

theorem Settled.unifyAtoms {a b : Atom ν} (h : s.Settled) (hu : s.unifyAtoms a b = some s') :
    s'.Settled :=
  h.unifyArgs (unifyArgs_of_unifyAtoms hu)

/-- **A settled substitution has solutions.** Any assignment of its free variables gives one. -/
theorem Settled.solvedBy_apply (h : s.Settled) (τ : ν → Term μ) :
    s.SolvedBy fun v => (s.apply v).subst τ := by
  intro b hb
  have hvalue : s.apply b.1 = b.2.subst s.apply := by
    rw [subst_apply, ← h.walk_eq b hb]
    rfl
  show (s.apply b.1).subst τ = _
  rw [hvalue, Term.subst_subst]

/-! ### The variables of a substitution -/

/-- Every variable of every binding satisfies `p`. -/
def Within (p : ν → Prop) (s : Substitution ν) : Prop := ∀ b ∈ s.bindings, p b.1 ∧ b.2.Within p

variable {p q : ν → Prop}

omit [DecidableEq ν] in
theorem within_empty (p : ν → Prop) : (empty : Substitution ν).Within p := by
  simp [Within, empty]

omit [DecidableEq ν] in
theorem within_bind {v : ν} {t : Term ν} :
    (s.bind v t).Within p ↔ s.Within p ∧ p v ∧ t.Within p := by
  simp only [Within, bind, List.forall_mem_append, List.forall_mem_singleton]

omit [DecidableEq ν] in
theorem Within.mono (h : s.Within p) (hpq : ∀ v, p v → q v) : s.Within q :=
  fun b hb => ⟨hpq _ (h b hb).1, (h b hb).2.mono hpq⟩

theorem Within.walk (h : s.Within p) {x : Term ν} (hx : x.Within p) : (s.walk x).Within p := by
  obtain ⟨bs⟩ := s
  induction bs generalizing x with
  | nil => exact hx
  | cons b bs ih =>
    have hb : b.2.Within p := (h b List.mem_cons_self).2
    refine ih ?_ fun c hc => h c (List.mem_cons_of_mem _ hc)
    cases x with
    | const c => exact hx
    | var w =>
      show ((Term.var w).replace b.1 b.2).Within p
      by_cases hw : w = b.1
      · rw [Term.replace_var, if_pos hw]; exact hb
      · rw [Term.replace_var, if_neg hw]; exact hx

theorem Within.subst_apply (h : s.Within p) {x : Term ν} (hx : x.Within p) :
    (x.subst s.apply).Within p := by
  rw [s.subst_apply]
  exact h.walk hx

/-- A variable that no binding mentions is free. -/
theorem Within.walk_var (h : s.Within p) {v : ν} (hv : ¬ p v) : s.walk (.var v) = .var v := by
  obtain ⟨bs⟩ := s
  induction bs with
  | nil => rfl
  | cons b bs ih =>
    have hb : v ≠ b.1 := fun he => hv (he ▸ (h b List.mem_cons_self).1)
    show (⟨bs⟩ : Substitution ν).walk ((Term.var v).replace b.1 b.2) = _
    rw [Term.replace_var, if_neg hb]
    exact ih fun c hc => h c (List.mem_cons_of_mem _ hc)

theorem Within.unify (h : s.Within p) (hl : l.Within p) (hr : r.Within p) (hu : s.unify l r = some s') :
    s'.Within p := by
  rcases unify_eq_some hu with ⟨rfl, -⟩ | ⟨v, t, rfl, -, ⟨hl', hr'⟩ | ⟨hl', hr'⟩⟩
  · exact h
  · exact within_bind.mpr ⟨h, h.walk hl v hl', hr' ▸ h.walk hr⟩
  · exact within_bind.mpr ⟨h, h.walk hr v hr', hl' ▸ h.walk hl⟩

theorem Within.unifyArgs : ∀ {ls rs : List (Term ν)} {s s' : Substitution ν}, s.Within p →
    (∀ t ∈ ls, t.Within p) → (∀ t ∈ rs, t.Within p) → s.unifyArgs ls rs = some s' → s'.Within p
  | [], [], _, _, h, _, _, hu => by cases hu; exact h
  | _ :: _, _ :: _, _, _, h, hl, hr, hu => by
    obtain ⟨s₁, h₁, h₂⟩ := Option.bind_eq_some_iff.mp hu
    obtain ⟨hl, hls⟩ := List.forall_mem_cons.mp hl
    obtain ⟨hr, hrs⟩ := List.forall_mem_cons.mp hr
    exact (h.unify hl hr h₁).unifyArgs hls hrs h₂
  | [], _ :: _, _, _, _, _, _, hu => by cases hu
  | _ :: _, [], _, _, _, _, _, hu => by cases hu

theorem Within.unifyAtoms {a b : Atom ν} (h : s.Within p) (ha : a.Within p) (hb : b.Within p)
    (hu : s.unifyAtoms a b = some s') : s'.Within p :=
  h.unifyArgs ha hb (unifyArgs_of_unifyAtoms hu)

omit [DecidableEq ν] in
/-- Whether an assignment is a solution depends on the variables of the bindings only. -/
theorem SolvedBy.congr {σ : ν → Term μ} (h : s.SolvedBy σ) (hs : s.Within p)
    (hστ : ∀ v, p v → σ v = τ v) : s.SolvedBy τ := by
  intro b hb
  obtain ⟨h₁, h₂⟩ := hs b hb
  rw [← hστ _ h₁, h b hb, Term.subst_congr hστ h₂]

end Substitution
end HornReasoner
