/-
# Where the values of a search come from

What a term stands for is the term itself or one that some binding brings in
(`Substitution.walk_eq_self_or_mem`), and unification binds variables to what the terms it
is given stand for. So a property of terms that holds of the goal and of every copy of a
clause holds of all that the variables of a branch are bound to (`bindsTo_proveAtom`). In
particular a search makes up no constants: each stands in the goal or in the program
(`const_mem_of_proveAtom`).

Key definition: `Substitution.BindsTo`.
Key theorems: `Substitution.walk_eq_self_or_mem`, `invariant_proveAtom`,
`bindsTo_proveAtom`, `const_mem_of_proveAtom`.
-/
import HornReasoner.Proofs.Logic.Slots
import HornReasoner.Proofs.Resolution.Recursion

namespace HornReasoner

/-! ### What variables are bound to -/

namespace Substitution

variable {ν : Type} [DecidableEq ν] {s s' : Substitution ν} {l r : Term ν} {Q : Term ν → Prop}

/-- A term stands for itself or for a term that a variable is bound to. -/
theorem walk_eq_self_or_mem (s : Substitution ν) (x : Term ν) :
    s.walk x = x ∨ ∃ b ∈ s.bindings, s.walk x = b.2 := by
  obtain ⟨bs⟩ := s
  induction bs generalizing x with
  | nil => exact Or.inl rfl
  | cons b bs ih =>
    have hstep : x.replace b.1 b.2 = x ∨ x.replace b.1 b.2 = b.2 := by
      cases x with
      | const c => exact Or.inl rfl
      | var v =>
        rw [Term.replace_var]
        by_cases hv : v = b.1
        · exact Or.inr (if_pos hv)
        · exact Or.inl (if_neg hv)
    have hwalk : (⟨b :: bs⟩ : Substitution ν).walk x = walk ⟨bs⟩ (x.replace b.1 b.2) := rfl
    rw [hwalk]
    rcases ih (x.replace b.1 b.2) with h | ⟨d, hd, h⟩
    · rw [h]
      exact hstep.imp_right fun hb => ⟨b, List.mem_cons_self, hb⟩
    · exact Or.inr ⟨d, List.mem_cons_of_mem _ hd, h⟩

/-- Variables are bound to terms that satisfy `Q` only. -/
def BindsTo (Q : Term ν → Prop) (s : Substitution ν) : Prop := ∀ b ∈ s.bindings, Q b.2

omit [DecidableEq ν] in
theorem bindsTo_empty (Q : Term ν → Prop) : (empty : Substitution ν).BindsTo Q := by
  simp [BindsTo, empty]

theorem BindsTo.walk (h : s.BindsTo Q) {x : Term ν} (hx : Q x) : Q (s.walk x) := by
  rcases s.walk_eq_self_or_mem x with hself | ⟨b, hb, hvalue⟩
  · rwa [hself]
  · rw [hvalue]
    exact h b hb

theorem BindsTo.unify (h : s.BindsTo Q) (hl : Q l) (hr : Q r) (hu : s.unify l r = some s') :
    s'.BindsTo Q := by
  have hbind {v : ν} {t : Term ν} (ht : Q t) : (s.bind v t).BindsTo Q :=
    List.forall_mem_append.mpr ⟨h, List.forall_mem_singleton.mpr ht⟩
  rcases unify_eq_some hu with ⟨rfl, -⟩ | ⟨v, t, rfl, -, ⟨-, hrt⟩ | ⟨hlt, -⟩⟩
  · exact h
  · exact hbind (hrt ▸ h.walk hr)
  · exact hbind (hlt ▸ h.walk hl)

theorem BindsTo.unifyArgs : ∀ {ls rs : List (Term ν)} {s s' : Substitution ν}, s.BindsTo Q →
    (∀ t ∈ ls, Q t) → (∀ t ∈ rs, Q t) → s.unifyArgs ls rs = some s' → s'.BindsTo Q
  | [], [], _, _, h, _, _, hu => by cases hu; exact h
  | _ :: _, _ :: _, _, _, h, hl, hr, hu => by
    obtain ⟨s₁, h₁, h₂⟩ := Option.bind_eq_some_iff.mp hu
    obtain ⟨hl, hls⟩ := List.forall_mem_cons.mp hl
    obtain ⟨hr, hrs⟩ := List.forall_mem_cons.mp hr
    exact (h.unify hl hr h₁).unifyArgs hls hrs h₂
  | [], _ :: _, _, _, _, _, _, hu => by cases hu
  | _ :: _, [], _, _, _, _, _, hu => by cases hu

theorem BindsTo.unifyAtoms {a b : Atom ν} (h : s.BindsTo Q) (ha : ∀ t ∈ a.args, Q t)
    (hb : ∀ t ∈ b.args, Q t) (hu : s.unifyAtoms a b = some s') : s'.BindsTo Q :=
  h.unifyArgs ha hb (unifyArgs_of_unifyAtoms hu)

end Substitution

/-! ### Invariants of the branches of a search -/

variable {σ : Type} {A : Atom (Var σ) → Prop} {I : Branch σ → Prop}

theorem invariant_proveAll {prove : Atom (Var σ) → Branch σ → Outcome (Branch σ)}
    (hprove : ∀ a b b', A a → I b → b' ∈ (prove a b).answers → I b') :
    ∀ {as : List (Atom (Var σ))} {b b' : Branch σ}, (∀ a ∈ as, A a) → I b →
      b' ∈ (proveAll prove as b).answers → I b'
  | [], b, b', _, hb, h => by rwa [List.mem_singleton.mp h]
  | a :: as, b, b', hA, hb, h => by
    obtain ⟨ha, has⟩ := List.forall_mem_cons.mp hA
    obtain ⟨b₁, h₁, h₂⟩ := Outcome.mem_bind.mp h
    exact invariant_proveAll hprove has (hprove a b b₁ ha hb h₁) h₂

variable [DecidableEq σ] {program : List (Clause σ)}

theorem invariant_proveBody {n : Nat}
    (ih : ∀ k < n, ∀ a b b', A a → I b → b' ∈ (proveAtom program k a b).answers → I b')
    {as : List (Atom (Var σ))} {b b' : Branch σ} (hA : ∀ a ∈ as, A a) (hb : I b)
    (h : b' ∈ (proveBody program n as b).answers) : I b' := by
  cases n with
  | zero =>
    cases as with
    | nil => rwa [List.mem_singleton.mp h]
    | cons a as => simp [proveBody, proveNone, Outcome.cutOff] at h
  | succ k => exact invariant_proveAll (ih k (Nat.lt_succ_self k)) hA hb h

/-- **What one use of a clause keeps, a search keeps.** The atoms are of a kind `A` that the copies of
all clauses have. -/
theorem invariant_proveAtom
    (hhead : ∀ c ∈ program, ∀ u, A (c.head.map (Var.mk u)))
    (hbody : ∀ c ∈ program, ∀ u, ∀ d ∈ c.body, A (d.map (Var.mk u)))
    (huse : ∀ {b : Branch σ} {head a s}, I b → A head → A a → b.subst.unifyAtoms head a = some s →
      I ⟨s, b.uses + 1⟩)
    (n : Nat) {a : Atom (Var σ)} {b b' : Branch σ} (ha : A a) (hb : I b)
    (h : b' ∈ (proveAtom program n a b).answers) : I b' := by
  induction n using Nat.strongRecOn generalizing a b b' with
  | ind n ih =>
    obtain ⟨c, hc, s, hu, hb'⟩ := mem_proveAtom.mp h
    have hs : I ⟨s, b.uses + 1⟩ := huse hb (hhead c hc _) ha hu
    exact invariant_proveBody (fun k hk _ _ _ => ih k hk) (List.forall_mem_map.mpr (hbody c hc _)) hs hb'

/-! ### Values -/

variable {Q : Term (Var σ) → Prop}

/-- **A search binds variables to terms of the goal and of copies of clauses only.** -/
theorem bindsTo_proveAtom (hprogram : ∀ c ∈ program, ∀ u, ∀ t ∈ c.args, Q (t.map (Var.mk u))) (n : Nat)
    {a : Atom (Var σ)} {b b' : Branch σ} (ha : ∀ t ∈ a.args, Q t) (hb : b.subst.BindsTo Q)
    (h : b' ∈ (proveAtom program n a b).answers) : b'.subst.BindsTo Q := by
  refine invariant_proveAtom (A := fun a => ∀ t ∈ a.args, Q t) (I := fun b => b.subst.BindsTo Q)
    (fun c hc u => ?_) (fun c hc u d hd => ?_) (fun hb hhead ha hu => hb.unifyAtoms hhead ha hu) n ha hb h
  · exact List.forall_mem_map.mpr fun t ht => hprogram c hc u t (Clause.mem_args.mpr (Or.inl ht))
  · exact List.forall_mem_map.mpr fun t ht => hprogram c hc u t (Clause.mem_args.mpr (Or.inr ⟨d, hd, ht⟩))

theorem Term.const_of_map {ν μ : Type} {f : ν → μ} {t : Term ν} {x : String} (h : t.map f = .const x) :
    t = .const x := by
  cases t with
  | const c => exact congrArg Term.const (Term.const.inj h)
  | var v => cases h

/-- **A search makes up no constants.** What a variable stands for in the end is no constant or one that
stands in the goal or in the program. -/
theorem const_mem_of_proveAtom {goal : Atom σ} {n : Nat} {b : Branch σ}
    (h : b ∈ (proveAtom program n (goal.map (Var.mk 0)) ⟨.empty, 0⟩).answers) {v : Var σ} {x : String}
    (hx : b.subst.apply v = .const x) : .const x ∈ goal.args ∨ ∃ c ∈ program, .const x ∈ c.args := by
  set Q : Term (Var σ) → Prop := fun t =>
    ∀ x, t = .const x → .const x ∈ goal.args ∨ ∃ c ∈ program, .const x ∈ c.args with hQ
  have hprogram : ∀ c ∈ program, ∀ u, ∀ t ∈ c.args, Q (t.map (Var.mk u)) := fun c hc u t ht x hx =>
    Or.inr ⟨c, hc, Term.const_of_map hx ▸ ht⟩
  have hgoal : ∀ t ∈ (goal.map (Var.mk 0)).args, Q t :=
    List.forall_mem_map.mpr fun t ht x hx => Or.inl (Term.const_of_map hx ▸ ht)
  have hbinds := bindsTo_proveAtom hprogram n hgoal (Substitution.bindsTo_empty Q) h
  have hvar : Q (.var v) := fun x hx => by cases hx
  exact hbinds.walk hvar x hx

end HornReasoner
