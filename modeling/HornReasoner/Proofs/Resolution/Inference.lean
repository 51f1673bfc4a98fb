/-
# Horn inference, and resolution sound and complete for it

A ground atom follows from a program if it is the head of a ground instance of a
clause whose body follows (`Follows`). Counting the rules on the paths of the proof
tree, facts apart, gives the atoms with a tree of at most `n` rules on every path
(`Derivable`); every atom that follows has such a bound (`follows_iff`).

Every branch that resolution leaves with `n` rules has solutions, and under each of
them the atom is derivable with `n` rules (`sound_proveAtom`). Conversely a ground
instance that is derivable with no more rules than there are is met by some branch,
and one that is derivable at all is met if no branch was cut (`complete_proveAtom`).

Key definitions: `Derivable`, `Follows`, `Branch.Extends`, `Branch.Solution`.
Key theorems: `follows_iff`, `sound_proveAtom`, `complete_proveAtom`.
-/
import HornReasoner.Proofs.Resolution.Recursion

namespace HornReasoner

variable {σ : Type} {program : List (Clause σ)}

/-! ### Proof trees -/

/-- The ground atom has a proof tree with at most `n` rules on every path, facts not counted. -/
inductive Derivable (program : List (Clause σ)) : Nat → Atom Empty → Prop
  | fact {n : Nat} {c : Clause σ} (θ : σ → Term Empty) (hc : c ∈ program) (hbody : c.body = []) :
      Derivable program n (c.head.subst θ)
  | rule {n : Nat} {c : Clause σ} (θ : σ → Term Empty) (hc : c ∈ program) (hbody : c.body ≠ [])
      (premises : ∀ a ∈ c.body, Derivable program n (a.subst θ)) :
      Derivable program (n + 1) (c.head.subst θ)

/-- The atoms of a body hold for a clause used with `n` rules left: there is none, or the clause takes
one rule and they are derivable with the others. -/
def BodyHolds (program : List (Clause σ)) (n : Nat) (as : List (Atom Empty)) : Prop :=
  as = [] ∨ ∃ k, n = k + 1 ∧ ∀ a ∈ as, Derivable program k a

/-- A ground atom is derivable from the ground instances of clauses whose bodies hold. -/
theorem derivable_iff {n : Nat} {a : Atom Empty} : Derivable program n a ↔
    ∃ c ∈ program, ∃ θ : σ → Term Empty, a = c.head.subst θ ∧
      BodyHolds program n (c.body.map (Atom.subst θ)) := by
  constructor
  · intro h
    cases h with
    | @fact _ c θ hc hbody => exact ⟨c, hc, θ, rfl, Or.inl (by rw [hbody]; rfl)⟩
    | @rule k c θ hc _ premises =>
      exact ⟨c, hc, θ, rfl, Or.inr ⟨k, rfl, List.forall_mem_map.mpr premises⟩⟩
  · rintro ⟨c, hc, θ, rfl, hbody⟩
    by_cases hnil : c.body = []
    · exact .fact θ hc hnil
    · obtain ⟨k, rfl, premises⟩ := hbody.resolve_left fun he => hnil (List.map_eq_nil_iff.mp he)
      exact .rule θ hc hnil (List.forall_mem_map.mp premises)

/-- The ground atom has a proof tree, whatever its size. -/
inductive Follows (program : List (Clause σ)) : Atom Empty → Prop
  | clause {c : Clause σ} (θ : σ → Term Empty) (hc : c ∈ program)
      (premises : ∀ a ∈ c.body, Follows program (a.subst θ)) : Follows program (c.head.subst θ)

theorem Derivable.mono {n : Nat} {a : Atom Empty} (h : Derivable program n a) :
    ∀ {m : Nat}, n ≤ m → Derivable program m a := by
  induction h with
  | fact θ hc hbody => exact fun _ => .fact θ hc hbody
  | rule θ hc hbody _ ih =>
    intro m hm
    obtain ⟨k, rfl⟩ : ∃ k, m = k + 1 := ⟨m - 1, by omega⟩
    exact .rule θ hc hbody fun a ha => ih a ha (by omega)

/-- A row of derivable atoms has one bound for all. -/
theorem exists_derivable_all {θ : σ → Term Empty} : ∀ {as : List (Atom σ)},
    (∀ a ∈ as, ∃ n, Derivable program n (a.subst θ)) → ∃ n, ∀ a ∈ as, Derivable program n (a.subst θ)
  | [], _ => ⟨0, fun a ha => by simp at ha⟩
  | a :: as, h => by
    obtain ⟨⟨n, hn⟩, has⟩ := List.forall_mem_cons.mp h
    obtain ⟨m, hm⟩ := exists_derivable_all has
    refine ⟨max n m, List.forall_mem_cons.mpr ⟨hn.mono (Nat.le_max_left n m), fun b hb => ?_⟩⟩
    exact (hm b hb).mono (Nat.le_max_right n m)

/-- **Every proof tree has some number of rules on its longest path.** -/
theorem follows_iff {a : Atom Empty} : Follows program a ↔ ∃ n, Derivable program n a := by
  constructor
  · intro h
    induction h with
    | @clause c θ hc _ ih =>
      obtain ⟨n, hn⟩ := exists_derivable_all ih
      by_cases hbody : c.body = []
      · exact ⟨0, .fact θ hc hbody⟩
      · exact ⟨n + 1, .rule θ hc hbody hn⟩
  · rintro ⟨n, h⟩
    induction h with
    | fact θ hc hbody => exact .clause θ hc (by simp [hbody])
    | rule θ hc _ _ ih => exact .clause θ hc ih

/-! ### Soundness -/

variable [DecidableEq σ] {a : Atom (Var σ)} {b b' b'' : Branch σ}

/-- The branch goes on from another: it stays settled, and its solutions were solutions before. -/
structure Branch.Extends (b' b : Branch σ) : Prop where
  settled : b.subst.Settled → b'.subst.Settled
  solvedBy : ∀ τ : Var σ → Term Empty, b'.subst.SolvedBy τ → b.subst.SolvedBy τ

theorem Branch.Extends.refl (b : Branch σ) : b.Extends b := ⟨id, fun _ => id⟩

theorem Branch.Extends.trans (h' : b''.Extends b') (h : b'.Extends b) : b''.Extends b :=
  ⟨fun hs => h'.settled (h.settled hs), fun τ hτ => h.solvedBy τ (h'.solvedBy τ hτ)⟩

theorem Branch.Extends.unifyAtoms {head : Atom (Var σ)} {s : Substitution (Var σ)} (n : Nat)
    (hu : b.subst.unifyAtoms head a = some s) : Branch.Extends ⟨s, n⟩ b :=
  ⟨fun hs => hs.unifyAtoms hu, fun _ hτ => ((Substitution.solvedBy_unifyAtoms hu).mp hτ).1⟩

/-- If what is left of an atom makes it true, what is left of a row makes all of it true. -/
theorem sound_proveAll {prove : Atom (Var σ) → Branch σ → Outcome (Branch σ)} {D : Atom Empty → Prop}
    (hprove : ∀ a b b', b' ∈ (prove a b).answers →
      b'.Extends b ∧ ∀ τ : Var σ → Term Empty, b'.subst.SolvedBy τ → D (a.subst τ)) :
    ∀ (as : List (Atom (Var σ))) (b b' : Branch σ), b' ∈ (proveAll prove as b).answers →
      b'.Extends b ∧ ∀ τ : Var σ → Term Empty, b'.subst.SolvedBy τ → ∀ a ∈ as, D (a.subst τ)
  | [], b, b', h => by
    rw [List.mem_singleton.mp h]
    exact ⟨.refl b, fun _ _ a ha => by simp at ha⟩
  | a :: as, b, b', h => by
    obtain ⟨b₁, h₁, h₂⟩ := Outcome.mem_bind.mp h
    obtain ⟨hext₁, ha⟩ := hprove a b b₁ h₁
    obtain ⟨hext₂, has⟩ := sound_proveAll hprove as b₁ b' h₂
    refine ⟨hext₂.trans hext₁, fun τ hτ => List.forall_mem_cons.mpr ⟨?_, has τ hτ⟩⟩
    exact ha τ (hext₂.solvedBy τ hτ)

theorem sound_proveBody {n : Nat} (ih : ∀ k < n, ∀ a b b', b' ∈ (proveAtom program k a b).answers →
      b'.Extends b ∧ ∀ τ : Var σ → Term Empty, b'.subst.SolvedBy τ → Derivable program k (a.subst τ))
    {as : List (Atom (Var σ))} (h : b' ∈ (proveBody program n as b).answers) :
    b'.Extends b ∧ ∀ τ : Var σ → Term Empty, b'.subst.SolvedBy τ →
      BodyHolds program n (as.map (Atom.subst τ)) := by
  cases n with
  | zero =>
    cases as with
    | nil =>
      rw [List.mem_singleton.mp h]
      exact ⟨.refl b, fun _ _ => Or.inl rfl⟩
    | cons a as => simp [proveBody, proveNone, Outcome.cutOff] at h
  | succ k =>
    obtain ⟨hext, hall⟩ := sound_proveAll (ih k (Nat.lt_succ_self k)) as b b' h
    exact ⟨hext, fun τ hτ => Or.inr ⟨k, rfl, List.forall_mem_map.mpr (hall τ hτ)⟩⟩

omit [DecidableEq σ] in
/-- An instance of a copy is an instance of the clause. -/
theorem map_subst_copy (u : Nat) (τ : Var σ → Term Empty) (as : List (Atom σ)) :
    (as.map (Atom.map (Var.mk u))).map (Atom.subst τ) = as.map (Atom.subst fun v => τ ⟨u, v⟩) := by
  rw [List.map_map]
  exact List.map_congr_left fun a _ => Atom.subst_map _ _ a

/-- **Resolution is sound.** Each solution of a branch that is left makes the atom derivable. -/
theorem sound_proveAtom (program : List (Clause σ)) (n : Nat) (a : Atom (Var σ)) (b b' : Branch σ)
    (h : b' ∈ (proveAtom program n a b).answers) :
    b'.Extends b ∧ ∀ τ : Var σ → Term Empty, b'.subst.SolvedBy τ → Derivable program n (a.subst τ) := by
  induction n using Nat.strongRecOn generalizing a b b' with
  | ind n ih =>
    obtain ⟨c, hc, s, hu, hb'⟩ := mem_proveAtom.mp h
    obtain ⟨hext, hbody⟩ := sound_proveBody ih hb'
    refine ⟨hext.trans (.unifyAtoms _ hu), fun τ hτ => derivable_iff.mpr ?_⟩
    have hhead := ((Substitution.solvedBy_unifyAtoms hu).mp (hext.solvedBy τ hτ)).2
    refine ⟨c, hc, fun v => τ ⟨b.uses + 1, v⟩, ?_, ?_⟩
    · rw [← hhead, Atom.subst_map]
    · rw [← map_subst_copy]
      exact hbody τ hτ

/-! ### Completeness -/

/-- A ground assignment that the bindings of the branch allow. -/
structure Branch.Solution (b : Branch σ) (τ : Var σ → Term Empty) : Prop where
  inScope : b.Scoped
  solvedBy : b.subst.SolvedBy τ

/-- The assignments agree on the goal and on the first `n` uses. -/
def AgreeUpTo (n : Nat) (τ τ' : Var σ → Term Empty) : Prop := ∀ v, v.UpTo n → τ v = τ' v

/-- Some branch of the outcome meets `τ`: it has a solution that agrees with `τ` on what was named
before. -/
def Outcome.Meets (o : Outcome (Branch σ)) (n : Nat) (τ : Var σ → Term Empty) : Prop :=
  ∃ b ∈ o.answers, n ≤ b.uses ∧ ∃ τ', b.Solution τ' ∧ AgreeUpTo n τ τ'

omit [DecidableEq σ] in
theorem complete_proveAll {prove : Atom (Var σ) → Branch σ → Outcome (Branch σ)} {D : Atom Empty → Prop}
    {B : Prop}
    (hprove : ∀ a b τ, b.Solution τ → a.Within (Var.UpTo b.uses) → D (a.subst τ) →
      B ∨ (prove a b).cut = false → (prove a b).Meets b.uses τ) :
    ∀ (as : List (Atom (Var σ))) (b : Branch σ) (τ : Var σ → Term Empty), b.Solution τ →
      (∀ a ∈ as, a.Within (Var.UpTo b.uses)) → (∀ a ∈ as, D (a.subst τ)) →
      B ∨ (proveAll prove as b).cut = false → (proveAll prove as b).Meets b.uses τ
  | [], b, τ, hb, _, _, _ => ⟨b, List.mem_singleton_self b, Nat.le_refl _, τ, hb, fun _ _ => rfl⟩
  | a :: as, b, τ, hb, hw, hD, hcut => by
    obtain ⟨hwa, hwas⟩ := List.forall_mem_cons.mp hw
    obtain ⟨hDa, hDas⟩ := List.forall_mem_cons.mp hD
    obtain ⟨b₁, hmem₁, huses₁, τ₁, hb₁, hτ₁⟩ := hprove a b τ hb hwa hDa
      (hcut.imp_right fun h => (Outcome.cut_bind.mp h).1)
    have hD₁ : ∀ a ∈ as, D (a.subst τ₁) := fun a ha =>
      Atom.subst_congr hτ₁ (hwas a ha) ▸ hDas a ha
    have hw₁ : ∀ a ∈ as, a.Within (Var.UpTo b₁.uses) := fun a ha t ht =>
      (hwas a ha t ht).mono (Var.UpTo.mono huses₁)
    obtain ⟨b₂, hmem₂, huses₂, τ₂, hb₂, hτ₂⟩ := complete_proveAll hprove as b₁ τ₁ hb₁ hw₁ hD₁
      (hcut.imp_right fun h => (Outcome.cut_bind.mp h).2 b₁ hmem₁)
    refine ⟨b₂, Outcome.mem_bind.mpr ⟨b₁, hmem₁, hmem₂⟩, Nat.le_trans huses₁ huses₂, τ₂, hb₂, ?_⟩
    intro v hv
    exact (hτ₁ v hv).trans (hτ₂ v (Var.UpTo.mono huses₁ v hv))

theorem complete_proveBody {n m : Nat}
    (ih : ∀ k < n, ∀ m a b τ, b.Solution τ → a.Within (Var.UpTo b.uses) →
      Derivable program m (a.subst τ) → m ≤ k ∨ (proveAtom program k a b).cut = false →
      (proveAtom program k a b).Meets b.uses τ)
    {as : List (Atom (Var σ))} {τ : Var σ → Term Empty} (hb : b.Solution τ)
    (hw : ∀ a ∈ as, a.Within (Var.UpTo b.uses)) (hbody : BodyHolds program m (as.map (Atom.subst τ)))
    (hcut : m ≤ n ∨ (proveBody program n as b).cut = false) :
    (proveBody program n as b).Meets b.uses τ := by
  cases as with
  | nil =>
    refine ⟨b, ?_, Nat.le_refl _, τ, hb, fun _ _ => rfl⟩
    cases n <;> exact List.mem_singleton_self b
  | cons a as =>
    obtain ⟨k, rfl, hall⟩ := hbody.resolve_left (by simp)
    cases n with
    | zero =>
      rcases hcut with h | h
      · omega
      · cases h
    | succ n =>
      exact complete_proveAll (D := Derivable program k) (B := k ≤ n) (ih n (Nat.lt_succ_self n) k)
        (a :: as) b τ hb hw (List.forall_mem_map.mp hall) (hcut.imp_left Nat.le_of_succ_le_succ)

/-- **Resolution is complete.** A ground instance of the atom that is derivable is met by some branch,
if the rules suffice for its tree or no branch was cut. -/
theorem complete_proveAtom (program : List (Clause σ)) (n m : Nat) (a : Atom (Var σ)) (b : Branch σ)
    (τ : Var σ → Term Empty) (hb : b.Solution τ) (ha : a.Within (Var.UpTo b.uses))
    (hd : Derivable program m (a.subst τ)) (hcut : m ≤ n ∨ (proveAtom program n a b).cut = false) :
    (proveAtom program n a b).Meets b.uses τ := by
  induction n using Nat.strongRecOn generalizing m a b τ with
  | ind n ih =>
    obtain ⟨c, hc, θ, hhead, hbody⟩ := derivable_iff.mp hd
    -- the variables of the new copy get the values of the instance
    set u := b.uses + 1 with hu
    set τ₁ : Var σ → Term Empty := fun v => if v.use = u then θ v.slot else τ v with hτ₁
    have hagree : AgreeUpTo b.uses τ τ₁ := fun v hv => by
      have : v.use ≠ u := by unfold Var.UpTo at hv; omega
      rw [hτ₁]
      exact (if_neg this).symm
    have hup := Var.UpTo.mono (σ := σ) (Nat.le_succ b.uses)
    have hcopy : (fun v => τ₁ ⟨u, v⟩) = θ := funext fun v => if_pos rfl
    have hunify : (c.head.map (Var.mk u)).subst τ₁ = a.subst τ₁ := by
      rw [Atom.subst_map, hcopy, ← hhead, Atom.subst_congr hagree ha]
    have hsolved := hb.solvedBy.congr hb.inScope hagree
    obtain ⟨s, hs⟩ := Substitution.exists_unifyAtoms hsolved hunify
    have hscoped : s.Within (Var.UpTo u) := (hb.inScope.mono hup).unifyAtoms (Atom.within_copy _ _)
      (fun t ht => (ha t ht).mono hup) hs
    have hnext : Branch.Solution ⟨s, u⟩ τ₁ :=
      ⟨hscoped, (Substitution.solvedBy_unifyAtoms hs).mpr ⟨hsolved, hunify⟩⟩
    have hwithin : ∀ d ∈ c.body.map (Atom.map (Var.mk u)), d.Within (Var.UpTo u) := by
      intro d hd
      obtain ⟨e, -, rfl⟩ := List.mem_map.mp hd
      exact e.within_copy u
    have hholds : BodyHolds program m ((c.body.map (Atom.map (Var.mk u))).map (Atom.subst τ₁)) := by
      rw [map_subst_copy, hcopy]
      exact hbody
    obtain ⟨b', hb', huses, τ', hsol, hagree'⟩ := complete_proveBody ih hnext hwithin hholds
      (hcut.imp_right fun h => cut_proveAtom.mp h c hc s hs)
    refine ⟨b', mem_proveAtom.mpr ⟨c, hc, s, hs, hb'⟩, ?_, τ', hsol, fun v hv => ?_⟩
    · exact Nat.le_trans (Nat.le_succ _) huses
    · exact (hagree v hv).trans (hagree' v (hup v hv))

end HornReasoner
