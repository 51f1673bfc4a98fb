/-
# The names of variables carry no meaning in a search

Two branches are alike on some pairs of terms if what the first makes of the one
term is, up to names, what the second makes of the other (`Branch.Alike`). A clause
used on the one and a variant of it on the other leave branches that are alike again,
on the same pairs and on the variables of the new copies (`alike_useClause`): each use
brings names of its own, and they are added to those of the uses before
(`Naming.extend`). So searches from both, in programs that are variants of each other,
find the same, answer by answer (`alike_proveAtom`). In particular it does not matter
how many clauses were used before, nor whether the bindings so far are already written
into the goals.

Key definitions: `Substitution.map`, `Substitution.Agrees`, `Naming`, `Clause.Variant`,
`Branch.Alike`, `Outcome.Related`.
Key theorems: `Substitution.unifyAtoms_map`, `Substitution.agrees_unifyAtoms`,
`alike_useClause`, `alike_proveAtom`.
-/
import HornReasoner.Proofs.Resolution.Recursion

namespace HornReasoner

variable {ν μ κ : Type}

@[simp] theorem Term.map_id (t : Term ν) : t.map id = t := by
  cases t <;> rfl

@[simp] theorem Atom.map_id (a : Atom ν) : a.map id = a := by
  simp [Atom.map, funext Term.map_id]

@[simp] theorem Clause.map_id (c : Clause ν) : c.map id = c := by
  simp [Clause.map, funext Atom.map_id]

theorem Term.map_map (f : ν → μ) (g : μ → κ) (t : Term ν) : (t.map f).map g = t.map (g ∘ f) := by
  cases t <;> rfl

theorem Atom.map_map (f : ν → μ) (g : μ → κ) (a : Atom ν) : (a.map f).map g = a.map (g ∘ f) := by
  simp [map, Function.comp_def, Term.map_map]

theorem Clause.map_map (f : ν → μ) (g : μ → κ) (c : Clause ν) : (c.map f).map g = c.map (g ∘ f) := by
  simp [map, Function.comp_def, Atom.map_map]

theorem Term.map_replace [DecidableEq ν] [DecidableEq μ] {f : ν → μ} (hf : Function.Injective f)
    (x : Term ν) (v : ν) (t : Term ν) : (x.replace v t).map f = (x.map f).replace (f v) (t.map f) := by
  cases x with
  | const c => rfl
  | var w =>
    rw [Term.replace_var, Term.map_var, Term.replace_var]
    by_cases hw : w = v
    · rw [if_pos hw, if_pos (congrArg f hw)]
    · rw [if_neg hw, if_neg fun he => hw (hf he), Term.map_var]

theorem Term.map_eq_var_iff {f : ν → μ} (hf : Function.Injective f) {t : Term ν} {v : ν} :
    t.map f = .var (f v) ↔ t = .var v := by
  cases t <;> simp [hf.eq_iff]

/-! ### Renamed substitutions -/

namespace Substitution

/-- Renames each variable. -/
def map (f : ν → μ) (s : Substitution ν) : Substitution μ :=
  ⟨s.bindings.map fun b => (f b.1, b.2.map f)⟩

variable [DecidableEq ν] [DecidableEq μ] {f : ν → μ}

theorem walk_map (hf : Function.Injective f) (s : Substitution ν) (x : Term ν) :
    (s.map f).walk (x.map f) = (s.walk x).map f := by
  obtain ⟨bs⟩ := s
  induction bs generalizing x with
  | nil => rfl
  | cons b bs ih =>
    show (map f ⟨bs⟩).walk ((x.map f).replace (f b.1) (b.2.map f)) = _
    rw [← Term.map_replace hf, ih]
    rfl

omit [DecidableEq ν] [DecidableEq μ] in
theorem bind_map (s : Substitution ν) (v : ν) (t : Term ν) :
    (s.map f).bind (f v) (t.map f) = (s.bind v t).map f := by
  simp [bind, map]

theorem unify_map (hf : Function.Injective f) (s : Substitution ν) (l r : Term ν) :
    (s.map f).unify (l.map f) (r.map f) = (s.unify l r).map (map f) := by
  unfold unify
  rw [walk_map hf, walk_map hf]
  cases s.walk l with
  | const a =>
    cases s.walk r with
    | const b =>
      dsimp only [Term.map_const]
      split <;> rfl
    | var w => exact congrArg some (s.bind_map w (.const a))
  | var v =>
    dsimp only [Term.map_var]
    by_cases hr : s.walk r = .var v
    · rw [if_pos ((Term.map_eq_var_iff hf).mpr hr), if_pos hr]
      rfl
    · rw [if_neg (mt (Term.map_eq_var_iff hf).mp hr), if_neg hr]
      exact congrArg some (s.bind_map v _)

theorem unifyArgs_map (hf : Function.Injective f) : ∀ (s : Substitution ν) (ls rs : List (Term ν)),
    (s.map f).unifyArgs (ls.map (Term.map f)) (rs.map (Term.map f)) = (s.unifyArgs ls rs).map (map f)
  | _, [], [] => rfl
  | s, l :: ls, r :: rs => by
    rw [List.map_cons, List.map_cons, unifyArgs, unify_map hf, unifyArgs]
    cases s.unify l r with
    | none => rfl
    | some t => exact unifyArgs_map hf t ls rs
  | _, [], _ :: _ => rfl
  | _, _ :: _, [] => rfl

/-- **Unification commutes with renaming.** -/
theorem unifyAtoms_map (hf : Function.Injective f) (s : Substitution ν) (a b : Atom ν) :
    (s.map f).unifyAtoms (a.map f) (b.map f) = (s.unifyAtoms a b).map (map f) := by
  unfold unifyAtoms Atom.map
  dsimp only
  split
  · exact unifyArgs_map hf s a.args b.args
  · rfl

/-! ### Substitutions that agree up to names -/

variable {s : Substitution ν} {s' : Substitution μ}

/-- What `s'` makes of `x'` is what `s` makes of `x`, with its variable renamed. -/
def Agrees (f : ν → μ) (s : Substitution ν) (s' : Substitution μ) (x : Term ν) (x' : Term μ) : Prop :=
  (s.walk x).map f = s'.walk x'

theorem Agrees.bind (hf : Function.Injective f) {v : ν} {t x : Term ν} {x' : Term μ}
    (h : Agrees f s s' x x') : Agrees f (s.bind v t) (s'.bind (f v) (t.map f)) x x' := by
  unfold Agrees at *
  rw [walk_bind, walk_bind, Term.map_replace hf, h]

/-- Both fail, or both succeed and still agree on all on which they agreed before. -/
abbrev StillAgree (f : ν → μ) (s : Substitution ν) (s' : Substitution μ) :
    Option (Substitution ν) → Option (Substitution μ) → Prop :=
  Option.Rel fun t t' => ∀ x x', Agrees f s s' x x' → Agrees f t t' x x'

theorem agrees_unify (hf : Function.Injective f) {l r : Term ν} {l' r' : Term μ}
    (hl : Agrees f s s' l l') (hr : Agrees f s s' r r') :
    StillAgree f s s' (s.unify l r) (s'.unify l' r') := by
  unfold Agrees at hl hr
  unfold unify
  rw [← hl, ← hr]
  cases s.walk l with
  | const a =>
    cases s.walk r with
    | const b =>
      dsimp only [Term.map_const]
      by_cases hab : a = b
      · rw [if_pos hab, if_pos hab]; exact .some fun _ _ h => h
      · rw [if_neg hab, if_neg hab]; exact .none
    | var w => exact .some fun _ _ h => h.bind hf
  | var v =>
    dsimp only [Term.map_var]
    by_cases hv : s.walk r = .var v
    · rw [hv, if_pos rfl, Term.map_var, if_pos rfl]; exact .some fun _ _ h => h
    · rw [if_neg hv, if_neg (mt (Term.map_eq_var_iff hf).mp hv)]
      exact .some fun _ _ h => h.bind hf

theorem agrees_unifyArgs (hf : Function.Injective f) : ∀ {ls rs : List (Term ν)} {ls' rs' : List (Term μ)}
    {s : Substitution ν} {s' : Substitution μ}, List.Forall₂ (Agrees f s s') ls ls' →
    List.Forall₂ (Agrees f s s') rs rs' →
    StillAgree f s s' (s.unifyArgs ls rs) (s'.unifyArgs ls' rs')
  | [], [], _, _, _, _, .nil, .nil => .some fun _ _ h => h
  | _ :: _, _ :: _, _, _, s, s', .cons hl hls, .cons hr hrs => by
    unfold unifyArgs
    have hu := agrees_unify hf hl hr
    generalize s.unify _ _ = o, s'.unify _ _ = o' at hu ⊢
    cases hu with
    | none => exact .none
    | @some t t' ht =>
      have hrest := agrees_unifyArgs hf (hls.imp ht) (hrs.imp ht)
      dsimp only [Option.bind_some]
      generalize t.unifyArgs _ _ = o, t'.unifyArgs _ _ = o' at hrest ⊢
      cases hrest with
      | none => exact .none
      | some hu => exact .some fun x x' h => hu x x' (ht x x' h)
  | [], _ :: _, _, _, _, _, .nil, .cons _ _ => .none
  | _ :: _, [], _, _, _, _, .cons _ _, .nil => .none

/-- Unification does the same under other names. -/
theorem agrees_unifyAtoms (hf : Function.Injective f) {a b : Atom ν} {a' b' : Atom μ}
    (hpa : a.predicate = a'.predicate) (hpb : b.predicate = b'.predicate)
    (ha : List.Forall₂ (Agrees f s s') a.args a'.args)
    (hb : List.Forall₂ (Agrees f s s') b.args b'.args) :
    StillAgree f s s' (s.unifyAtoms a b) (s'.unifyAtoms a' b') := by
  unfold unifyAtoms
  rw [← hpa, ← hpb]
  by_cases h : a.predicate = b.predicate
  · rw [if_pos h, if_pos h]; exact agrees_unifyArgs hf ha hb
  · rw [if_neg h, if_neg h]; exact .none

end Substitution

/-! ### Outcomes that agree answer by answer -/

/-- The answers are related one by one, and both searches were cut or neither. -/
structure Outcome.Related {α β : Type} (R : α → β → Prop) (o : Outcome α) (o' : Outcome β) : Prop where
  answers : List.Forall₂ R o.answers o'.answers
  cut : o.cut = o'.cut

namespace Outcome

variable {α β γ δ : Type} {R : α → β → Prop} {S : γ → δ → Prop} {o : Outcome α} {o' : Outcome β}

theorem Related.mono {R' : α → β → Prop} (h : Related R o o') (hR : ∀ a b, R a b → R' a b) :
    Related R' o o' :=
  ⟨h.answers.imp hR, h.cut⟩

theorem related_any {f : α → Outcome γ} {f' : β → Outcome δ} {l : List α} {l' : List β}
    (h : List.Forall₂ R l l') (hf : ∀ a b, R a b → Related S (f a) (f' b)) :
    (l.any fun a => (f a).cut) = l'.any fun b => (f' b).cut := by
  induction h with
  | nil => rfl
  | cons hab _ ih => rw [List.any_cons, List.any_cons, (hf _ _ hab).cut, ih]

theorem Related.bind {f : α → Outcome γ} {f' : β → Outcome δ} (h : Related R o o')
    (hf : ∀ a b, R a b → Related S (f a) (f' b)) : Related S (o.bind f) (o'.bind f') where
  answers := List.rel_flatMap h.answers fun a b hab => (hf a b hab).answers
  cut := by
    show (o.cut || _) = (o'.cut || _)
    rw [h.cut, related_any h.answers hf]

theorem related_all {l : List α} {l' : List β} (h : List.Forall₂ R l l') : Related R (all l) (all l') :=
  ⟨h, rfl⟩

theorem related_one {a : α} {b : β} (h : R a b) : Related R (all [a]) (all [b]) :=
  related_all (.cons h .nil)

/-- Related answers that are shown alike make equal outcomes. -/
theorem Related.map_eq {f : α → γ} {f' : β → γ} (h : Related R o o') (hf : ∀ a b, R a b → f a = f' b) :
    o.map f = o'.map f' := by
  obtain ⟨ha, hc⟩ := h
  ext1
  · show o.answers.map f = o'.answers.map f'
    exact List.forall₂_eq_eq_eq ▸ List.forall₂_map_left_iff.mpr
      (List.forall₂_map_right_iff.mpr (ha.imp hf))
  · exact hc

end Outcome

/-! ### Other names for the variables of a search -/

variable {σ : Type}

/-- Other names for the variables of a search; those of the first `n` uses are named among those of
the first `m`. -/
structure Naming (σ : Type) (n m : Nat) where
  name : Var σ → Var σ
  injective : Function.Injective name
  upTo : ∀ v, v.UpTo n → (name v).UpTo m

namespace Naming

variable {n m : Nat} {e : σ → σ}

/-- Nothing is renamed, and the second search may have used more clauses. -/
def keep (h : n ≤ m) : Naming σ n m where
  name := id
  injective := Function.injective_id
  upTo := Var.UpTo.mono h

/-- In every use the slots are renamed alike. -/
def slots (he : Function.Injective e) : Naming σ n n where
  name v := ⟨v.use, e v.slot⟩
  injective := by
    rintro ⟨u, x⟩ ⟨v, y⟩ h
    obtain ⟨hu, hx⟩ := Var.mk.inj h
    exact congrArg₂ Var.mk hu (he hx)
  upTo _ hv := hv

/-- Names for one use more: it is the next one on both sides, and its slots are renamed by `e`. -/
def extend (r : Naming σ n m) (he : Function.Injective e) : Naming σ (n + 1) (m + 1) where
  name v := if v.use ≤ n then r.name v else ⟨v.use - n + m, e v.slot⟩
  injective := by
    have hold : ∀ v : Var σ, v.use ≤ n → (r.name v).use ≤ m := r.upTo
    intro v w h
    dsimp only at h
    by_cases hv : v.use ≤ n <;> by_cases hw : w.use ≤ n
    · rw [if_pos hv, if_pos hw] at h
      exact r.injective h
    · rw [if_pos hv, if_neg hw] at h
      have := hold v hv
      have huse : (r.name v).use = w.use - n + m := congrArg Var.use h
      omega
    · rw [if_neg hv, if_pos hw] at h
      have := hold w hw
      have huse : v.use - n + m = (r.name w).use := congrArg Var.use h
      omega
    · rw [if_neg hv, if_neg hw] at h
      obtain ⟨huse, hslot⟩ := Var.mk.inj h
      have hsame : v.use = w.use := by omega
      cases v
      cases w
      exact congrArg₂ Var.mk hsame (he hslot)
  upTo v hv := by
    split
    · next hold => exact Nat.le_succ_of_le (r.upTo v hold)
    · show v.use - n + m ≤ m + 1
      have : v.use ≤ n + 1 := hv
      omega

theorem extend_old (r : Naming σ n m) (he : Function.Injective e) {v : Var σ} (hv : v.UpTo n) :
    (r.extend he).name v = r.name v :=
  if_pos hv

theorem extend_new (r : Naming σ n m) (he : Function.Injective e) (x : σ) :
    (r.extend he).name ⟨n + 1, x⟩ = ⟨m + 1, e x⟩ := by
  show (if n + 1 ≤ n then _ else _) = _
  rw [if_neg (by omega), Nat.add_sub_cancel_left, Nat.add_comm]

end Naming

/-- The same clause with other slots for its variables. -/
def Clause.Variant (c c' : Clause σ) : Prop :=
  ∃ e : σ → σ, Function.Injective e ∧ c' = c.map e

theorem Clause.variants_refl (program : List (Clause σ)) : List.Forall₂ Clause.Variant program program :=
  List.forall₂_same.mpr fun c _ => ⟨id, Function.injective_id, c.map_id.symm⟩

/-! ### Branches that are alike -/

variable [DecidableEq σ]

/-- Up to names, the branches make the same of every pair of terms in `P`. -/
structure Branch.Alike (P : Term (Var σ) → Term (Var σ) → Prop) (b b' : Branch σ) : Prop where
  left : b.Scoped
  right : b'.Scoped
  leftTerms : ∀ x x', P x x' → x.Within (Var.UpTo b.uses)
  rightTerms : ∀ x x', P x x' → x'.Within (Var.UpTo b'.uses)
  agrees : ∃ r : Naming σ b.uses b'.uses, ∀ x x', P x x' → b.subst.Agrees r.name b'.subst x x'

/-- The atoms have the same predicate, and their arguments are paired by `P`. -/
structure Atom.Paired {ν μ : Type} (P : Term ν → Term μ → Prop) (a : Atom ν) (a' : Atom μ) : Prop where
  predicate : a.predicate = a'.predicate
  args : List.Forall₂ P a.args a'.args

theorem Atom.Paired.mono {ν μ : Type} {P Q : Term ν → Term μ → Prop} {a : Atom ν} {a' : Atom μ}
    (h : a.Paired P a') (hPQ : ∀ x x', P x x' → Q x x') : a.Paired Q a' :=
  ⟨h.predicate, h.args.imp hPQ⟩

variable {P : Term (Var σ) → Term (Var σ) → Prop} {a a' : Atom (Var σ)} {b b' : Branch σ}

theorem Branch.Alike.mono {Q : Term (Var σ) → Term (Var σ) → Prop} (h : b.Alike P b')
    (hPQ : ∀ x x', Q x x' → P x x') : b.Alike Q b' where
  left := h.left
  right := h.right
  leftTerms x x' hx := h.leftTerms x x' (hPQ x x' hx)
  rightTerms x x' hx := h.rightTerms x x' (hPQ x x' hx)
  agrees := by
    obtain ⟨r, hr⟩ := h.agrees
    exact ⟨r, fun x x' hx => hr x x' (hPQ x x' hx)⟩

/-- A term of a clause in a copy for the use `u`, and that of a variant in a copy for the use `u'`. -/
def Copies (u u' : Nat) (e : σ → σ) (x x' : Term (Var σ)) : Prop :=
  ∃ t : Term σ, x = t.map (Var.mk u) ∧ x' = (t.map e).map (Var.mk u')

omit [DecidableEq σ] in
theorem forall₂_copies (u u' : Nat) (e : σ → σ) (ts : List (Term σ)) : List.Forall₂ (Copies u u' e)
    (ts.map (Term.map (Var.mk u))) ((ts.map (Term.map e)).map (Term.map (Var.mk u'))) := by
  refine List.forall₂_map_left_iff.mpr (List.forall₂_map_right_iff.mpr ?_)
  exact List.forall₂_map_right_iff.mpr (List.forall₂_same.mpr fun t _ => ⟨t, rfl, rfl⟩)

omit [DecidableEq σ] in
theorem Atom.paired_copies (u u' : Nat) (e : σ → σ) (a : Atom σ) :
    (a.map (Var.mk u)).Paired (Copies u u' e) ((a.map e).map (Var.mk u')) where
  predicate := rfl
  args := forall₂_copies u u' e a.args

/-- Two searches for one goal under two names start alike. -/
theorem alike_start {e : σ → σ} (he : Function.Injective e) :
    Branch.Alike (Copies 0 0 e) ⟨.empty, 0⟩ ⟨.empty, 0⟩ where
  left := Substitution.within_empty _
  right := Substitution.within_empty _
  leftTerms x x' hx := by
    obtain ⟨t, rfl, -⟩ := hx
    exact t.within_copy 0
  rightTerms x x' hx := by
    obtain ⟨t, -, rfl⟩ := hx
    exact (t.map e).within_copy 0
  agrees := by
    refine ⟨.slots he, fun x x' hx => ?_⟩
    obtain ⟨t, rfl, rfl⟩ := hx
    show (t.map _).map _ = (t.map e).map _
    rw [Term.map_map, Term.map_map]
    rfl

/-- New copies of variants may be added to what branches are alike on. -/
theorem Branch.Alike.copies (h : b.Alike P b') {e : σ → σ} (he : Function.Injective e) :
    Branch.Alike (fun x x' => P x x' ∨ Copies (b.uses + 1) (b'.uses + 1) e x x')
      ⟨b.subst, b.uses + 1⟩ ⟨b'.subst, b'.uses + 1⟩ where
  left := h.left.mono (Var.UpTo.mono (Nat.le_succ _))
  right := h.right.mono (Var.UpTo.mono (Nat.le_succ _))
  leftTerms x x' hx := by
    rcases hx with hx | ⟨t, rfl, -⟩
    · exact (h.leftTerms x x' hx).mono (Var.UpTo.mono (Nat.le_succ _))
    · exact t.within_copy _
  rightTerms x x' hx := by
    rcases hx with hx | ⟨t, -, rfl⟩
    · exact (h.rightTerms x x' hx).mono (Var.UpTo.mono (Nat.le_succ _))
    · exact (t.map e).within_copy _
  agrees := by
    obtain ⟨r, hr⟩ := h.agrees
    refine ⟨r.extend he, fun x x' hx => ?_⟩
    have hfresh : ∀ (n : Nat) (w : Var σ), w.use = n + 1 → ¬ w.UpTo n :=
      fun n w hw => by unfold Var.UpTo; omega
    unfold Substitution.Agrees
    rcases hx with hx | ⟨t, rfl, rfl⟩
    · rw [← hr x x' hx]
      have hwalk := h.left.walk (h.leftTerms x x' hx)
      cases hw : b.subst.walk x with
      | const c => rfl
      | var w =>
        rw [hw] at hwalk
        rw [Term.map_var, Term.map_var, r.extend_old he (hwalk w rfl)]
    · cases t with
      | const c => simp
      | var w =>
        rw [Term.map_var, Term.map_var, Term.map_var, h.left.walk_var (hfresh _ _ rfl),
          h.right.walk_var (hfresh _ _ rfl), Term.map_var, r.extend_new he]

omit [DecidableEq σ] in
theorem Atom.Paired.within {n : Nat} (h : a.Paired P a') (hP : ∀ x x', P x x' → x.Within (Var.UpTo n)) :
    a.Within (Var.UpTo n) := by
  intro t ht
  obtain ⟨i, hi, rfl⟩ := List.getElem_of_mem ht
  exact hP _ _ (h.args.get hi (h.args.length_eq ▸ hi))

omit [DecidableEq σ] in
theorem Atom.Paired.within' {n : Nat} (h : a.Paired P a') (hP : ∀ x x', P x x' → x'.Within (Var.UpTo n)) :
    a'.Within (Var.UpTo n) := by
  intro t ht
  obtain ⟨i, hi, rfl⟩ := List.getElem_of_mem ht
  exact hP _ _ (h.args.get (h.args.length_eq ▸ hi) hi)

/-- Unifying paired atoms leaves branches alike, or fails on both. -/
theorem Branch.Alike.unifyAtoms (h : b.Alike P b') {c c' : Atom (Var σ)} (hc : c.Paired P c')
    (ha : a.Paired P a') :
    Option.Rel (fun t t' => Branch.Alike P ⟨t, b.uses⟩ ⟨t', b'.uses⟩) (b.subst.unifyAtoms c a)
      (b'.subst.unifyAtoms c' a') := by
  obtain ⟨r, hr⟩ := h.agrees
  have hrel := Substitution.agrees_unifyAtoms r.injective hc.predicate ha.predicate (hc.args.imp hr) (ha.args.imp hr)
  have hleft : ∀ t, b.subst.unifyAtoms c a = some t → t.Within (Var.UpTo b.uses) := fun t hu =>
    h.left.unifyAtoms (hc.within h.leftTerms) (ha.within h.leftTerms) hu
  have hright : ∀ t, b'.subst.unifyAtoms c' a' = some t → t.Within (Var.UpTo b'.uses) := fun t hu =>
    h.right.unifyAtoms (hc.within' h.rightTerms) (ha.within' h.rightTerms) hu
  generalize b.subst.unifyAtoms c a = o, b'.subst.unifyAtoms c' a' = o' at hrel hleft hright ⊢
  cases hrel with
  | none => exact .none
  | @some t t' ht =>
    exact .some ⟨hleft t rfl, hright t' rfl, h.leftTerms, h.rightTerms, r,
      fun x x' hx => ht x x' (hr x x' hx)⟩

/-- What goes on from branches that are alike, on paired rows of atoms, is alike again. -/
def RespectsAlike (prove prove' : List (Atom (Var σ)) → Branch σ → Outcome (Branch σ)) : Prop :=
  ∀ ⦃P : Term (Var σ) → Term (Var σ) → Prop⦄ ⦃b b' : Branch σ⦄ ⦃as as' : List (Atom (Var σ))⦄,
    b.Alike P b' → List.Forall₂ (Atom.Paired P) as as' →
      Outcome.Related (Branch.Alike P) (prove as b) (prove' as' b')

/-- A clause and its variant used on branches that are alike leave branches that are alike. -/
theorem alike_useClause {prove prove' : List (Atom (Var σ)) → Branch σ → Outcome (Branch σ)}
    (hprove : RespectsAlike prove prove') (h : b.Alike P b') (ha : a.Paired P a') {c c' : Clause σ}
    (hc : c.Variant c') :
    Outcome.Related (Branch.Alike P) (b.useClause prove a c) (b'.useClause prove' a' c') := by
  obtain ⟨e, he, rfl⟩ := hc
  have hold : ∀ x x', P x x' → P x x' ∨ Copies (b.uses + 1) (b'.uses + 1) e x x' := fun _ _ => Or.inl
  have hnew (d : Atom σ) := (d.paired_copies (b.uses + 1) (b'.uses + 1) e).mono fun x x' hx =>
    (Or.inr hx : P x x' ∨ Copies (b.uses + 1) (b'.uses + 1) e x x')
  have hrel := (h.copies he).unifyAtoms (hnew c.head) (ha.mono hold)
  unfold Branch.useClause
  dsimp only [Clause.map] at hrel ⊢
  generalize b.subst.unifyAtoms _ _ = o, b'.subst.unifyAtoms _ _ = o' at hrel ⊢
  cases hrel with
  | none => exact ⟨.nil, rfl⟩
  | some ht =>
    refine (hprove ht ?_).mono fun _ _ hb => hb.mono hold
    refine List.forall₂_map_left_iff.mpr (List.forall₂_map_right_iff.mpr ?_)
    exact List.forall₂_map_right_iff.mpr (List.forall₂_same.mpr fun d _ => hnew d)

theorem alike_proveAll {prove prove' : Atom (Var σ) → Branch σ → Outcome (Branch σ)}
    (hprove : ∀ ⦃P b b' a a'⦄, Branch.Alike P b b' → Atom.Paired P a a' →
      Outcome.Related (Branch.Alike P) (prove a b) (prove' a' b')) :
    RespectsAlike (proveAll prove) (proveAll prove') := by
  intro P b b' as as' h has
  induction has generalizing b b' with
  | nil => exact Outcome.related_one h
  | cons ha _ ih => exact (hprove h ha).bind fun b b' hb => ih hb

theorem alike_proveNone : RespectsAlike (proveNone (σ := σ)) proveNone := by
  intro P b b' as as' h has
  cases has with
  | nil => exact Outcome.related_one h
  | cons _ _ => exact ⟨.nil, rfl⟩

variable {program program' : List (Clause σ)}

/-- **A search does not depend on names.** In programs that are variants of each other, from branches
that are alike and on paired atoms, it leaves branches that are alike, one by one, and is cut on both
sides or neither. -/
theorem alike_proveAtom (hprogram : List.Forall₂ Clause.Variant program program') (n : Nat)
    (h : b.Alike P b') (ha : a.Paired P a') :
    Outcome.Related (Branch.Alike P) (proveAtom program n a b) (proveAtom program' n a' b') := by
  induction n generalizing P b b' a a' with
  | zero =>
    exact (Outcome.related_all hprogram).bind fun c c' hc => alike_useClause alike_proveNone h ha hc
  | succ n ih =>
    exact (Outcome.related_all hprogram).bind fun c c' hc =>
      alike_useClause (alike_proveAll fun _ _ _ _ _ h ha => ih h ha) h ha hc

theorem alike_proveBody (hprogram : List.Forall₂ Clause.Variant program program') :
    ∀ n : Nat, RespectsAlike (proveBody program n) (proveBody program' n)
  | 0 => alike_proveNone
  | n + 1 => alike_proveAll fun _ _ _ _ _ h ha => alike_proveAtom hprogram n h ha

end HornReasoner
