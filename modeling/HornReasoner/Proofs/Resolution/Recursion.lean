/-
# Depth-first resolution as a recursion

A search for proofs without a stack. To prove an atom the clauses are tried in
order, each with variables of its own: its head is unified with the atom, and the
atoms of its body are proved from left to right, each on every branch that the
ones before it leave. A rule passes one rule less to its body, and when none is
left that branch fails and counts as cut; a fact costs nothing. A branch is what
the variables stand for after the clauses used so far, and its answers come one
for each proof.

`proveAtom_eq` is the recursion in one line, `mem_proveAtom` and `cut_proveAtom`
say which branches it leaves and when it is cut, and `proveAtom_eq_of_not_cut`
that more rules change nothing when no branch was cut.

Key definitions: `Outcome`, `Branch`, `proveAll`, `proveAtom`, `answersByRecursion`.
Key theorems: `mem_proveAtom`, `cut_proveAtom`, `proveAtom_eq_of_not_cut`.
-/
import HornReasoner.Resolution.Answer
import HornReasoner.Proofs.Resolution.Unifier

namespace HornReasoner

/-- What a search finds, in order, and whether some branch of it was cut. -/
structure Outcome (α : Type) where
  answers : List α
  cut : Bool
  deriving DecidableEq, Repr

namespace Outcome

variable {α β γ : Type}

/-- These answers, and nothing cut. -/
def all (l : List α) : Outcome α := ⟨l, false⟩

/-- A branch that is cut. -/
def cutOff : Outcome α := ⟨[], true⟩

/-- Goes on from each answer in turn. -/
def bind (o : Outcome α) (f : α → Outcome β) : Outcome β :=
  ⟨o.answers.flatMap fun a => (f a).answers, o.cut || o.answers.any fun a => (f a).cut⟩

/-- The answers of one search and then those of another. -/
def append (o o' : Outcome α) : Outcome α := ⟨o.answers ++ o'.answers, o.cut || o'.cut⟩

/-- The answers as `f` shows them. -/
def map (f : α → β) (o : Outcome α) : Outcome β := ⟨o.answers.map f, o.cut⟩

@[ext] theorem ext {o o' : Outcome α} (ha : o.answers = o'.answers) (hc : o.cut = o'.cut) : o = o' := by
  cases o; cases o'; cases ha; cases hc; rfl

theorem one_bind (a : α) (f : α → Outcome β) : (all [a]).bind f = f a := by
  simp [all, bind]

theorem bind_one (o : Outcome α) : o.bind (fun a => all [a]) = o := by
  ext1
  · simp [all, bind, List.flatMap_singleton']
  · simp [all, bind]

theorem bind_assoc (o : Outcome α) (f : α → Outcome β) (g : β → Outcome γ) :
    (o.bind f).bind g = o.bind fun a => (f a).bind g := by
  ext1
  · simp [bind, List.flatMap_assoc]
  · rw [Bool.eq_iff_iff]
    simp only [bind, Bool.or_eq_true, List.any_eq_true, List.mem_flatMap]
    constructor
    · rintro ((h | ⟨a, ha, h⟩) | ⟨b, ⟨a, ha, hb⟩, h⟩)
      · exact Or.inl h
      · exact Or.inr ⟨a, ha, Or.inl h⟩
      · exact Or.inr ⟨a, ha, Or.inr ⟨b, hb, h⟩⟩
    · rintro (h | ⟨a, ha, h | ⟨b, hb, h⟩⟩)
      · exact Or.inl (Or.inl h)
      · exact Or.inl (Or.inr ⟨a, ha, h⟩)
      · exact Or.inr ⟨b, ⟨a, ha, hb⟩, h⟩

theorem all_cons_bind (a : α) (l : List α) (f : α → Outcome β) :
    (all (a :: l)).bind f = (f a).append ((all l).bind f) := rfl

theorem append_bind (o o' : Outcome α) (f : α → Outcome β) :
    (o.append o').bind f = (o.bind f).append (o'.bind f) := by
  ext1
  · simp [append, bind]
  · simp only [append, bind, List.any_append]
    ac_rfl

theorem map_append (f : α → β) (o o' : Outcome α) :
    (o.append o').map f = (o.map f).append (o'.map f) := by
  simp [append, map]

theorem map_map (f : α → β) (g : β → γ) (o : Outcome α) : (o.map f).map g = o.map (g ∘ f) :=
  ext List.map_map rfl

theorem append_assoc (o o' o'' : Outcome α) : (o.append o').append o'' = o.append (o'.append o'') := by
  simp [append, Bool.or_assoc]

theorem nothing_append (o : Outcome α) : (all []).append o = o := by
  simp [append, all]

theorem mem_bind {o : Outcome α} {f : α → Outcome β} {b : β} :
    b ∈ (o.bind f).answers ↔ ∃ a ∈ o.answers, b ∈ (f a).answers := by
  simp [bind]

theorem cut_bind {o : Outcome α} {f : α → Outcome β} :
    (o.bind f).cut = false ↔ o.cut = false ∧ ∀ a ∈ o.answers, (f a).cut = false := by
  simp [bind]

/-- What goes on alike from every answer has the same outcome. -/
theorem bind_congr {o : Outcome α} {f g : α → Outcome β} (h : ∀ a ∈ o.answers, f a = g a) :
    o.bind f = o.bind g := by
  ext1
  · show o.answers.flatMap _ = o.answers.flatMap _
    rw [List.flatMap_congr fun a ha => by rw [h a ha]]
  · show (o.cut || o.answers.any _) = (o.cut || o.answers.any _)
    rw [Bool.eq_iff_iff, Bool.or_eq_true, Bool.or_eq_true, List.any_eq_true, List.any_eq_true]
    exact or_congr_right (exists_congr fun a => and_congr_right fun ha => by rw [h a ha])

end Outcome

/-- A branch of the recursion: what its variables stand for, and how many clauses it has used. -/
structure Branch (σ : Type) where
  subst : Substitution (Var σ)
  uses : Nat
  deriving DecidableEq, Repr

variable {σ : Type}

/-- The variable belongs to the goal or to one of the first `n` uses. -/
def Var.UpTo (n : Nat) (v : Var σ) : Prop := v.use ≤ n

/-- Variables of later uses are not bound yet and stand in no binding. -/
def Branch.Scoped (b : Branch σ) : Prop := b.subst.Within (Var.UpTo b.uses)

theorem Var.UpTo.mono {n m : Nat} (h : n ≤ m) (v : Var σ) (hv : v.UpTo n) : v.UpTo m :=
  Nat.le_trans hv h

/-- A copy of a term has variables of its own use only. -/
theorem Term.within_copy (n : Nat) (t : Term σ) : (t.map (Var.mk n)).Within (Var.UpTo n) := by
  intro v hv
  cases t with
  | const c => cases hv
  | var w => cases hv; exact Nat.le_refl n

theorem Atom.within_copy (n : Nat) (a : Atom σ) : (a.map (Var.mk n)).Within (Var.UpTo n) := by
  intro t ht
  obtain ⟨u, -, rfl⟩ := List.mem_map.mp ht
  exact u.within_copy n

variable [DecidableEq σ]

/-- Uses a clause on an atom: the head of a new copy is unified with the atom, and `prove` goes on
with the body. -/
def Branch.useClause (prove : List (Atom (Var σ)) → Branch σ → Outcome (Branch σ)) (a : Atom (Var σ))
    (b : Branch σ) (c : Clause σ) : Outcome (Branch σ) :=
  let copy := c.map (Var.mk (b.uses + 1))
  match b.subst.unifyAtoms copy.head a with
  | none => .all []
  | some s => prove copy.body ⟨s, b.uses + 1⟩

/-- Proves atoms from left to right, each on every branch that the ones before it leave. -/
def proveAll (prove : Atom (Var σ) → Branch σ → Outcome (Branch σ)) :
    List (Atom (Var σ)) → Branch σ → Outcome (Branch σ)
  | [], b => .all [b]
  | a :: as, b => (prove a b).bind (proveAll prove as)

/-- Goes on with a body when no rule is left: that of a fact is done, and a rule is cut. -/
def proveNone : List (Atom (Var σ)) → Branch σ → Outcome (Branch σ)
  | [], b => .all [b]
  | _ :: _, _ => .cutOff

/-- Proves an atom on a branch, with at most `n` rules on a path: tries each clause in order. -/
def proveAtom (program : List (Clause σ)) : Nat → Atom (Var σ) → Branch σ → Outcome (Branch σ)
  | 0, a, b => (Outcome.all program).bind (b.useClause proveNone a)
  | n + 1, a, b => (Outcome.all program).bind (b.useClause (proveAll (proveAtom program n)) a)

/-- Proves the body of a clause, with at most `n` rules on a path, the clause counted. -/
def proveBody (program : List (Clause σ)) : Nat → List (Atom (Var σ)) → Branch σ → Outcome (Branch σ)
  | 0 => proveNone
  | n + 1 => proveAll (proveAtom program n)

/-- The answers to a goal found by recursion, one for each proof, and whether a branch was cut. -/
def answersByRecursion (clauses : List (Clause String)) (goal : Atom String) (depth : Nat) :
    Outcome Binding :=
  (proveAtom (clauses.map Clause.apart) depth ((goal.apart 0).map (Var.mk 0)) ⟨.empty, 0⟩).map fun b =>
    SortedMap.ofList (goal.asked.map fun v => (v, (b.subst.apply ⟨0, .named v⟩).shown))

/-- One friendship, and friendship is mutual. -/
def friends : List (Clause String) :=
  [.fact ⟨"friend", [.const "a", .const "b"]⟩,
    ⟨⟨"friend", [.var "X", .var "Y"]⟩, [⟨"friend", [.var "Y", .var "X"]⟩]⟩]

/-- The fact itself, and one more proof for each double swap within four rules. -/
example : answersByRecursion friends ⟨"friend", [.const "a", .const "b"]⟩ 4 =
    ⟨[.empty, .empty, .empty], true⟩ := by
  decide +kernel

variable {program : List (Clause σ)} {n : Nat} {a : Atom (Var σ)} {as : List (Atom (Var σ))}
  {b b' : Branch σ}

theorem proveAtom_eq (program : List (Clause σ)) : ∀ (n : Nat) (a : Atom (Var σ)) (b : Branch σ),
    proveAtom program n a b = (Outcome.all program).bind (b.useClause (proveBody program n) a)
  | 0, _, _ => rfl
  | _ + 1, _, _ => rfl

/-- The branches that a clause leaves are those that its body leaves after its head is unified. -/
theorem mem_useClause {prove : List (Atom (Var σ)) → Branch σ → Outcome (Branch σ)} {c : Clause σ} :
    b' ∈ (b.useClause prove a c).answers ↔
      ∃ s, b.subst.unifyAtoms (c.head.map (Var.mk (b.uses + 1))) a = some s ∧
        b' ∈ (prove (c.body.map (Atom.map (Var.mk (b.uses + 1)))) ⟨s, b.uses + 1⟩).answers := by
  unfold Branch.useClause
  dsimp only [Clause.map]
  cases b.subst.unifyAtoms (c.head.map (Var.mk (b.uses + 1))) a <;> simp [Outcome.all]

theorem cut_useClause {prove : List (Atom (Var σ)) → Branch σ → Outcome (Branch σ)} {c : Clause σ} :
    (b.useClause prove a c).cut = false ↔
      ∀ s, b.subst.unifyAtoms (c.head.map (Var.mk (b.uses + 1))) a = some s →
        (prove (c.body.map (Atom.map (Var.mk (b.uses + 1)))) ⟨s, b.uses + 1⟩).cut = false := by
  unfold Branch.useClause
  dsimp only [Clause.map]
  cases b.subst.unifyAtoms (c.head.map (Var.mk (b.uses + 1))) a <;> simp [Outcome.all]

/-- A branch is left by some clause. -/
theorem mem_proveAtom : b' ∈ (proveAtom program n a b).answers ↔
    ∃ c ∈ program, ∃ s, b.subst.unifyAtoms (c.head.map (Var.mk (b.uses + 1))) a = some s ∧
      b' ∈ (proveBody program n (c.body.map (Atom.map (Var.mk (b.uses + 1)))) ⟨s, b.uses + 1⟩).answers := by
  rw [proveAtom_eq, Outcome.mem_bind]
  simp only [mem_useClause, Outcome.all]

/-- Nothing is cut if no clause whose head fits is cut in its body. -/
theorem cut_proveAtom : (proveAtom program n a b).cut = false ↔
    ∀ c ∈ program, ∀ s, b.subst.unifyAtoms (c.head.map (Var.mk (b.uses + 1))) a = some s →
      (proveBody program n (c.body.map (Atom.map (Var.mk (b.uses + 1)))) ⟨s, b.uses + 1⟩).cut = false := by
  rw [proveAtom_eq, Outcome.cut_bind]
  simp only [cut_useClause, Outcome.all, true_and]

omit [DecidableEq σ] in
theorem proveAll_cons (prove : Atom (Var σ) → Branch σ → Outcome (Branch σ)) (a : Atom (Var σ))
    (as : List (Atom (Var σ))) (b : Branch σ) :
    proveAll prove (a :: as) b = (prove a b).bind (proveAll prove as) := rfl

/-! ### More rules change nothing when no branch was cut -/

omit [DecidableEq σ] in
theorem proveAll_eq_of_not_cut {prove prove' : Atom (Var σ) → Branch σ → Outcome (Branch σ)}
    (h : ∀ a b, (prove a b).cut = false → prove' a b = prove a b) :
    ∀ (as : List (Atom (Var σ))) (b : Branch σ), (proveAll prove as b).cut = false →
      proveAll prove' as b = proveAll prove as b
  | [], _, _ => rfl
  | a :: as, b, hc => by
    obtain ⟨h₁, h₂⟩ := Outcome.cut_bind.mp hc
    rw [proveAll_cons, proveAll_cons, h a b h₁]
    exact Outcome.bind_congr fun b' hb' => proveAll_eq_of_not_cut h as b' (h₂ b' hb')

theorem useClause_eq_of_not_cut {prove prove' : List (Atom (Var σ)) → Branch σ → Outcome (Branch σ)}
    (h : ∀ as b, (prove as b).cut = false → prove' as b = prove as b) {c : Clause σ}
    (hc : (b.useClause prove a c).cut = false) : b.useClause prove' a c = b.useClause prove a c := by
  have hbody := cut_useClause.mp hc
  unfold Branch.useClause
  dsimp only [Clause.map]
  cases hu : b.subst.unifyAtoms (c.head.map (Var.mk (b.uses + 1))) a with
  | none => rfl
  | some s => exact h _ _ (hbody s hu)

/-- **A search that cut nothing is complete.** With more rules it finds the same. -/
theorem proveAtom_eq_of_not_cut (program : List (Clause σ)) {n m : Nat} (hnm : n ≤ m)
    (a : Atom (Var σ)) (b : Branch σ) (hc : (proveAtom program n a b).cut = false) :
    proveAtom program m a b = proveAtom program n a b := by
  induction n generalizing m a b with
  | zero =>
    -- with no rule left only facts were used, and a fact leaves the same branch for every `m`
    have hbody : ∀ as b, (proveBody program 0 as b).cut = false →
        proveBody program m as b = proveBody program 0 as b := by
      intro as b hb
      cases as with
      | nil => cases m <;> rfl
      | cons a as => cases hb
    rw [proveAtom_eq] at hc ⊢
    rw [proveAtom_eq]
    exact Outcome.bind_congr fun c hcp => useClause_eq_of_not_cut hbody ((Outcome.cut_bind.mp hc).2 c hcp)
  | succ n ih =>
    obtain ⟨m, rfl⟩ : ∃ k, m = k + 1 := ⟨m - 1, by omega⟩
    rw [proveAtom_eq] at hc ⊢
    rw [proveAtom_eq]
    refine Outcome.bind_congr fun c hcp => useClause_eq_of_not_cut ?_ ((Outcome.cut_bind.mp hc).2 c hcp)
    exact proveAll_eq_of_not_cut fun a b => ih (by omega) a b

theorem answersByRecursion_eq_of_not_cut {clauses : List (Clause String)} {goal : Atom String}
    {d d' : Nat} (hd : d ≤ d') (hcut : (answersByRecursion clauses goal d).cut = false) :
    answersByRecursion clauses goal d' = answersByRecursion clauses goal d := by
  unfold answersByRecursion
  rw [proveAtom_eq_of_not_cut _ hd _ _ hcut]

end HornReasoner
