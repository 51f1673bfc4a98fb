/-
# Renamed variables never collide

A resolver that works on clauses as written has to make new names. Each underscore of the goal is
a call for one, and so is each use of a clause, and each call takes the next number. Read
as what they are made for (`exists_readsNames`), the texts are the variables of the resolver that
tells them apart by structure, and it does the same, step by step (`NamedResolver.read_step`).
So it stops, and with the answers of `solve`. The names that two calls make have different
numbers, and a name of the goal has none (`NamedResolver.names_never_collide`).

Key definitions: `NameCall`, `NamedResolver`, `NamedResolver.step`, `NamedResolver.read`,
`NamedResolver.Orderly`.
Key theorems: `exists_readsNames`, `NamedResolver.read_step`,
`NamedResolver.Orderly.step`, `NamedResolver.names_never_collide`.
-/
import HornReasoner.Proofs.Logic.Copies
import HornReasoner.Proofs.Resolution.Termination

namespace HornReasoner

/-! ### A search that makes names -/

/-- A call for new names: for one underscore of the goal, or for a copy of a clause. -/
inductive NameCall
  | query (name : String)
  | copy (clause copied : Clause String)
  deriving DecidableEq, Repr

/-- The call makes the name. -/
def NameCall.Makes : NameCall → String → Prop
  | query n, v => v = n
  | copy _ d, v => .var v ∈ d.args

/-- A point of the search: the goals left, the bindings so far, and the clauses not yet tried. -/
structure NamedFrame where
  goals : List (Goal String)
  subst : Substitution String
  untried : List (Clause String)
  deriving DecidableEq, Repr

/-- The state of a search on clauses as written. -/
structure NamedResolver where
  /-- Open frames, the newest first. -/
  stack : List NamedFrame
  /-- The bindings of the proofs found, the newest first. -/
  found : List (Substitution String)
  /-- How many more answers are wanted. -/
  room : Nat
  /-- The number that was taken last. -/
  fresh : Nat
  /-- The calls so far, the newest first. -/
  calls : List NameCall
  /-- Some branch was cut. -/
  cut : Bool
  deriving DecidableEq, Repr

/-- The name of a variable of the goal; `j` underscores stand before it. -/
def queryName (j : Nat) (v : String) : String :=
  if v = "_" then newName "_" (j + 1) none else v

namespace NamedResolver

/-- Takes the next number for a copy of a clause. -/
def call (c : Clause String) (s : NamedResolver) : NamedResolver :=
  { s with fresh := s.fresh + 1, calls := .copy c (c.copy (s.fresh + 1)) :: s.calls }

/-- Tries a clause on the first goal of a frame: the head of a copy is unified with the goal. -/
def tryClause (clauses : List (Clause String)) (c : Clause String) (g : Goal String)
    (rest : List (Goal String)) (subst : Substitution String) (s : NamedResolver) : NamedResolver :=
  let copy := c.copy (s.fresh + 1)
  let s := s.call c
  match subst.unifyAtoms copy.head g.atom with
  | none => s
  | some subst =>
    match copy.body, g.budget with
    | [], _ => { s with stack := ⟨rest, subst, clauses⟩ :: s.stack }
    | _ :: _, 0 => { s with cut := true }
    | a :: as, b + 1 =>
      { s with stack := ⟨(a :: as).map (fun a => ⟨a, b⟩) ++ rest, subst, clauses⟩ :: s.stack }

/-- One step of the search. -/
def step (clauses : List (Clause String)) (s : NamedResolver) : Option NamedResolver :=
  match s.room, s.stack with
  | 0, _ => none
  | _, [] => none
  | room + 1, ⟨[], subst, _⟩ :: below => some { s with stack := below, found := subst :: s.found, room }
  | _, ⟨_ :: _, _, []⟩ :: below => some { s with stack := below }
  | _, ⟨g :: rest, subst, c :: untried⟩ :: below =>
    let waiting := { s with stack := ⟨g :: rest, subst, untried⟩ :: below }
    some (if c.head.sameSymbol g.atom then waiting.tryClause clauses c g rest subst else waiting)

/-- Before the first step each underscore of the goal has a name. -/
def start (clauses : List (Clause String)) (goal : Atom String) (depth room : Nat) : NamedResolver where
  stack := [⟨[⟨goal.number queryName 0, depth⟩], .empty, clauses⟩]
  found := []
  room := room
  fresh := blanksIn goal.args
  calls := ((goal.args.filter Term.isAnonymous).mapIdx fun j _ =>
    .query (newName "_" (j + 1) none)).reverse
  cut := false

/-- The answers to a goal when the search is over. -/
def result (goal : Atom String) (depth : Nat) (s : NamedResolver) : Except QueryError (List Binding) :=
  if s.cut && s.found.isEmpty then .error (.depthLimitExceeded depth)
  else .ok (s.found.reverse.map fun θ =>
    SortedMap.ofList (goal.asked.map fun v => (v, (θ.walk (.var v)).shown)))

end NamedResolver

/-! ### Calls in order -/

namespace NameCall

variable {clauses : List (Clause String)} {x y : NameCall} {k l : Nat} {v : String}

/-- The call takes the number. -/
inductive Numbered (clauses : List (Clause String)) (k : Nat) : NameCall → Prop
  | query : Numbered clauses k (.query (newName "_" k none))
  | copy {c : Clause String} (h : c ∈ clauses) : Numbered clauses k (.copy c (c.copy k))

/-- A call makes names with its number. -/
theorem Numbered.exists_eq_newName (hclauses : ∀ c ∈ clauses, c.Plain) (hx : x.Numbered clauses k)
    (hv : x.Makes v) : ∃ w blank, PlainName w ∧ v = newName w k blank := by
  cases hx with
  | query => exact ⟨_, _, plainName_blank, hv⟩
  | copy h => exact Clause.exists_eq_newName (hclauses _ h) hv

/-- **Calls with different numbers make different names.** -/
theorem Numbered.not_makes (hclauses : ∀ c ∈ clauses, c.Plain) (hx : x.Numbered clauses k)
    (hy : y.Numbered clauses l) (hne : k ≠ l) (hv : x.Makes v) : ¬ y.Makes v := by
  intro hv'
  obtain ⟨w, i, hw, rfl⟩ := hx.exists_eq_newName hclauses hv
  obtain ⟨w', j, -, hname⟩ := hy.exists_eq_newName hclauses hv'
  exact hne ((newName_inj hw).mp hname).2.1

end NameCall

/-- Every variable of the goals and of the bindings satisfies `p`. -/
structure NamedFrame.Within (p : String → Prop) (f : NamedFrame) : Prop where
  goals : ∀ g ∈ f.goals, g.atom.Within p
  subst : f.subst.Within p

theorem NamedFrame.Within.mono {p q : String → Prop} {f : NamedFrame} (h : f.Within p)
    (hpq : ∀ v, p v → q v) : f.Within q where
  goals g hg t ht := (h.goals g hg t ht).mono hpq
  subst := h.subst.mono hpq

namespace NamedResolver

variable {clauses : List (Clause String)} {goal : Atom String} {s s' : NamedResolver}

/-- The name stands in the goal, or a call so far has made it. -/
def Knows (goal : Atom String) (s : NamedResolver) (v : String) : Prop :=
  .var v ∈ goal.args ∨ ∃ x ∈ s.calls, x.Makes v

/-- The clauses to try are clauses of the program, and no name comes from elsewhere than from the goal
and from calls. The calls have taken different numbers, and made different names. -/
structure Orderly (clauses : List (Clause String)) (goal : Atom String) (s : NamedResolver) : Prop where
  untried : ∀ f ∈ s.stack, ∀ c ∈ f.untried, c ∈ clauses
  known : ∀ f ∈ s.stack, f.Within (s.Knows goal)
  fresh : blanksIn goal.args ≤ s.fresh
  numbered : ∀ x ∈ s.calls, ∃ k ≤ s.fresh, x.Numbered clauses k
  apart : s.calls.Pairwise fun x y => ∀ v, x.Makes v → ¬ y.Makes v

/-- Each underscore of the goal has got a name from its call. -/
theorem knows_start (clauses : List (Clause String)) (goal : Atom String) (depth room : Nat) :
    (goal.number queryName 0).Within ((start clauses goal depth room).Knows goal) := by
  intro t ht v hv
  obtain ⟨i, hi⟩ := List.getElem?_of_mem ht
  rw [Atom.number, getElem?_numberRow, Nat.zero_add] at hi
  obtain ⟨u, hu, rfl⟩ := Option.map_eq_some_iff.mp hi
  cases u with
  | const x => cases hv
  | var w =>
    obtain rfl := Term.var.inj hv
    unfold queryName
    split
    · next hw =>
      subst hw
      have hlt := blanksIn_take_lt hu (List.getElem?_eq_some_iff.mp hu).1
      rw [List.take_length, blanksIn_eq_length goal.args] at hlt
      exact Or.inr ⟨_, List.mem_reverse.mpr (List.mem_mapIdx.mpr ⟨_, hlt, rfl⟩), rfl⟩
    · exact Or.inl (List.mem_of_getElem? hu)

theorem Orderly.start (clauses : List (Clause String)) (goal : Atom String) (depth room : Nat) :
    (start clauses goal depth room).Orderly clauses goal where
  untried f hf c hc := by
    rw [List.mem_singleton.mp hf] at hc
    exact hc
  known f hf := by
    rw [List.mem_singleton.mp hf]
    refine ⟨fun g hg => ?_, Substitution.within_empty _⟩
    rw [List.mem_singleton.mp hg]
    exact knows_start clauses goal depth room
  fresh := Nat.le_refl _
  numbered x hx := by
    obtain ⟨j, hj, rfl⟩ := List.mem_mapIdx.mp (List.mem_reverse.mp hx)
    have hfresh : j + 1 ≤ blanksIn goal.args := by
      rwa [blanksIn_eq_length]
    exact ⟨j + 1, hfresh, .query⟩
  apart := by
    refine List.pairwise_reverse.mpr (List.pairwise_iff_getElem.mpr fun i j hi hj hij v hv hv' => ?_)
    rw [List.getElem_mapIdx] at hv hv'
    have hnumbers := ((newName_inj plainName_blank).mp (hv'.symm.trans hv)).2.1
    omega

theorem knows_call (c : Clause String) (v : String) (hv : s.Knows goal v) : (s.call c).Knows goal v :=
  hv.imp_right fun ⟨x, hx, hmakes⟩ => ⟨x, List.mem_cons_of_mem _ hx, hmakes⟩

/-- **A call takes a new number**, and so it makes new names. -/
theorem Orderly.call (hclauses : ∀ c ∈ clauses, c.Plain) (h : s.Orderly clauses goal) {c : Clause String}
    (hc : c ∈ clauses) : (s.call c).Orderly clauses goal where
  untried := h.untried
  known f hf := (h.known f hf).mono (knows_call c)
  fresh := Nat.le_succ_of_le h.fresh
  numbered := by
    refine List.forall_mem_cons.mpr ⟨⟨_, Nat.le_refl _, .copy hc⟩, fun x hx => ?_⟩
    obtain ⟨k, hk, hx⟩ := h.numbered x hx
    exact ⟨k, Nat.le_succ_of_le hk, hx⟩
  apart := by
    refine List.pairwise_cons.mpr ⟨fun x hx v hv => ?_, h.apart⟩
    obtain ⟨k, hk, hx⟩ := h.numbered x hx
    exact NameCall.Numbered.not_makes hclauses (.copy hc) hx (by omega) hv

/-- Frames may go, and what is found, wanted or cut does not matter. -/
theorem Orderly.of_subset (h : s.Orderly clauses goal) (hstack : s'.stack ⊆ s.stack)
    (hfresh : s'.fresh = s.fresh) (hcalls : s'.calls = s.calls) : s'.Orderly clauses goal where
  untried f hf := h.untried f (hstack hf)
  known f hf := (h.known f (hstack hf)).mono fun v hv => by rwa [Knows, hcalls]
  fresh := hfresh ▸ h.fresh
  numbered := by
    rw [hfresh, hcalls]
    exact h.numbered
  apart := hcalls ▸ h.apart

theorem Orderly.push (h : s.Orderly clauses goal) {goals : List (Goal String)} {subst : Substitution String}
    (hgoals : ∀ g ∈ goals, g.atom.Within (s.Knows goal)) (hsubst : subst.Within (s.Knows goal)) :
    Orderly clauses goal { s with stack := ⟨goals, subst, clauses⟩ :: s.stack } where
  untried := List.forall_mem_cons.mpr ⟨fun _ hc => hc, h.untried⟩
  known := List.forall_mem_cons.mpr ⟨⟨hgoals, hsubst⟩, h.known⟩
  fresh := h.fresh
  numbered := h.numbered
  apart := h.apart

theorem Orderly.tryClause (hclauses : ∀ c ∈ clauses, c.Plain) (h : s.Orderly clauses goal)
    {c : Clause String} (hc : c ∈ clauses) {g : Goal String} {rest : List (Goal String)}
    {subst : Substitution String} {untried : List (Clause String)}
    (hf : NamedFrame.Within (s.Knows goal) ⟨g :: rest, subst, untried⟩) :
    (s.tryClause clauses c g rest subst).Orderly clauses goal := by
  have hcall := h.call hclauses hc
  obtain ⟨hgoals, hwithin⟩ := hf.mono (knows_call c)
  obtain ⟨hg, hrest⟩ := List.forall_mem_cons.mp hgoals
  have hmade : ∀ t ∈ (c.copy (s.fresh + 1)).args, t.Within ((s.call c).Knows goal) := by
    rintro _ ht v rfl
    exact Or.inr ⟨_, List.mem_cons_self, ht⟩
  have hhead : (c.copy (s.fresh + 1)).head.Within ((s.call c).Knows goal) := fun t ht =>
    hmade t (Clause.mem_args.mpr (Or.inl ht))
  have hbody : ∀ a ∈ (c.copy (s.fresh + 1)).body, a.Within ((s.call c).Knows goal) := fun a ha t ht =>
    hmade t (Clause.mem_args.mpr (Or.inr ⟨a, ha, ht⟩))
  unfold NamedResolver.tryClause
  dsimp only
  split
  · exact hcall
  · next θ hu =>
    have hθ := hwithin.unifyAtoms hhead hg hu
    split
    · exact hcall.push hrest hθ
    · exact hcall.of_subset (List.Subset.refl _) rfl rfl
    · next a as b hcopy _ =>
      refine hcall.push (fun g' hg' => ?_) hθ
      rcases List.mem_append.mp hg' with hg' | hg'
      · obtain ⟨d, hd, rfl⟩ := List.mem_map.mp hg'
        exact hbody d (hcopy ▸ hd)
      · exact hrest g' hg'

/-- **Every step keeps the calls in order.** -/
theorem Orderly.step (hclauses : ∀ c ∈ clauses, c.Plain) (h : s.Orderly clauses goal)
    (hstep : s.step clauses = some s') : s'.Orderly clauses goal := by
  obtain ⟨stack, found, room, fresh, calls, cut⟩ := s
  unfold NamedResolver.step at hstep
  dsimp only at hstep
  split at hstep
  · cases hstep
  · cases hstep
  · cases hstep
    exact h.of_subset (List.subset_cons_self _ _) rfl rfl
  · cases hstep
    exact h.of_subset (List.subset_cons_self _ _) rfl rfl
  · next g rest subst c untried below _ =>
    obtain ⟨huntried, hbelow⟩ := List.forall_mem_cons.mp h.untried
    obtain ⟨hc, hrest⟩ := List.forall_mem_cons.mp huntried
    obtain ⟨⟨hgoals, hsubst⟩, hknown⟩ := List.forall_mem_cons.mp h.known
    have hwaiting : Orderly clauses goal
        ⟨⟨g :: rest, subst, untried⟩ :: below, found, room, fresh, calls, cut⟩ :=
      ⟨List.forall_mem_cons.mpr ⟨hrest, hbelow⟩, List.forall_mem_cons.mpr ⟨⟨hgoals, hsubst⟩, hknown⟩,
        h.fresh, h.numbered, h.apart⟩
    cases hstep
    split
    · exact hwaiting.tryClause hclauses hc (hwaiting.known _ List.mem_cons_self)
    · exact hwaiting

end NamedResolver

/-! ### Names read as variables -/

/-- The name of a variable of the goal, which is use 0, or in the copy for a later use. The first `m`
numbers are taken by underscores of the goal. -/
def useName (m : Nat) : Nat → Nat → String → String
  | 0, j, v => queryName j v
  | u + 1, j, v => copyName (m + (u + 1)) j v

theorem queryName_inj {j k : Nat} {v w : String} (hv : PlainName v) (hw : PlainName w) :
    queryName j v = queryName k w ↔ v = w ∧ (v = "_" → j = k) := by
  unfold queryName
  by_cases hv' : v = "_" <;> by_cases hw' : w = "_"
  · simp [hv', hw', newName_inj plainName_blank]
  · simp [hv', hw', Ne.symm hw', (plain_ne_newName hw).symm]
  · simp [hv', hw', plain_ne_newName hv]
  · simp [hv', hw']

/-- A name of the goal is in no copy. -/
theorem queryName_ne_copyName (j use k : Nat) {v w : String} (hv : PlainName v) :
    queryName j v ≠ copyName use k w := by
  unfold queryName copyName
  by_cases hv' : v = "_" <;> by_cases hw' : w = "_"
  · simp [hv', hw', newName_inj plainName_blank]
  · simp [hv', hw', newName_inj plainName_blank, Ne.symm hw']
  · simp [hv', hw', plain_ne_newName hv]
  · simp [hv', hw', plain_ne_newName hv]

/-- Names for one use differ as their slots do, and names for different uses differ. -/
theorem useName_inj {m u u' j k : Nat} {v w : String} (hv : PlainName v) (hw : PlainName w) :
    useName m u j v = useName m u' k w ↔ u = u' ∧ countedSlot j v = countedSlot k w := by
  rw [countedSlot_inj]
  cases u with
  | zero =>
    cases u' with
    | zero => simp only [useName, queryName_inj hv hw, true_and]
    | succ u' => exact iff_of_false (queryName_ne_copyName _ _ _ hv) fun h => Nat.succ_ne_zero u' h.1.symm
  | succ u =>
    cases u' with
    | zero => exact iff_of_false (queryName_ne_copyName _ _ _ hw).symm fun h => Nat.succ_ne_zero u h.1
    | succ u' =>
      simp only [useName, copyName_inj hv, Nat.add_left_cancel_iff]

/-- Reads each name as the variable that it was made for. -/
structure ReadsNames (m : Nat) (r : String → Var Slot) : Prop where
  injective : Function.Injective r
  name : ∀ u j v, PlainName v → r (useName m u j v) = ⟨u, countedSlot j v⟩

/-- **Names can be read** as the variables that they were made for. -/
theorem exists_readsNames (m : Nat) : ∃ r, ReadsNames m r := by
  -- a text that was made for nothing is read as a variable of the goal that no goal has
  have hread : ∀ s, ∃ x : Var Slot,
      (∃ u j v, PlainName v ∧ useName m u j v = s ∧ x = ⟨u, countedSlot j v⟩) ∨
        (∀ u j v, PlainName v → useName m u j v ≠ s) ∧ x = ⟨0, .named s⟩ := by
    intro s
    by_cases hmade : ∃ u j v, PlainName v ∧ useName m u j v = s
    · obtain ⟨u, j, v, hv, hname⟩ := hmade
      exact ⟨_, Or.inl ⟨u, j, v, hv, hname, rfl⟩⟩
    · exact ⟨_, Or.inr ⟨fun u j v hv hname => hmade ⟨u, j, v, hv, hname⟩, rfl⟩⟩
  choose r hr using hread
  -- what is read as the variable of a goal with a name is this name
  have hgoal : ∀ {u j v s}, (⟨u, countedSlot j v⟩ : Var Slot) = ⟨0, .named s⟩ → useName m u j v = s := by
    intro u j v s h
    obtain ⟨rfl, hslot⟩ := Var.mk.inj h
    unfold countedSlot at hslot
    split at hslot
    · cases hslot
    · next hv => exact (if_neg hv).trans (Slot.named.inj hslot)
  refine ⟨r, fun s t h => ?_, fun u j v hv => ?_⟩
  · rcases hr s with ⟨u, j, v, hv, hs, hx⟩ | ⟨hs, hx⟩ <;> rcases hr t with ⟨u', k, w, hw, ht, hy⟩ | ⟨ht, hy⟩
    · rw [← hs, ← ht, useName_inj hv hw]
      exact Var.mk.inj (hx.symm.trans (h.trans hy))
    · exact absurd (hgoal (hx.symm.trans (h.trans hy))) (ht u j v hv)
    · exact absurd (hgoal (hy.symm.trans (h.symm.trans hx))) (hs u' k w hw)
    · exact Slot.named.inj (Var.mk.inj (hx.symm.trans (h.trans hy))).2
  · rcases hr (useName m u j v) with ⟨u', k, w, hw, hname, hx⟩ | ⟨hnone, -⟩
    · rw [hx]
      exact congrArg₂ Var.mk ((useName_inj hw hv).mp hname).1 ((useName_inj hw hv).mp hname).2
    · exact absurd rfl (hnone u j v hv)

/-! ### The resolver that makes names is the resolver -/

/-- Renames each variable. -/
def Goal.map {ν μ : Type} (f : ν → μ) (g : Goal ν) : Goal μ :=
  ⟨g.atom.map f, g.budget⟩

/-- A frame with its names read. -/
def NamedFrame.read (r : String → Var Slot) (f : NamedFrame) : Frame Slot where
  goals := f.goals.map (Goal.map r)
  subst := f.subst.map r
  untried := f.untried.map Clause.counted

namespace NamedResolver

variable {clauses : List (Clause String)} {goal : Atom String} {m : Nat} {r : String → Var Slot}
  {s s' : NamedResolver}

/-- The resolver with its names read; the first `m` numbers are taken by underscores of the goal. -/
def read (r : String → Var Slot) (m : Nat) (s : NamedResolver) : Resolver Slot where
  stack := s.stack.map (NamedFrame.read r)
  found := s.found.map (Substitution.map r)
  room := s.room
  uses := s.fresh - m
  cut := s.cut

theorem read_tryClause {c : Clause String} (hr : ReadsNames m r) (hm : m ≤ s.fresh) (hc : c.Plain)
    (g : Goal String) (rest : List (Goal String)) (subst : Substitution String) :
    (s.tryClause clauses c g rest subst).read r m = (s.read r m).tryClause (clauses.map Clause.counted)
      c.counted (g.map r) (rest.map (Goal.map r)) (subst.map r) := by
  have huses : s.fresh + 1 - m = s.fresh - m + 1 := by omega
  have hcopy : c.counted.map (Var.mk (s.fresh - m + 1)) = (c.copy (s.fresh + 1)).map r := by
    have hnumber : s.fresh + 1 = m + (s.fresh - m + 1) := by omega
    rw [hnumber]
    exact Clause.number_map_congr fun v hv j => (hr.name _ j v (hc v hv)).symm
  unfold tryClause Resolver.tryClause
  dsimp only
  rw [show (s.read r m).uses = s.fresh - m from rfl, hcopy]
  generalize c.copy (s.fresh + 1) = copy
  obtain ⟨head, body⟩ := copy
  obtain ⟨atom, budget⟩ := g
  dsimp only [Clause.map, Goal.map]
  rw [Substitution.unifyAtoms_map hr.injective]
  cases subst.unifyAtoms head atom with
  | none => simp [read, call, huses]
  | some θ =>
    cases body with
    | nil => simp [read, call, huses, NamedFrame.read]
    | cons a as =>
      cases budget with
      | zero => simp [read, call, huses]
      | succ b => simp [read, call, huses, Goal.map, NamedFrame.read]

theorem read_start (hr : ReadsNames (blanksIn goal.args) r) (hgoal : goal.Plain)
    (clauses : List (Clause String)) (depth room : Nat) :
    (start clauses goal depth room).read r (blanksIn goal.args) =
      Resolver.start (clauses.map Clause.counted) (goal.number countedSlot 0) depth room := by
  have hquery : (goal.number queryName 0).map r = (goal.number countedSlot 0).map (Var.mk 0) :=
    Atom.number_map_congr (fun v hv j => hr.name 0 j v (hgoal v hv)) 0
  simp [read, start, Resolver.start, NamedFrame.read, Goal.map, hquery, Substitution.map, Substitution.empty]

/-- **With its names read the resolver that makes names is the resolver**, step by step. -/
theorem read_step (hr : ReadsNames (blanksIn goal.args) r) (hclauses : ∀ c ∈ clauses, c.Plain)
    (h : s.Orderly clauses goal) : (s.read r (blanksIn goal.args)).step (clauses.map Clause.counted) =
      (s.step clauses).map (read r (blanksIn goal.args)) := by
  obtain ⟨stack, found, room, fresh, calls, cut⟩ := s
  cases room with
  | zero => rfl
  | succ room =>
    rcases stack with _ | ⟨⟨_ | ⟨g, rest⟩, subst, _ | ⟨c, untried⟩⟩, below⟩
    any_goals rfl
    -- what is left is a goal with a clause to try
    have hsame : c.counted.head.sameSymbol (g.map r).atom = c.head.sameSymbol g.atom := by
      simp [Atom.sameSymbol, Clause.counted, Clause.number, Atom.number, length_numberRow, Goal.map, Atom.map]
    have hc : c.Plain := hclauses c (h.untried _ List.mem_cons_self c List.mem_cons_self)
    let waiting : NamedResolver := ⟨⟨g :: rest, subst, untried⟩ :: below, found, room + 1, fresh, calls, cut⟩
    have hfresh : blanksIn goal.args ≤ waiting.fresh := h.fresh
    unfold step Resolver.step
    dsimp only [Option.map_some]
    show some (if c.counted.head.sameSymbol (g.map r).atom then _ else _) = some _
    rw [hsame]
    split
    · exact congrArg some (read_tryClause hr hfresh hc g rest subst).symm
    · rfl

/-- The answers are those of the resolver. -/
theorem result_read (hr : ReadsNames m r) (hgoal : goal.Plain) (depth : Nat)
    (s : NamedResolver) : (s.read r m).result goal depth = s.result goal depth := by
  have hvalue : ∀ θ : Substitution String, ∀ v ∈ goal.asked,
      ((θ.map r).walk (.var ⟨0, .named v⟩)).shown = (θ.walk (.var v)).shown := by
    intro θ v hv
    have hne := Atom.ne_blank_of_mem_asked hv
    have hread : r v = ⟨0, .named v⟩ := by
      have hname := hr.name 0 0 v (hgoal v (Atom.mem_asked.mp hv).1)
      rwa [useName, queryName, if_neg hne, countedSlot, if_neg hne] at hname
    rw [← hread, ← Term.map_var, θ.walk_map hr.injective, Term.shown_map]
  unfold result Resolver.result read
  dsimp only
  rw [List.isEmpty_map]
  split
  · rfl
  · rw [← List.map_reverse, List.map_map]
    refine congrArg Except.ok (List.map_congr_left fun θ _ => congrArg SortedMap.ofList ?_)
    exact List.map_congr_left fun v hv => congrArg (Prod.mk v) (hvalue θ v hv)

/-- **The resolver that makes names stops**, and with the answers of `solve`. -/
theorem exists_stopsAfter_solve (hclauses : ∀ c ∈ clauses, c.Plain)
    (hgoal : goal.Plain) (depth room : Nat) :
    ∃ n final, StopsAfter (step clauses) n (start clauses goal depth room) final ∧
      solve clauses goal depth room = final.result goal depth := by
  obtain ⟨r, hr⟩ := exists_readsNames (blanksIn goal.args)
  obtain ⟨n, -, final', hstops⟩ := Resolver.exists_stopsAfter_step (clauses.map Clause.counted)
    (.start (clauses.map Clause.counted) (goal.number countedSlot 0) depth room)
  rw [← read_start hr hgoal] at hstops
  obtain ⟨final, hfinal, rfl⟩ := hstops.of_map (fun _ _ hs hstep => Orderly.step hclauses hs hstep)
    (fun _ hs => read_step hr hclauses hs) (.start clauses goal depth room)
  refine ⟨n, final, hfinal, ?_⟩
  rw [read_start hr hgoal] at hstops
  rw [← result_read hr hgoal]
  -- the goal is counted like the fact that says it
  obtain ⟨e, he, hnames, hcounted⟩ := (Clause.fact goal).exists_map_apart
  have hgoal' : goal.number countedSlot 0 = (goal.apart 0).map e := congrArg Clause.head hcounted
  rw [hgoal'] at hstops
  have hprogram : List.Forall₂ Clause.Variant (clauses.map Clause.apart) (clauses.map Clause.counted) :=
    List.forall₂_map_left_iff.mpr (List.forall₂_map_right_iff.mpr
      (List.forall₂_same.mpr fun c _ => c.variant_counted))
  refine Resolver.solve_eq_result_of_variants hprogram he (fun v hv => ?_) hstops
  exact hnames v (Clause.mem_args.mpr (Or.inl (Atom.mem_asked.mp hv).1)) (Atom.ne_blank_of_mem_asked hv)

/-- **Renamed variables never collide.** A resolver that names its variables by texts answers as `solve`
does. At every moment of its run the names that two calls have made differ, and they differ from those of
the goal; and no other names are in use. A copy has one name for two occurrences of variables of its
clause exactly if they were the same variable, and, if they were underscores, the same occurrence. -/
theorem names_never_collide (hclauses : ∀ c ∈ clauses, c.validate = .ok ()) (hgoal : goal.validate = .ok ())
    (depth room : Nat) :
    (∃ n final, StopsAfter (step clauses) n (start clauses goal depth room) final ∧
      solve clauses goal depth room = final.result goal depth) ∧
    ∀ n s, rounds (step clauses) n (start clauses goal depth room) = some s →
      s.calls.Pairwise (fun x y => ∀ v, x.Makes v → ¬ y.Makes v) ∧
      (∀ x ∈ s.calls, ∀ v, x.Makes v → .var v ∉ goal.args) ∧
      (∀ f ∈ s.stack, f.Within (s.Knows goal)) ∧
      ∀ c d, .copy c d ∈ s.calls → c ∈ clauses ∧ c.CopiedApart d := by
  have hplain : ∀ c ∈ clauses, c.Plain := fun c hc => Clause.plain_of_validate (hclauses c hc)
  have hnames := Atom.plain_of_validate hgoal
  refine ⟨exists_stopsAfter_solve hplain hnames depth room, fun n s hrounds => ?_⟩
  have horderly := rounds_induction (fun _ _ hs hstep => Orderly.step hplain hs hstep)
    (.start clauses goal depth room) hrounds
  refine ⟨horderly.apart, fun x hx v hv hmem => ?_, horderly.known, fun c d hcall => ?_⟩
  · obtain ⟨k, -, hnumbered⟩ := horderly.numbered x hx
    obtain ⟨w, i, -, hname⟩ := hnumbered.exists_eq_newName hplain hv
    exact plain_ne_newName (hnames v hmem) hname
  · obtain ⟨k, -, hnumbered⟩ := horderly.numbered _ hcall
    cases hnumbered with
    | copy hc => exact ⟨hc, Clause.copiedApart_copy (hplain c hc) k⟩

/-- Who likes someone and is liked by someone is social. -/
def socialRule : Clause String :=
  ⟨⟨"social", [.var "X"]⟩, [⟨"likes", [.var "X", .var "_"]⟩, ⟨"likes", [.var "_", .var "X"]⟩]⟩

/-- The underscore of the goal takes the first number, and the rule the second. -/
theorem social_names :
    let clauses := [socialRule, .fact ⟨"likes", [.const "ann", .var "_"]⟩]
    let copied : Clause String := ⟨⟨"social", [.var "X#2"]⟩,
      [⟨"likes", [.var "X#2", .var "_#2_1"]⟩, ⟨"likes", [.var "_#2_2", .var "X#2"]⟩]⟩
    (∃ n final, StopsAfter (step clauses) n (start clauses ⟨"social", [.var "_"]⟩ 4 8) final ∧
      solve clauses ⟨"social", [.var "_"]⟩ 4 8 = final.result ⟨"social", [.var "_"]⟩ 4) ∧
    ∃ s, rounds (step clauses) 1 (start clauses ⟨"social", [.var "_"]⟩ 4 8) = some s ∧
      s.calls = [.copy socialRule copied, .query "_#1"] ∧ .var "_#1" ∉ copied.args ∧
      socialRule.CopiedApart copied := by
  intro clauses copied
  have hclauses : ∀ c ∈ clauses, c.validate = .ok () := by decide +kernel
  have hgoal : Atom.validate ⟨"social", [.var "_"]⟩ = .ok () := by decide +kernel
  obtain ⟨hstops, hnames⟩ := names_never_collide hclauses hgoal 4 8
  obtain ⟨s, hs, hcalls⟩ : ∃ s, rounds (step clauses) 1 (start clauses ⟨"social", [.var "_"]⟩ 4 8) = some s ∧
      s.calls = [.copy socialRule copied, .query "_#1"] := ⟨_, rfl, by decide +kernel⟩
  obtain ⟨hapart, -, -, hcopied⟩ := hnames 1 s hs
  rw [hcalls] at hapart hcopied
  refine ⟨hstops, s, hs, hcalls, fun hmem => ?_, (hcopied _ _ List.mem_cons_self).2⟩
  exact (List.pairwise_cons.mp hapart).1 _ List.mem_cons_self _ hmem rfl

end NamedResolver

end HornReasoner
