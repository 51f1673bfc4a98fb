/-
# Names of variables in stored clauses and in goals

A search tells the variables of every use of a clause apart, so under other names it
leaves the same branches, and only the names that the goal asks for come back in the
answers (`answersByRecursion_renamed`). Three things follow for a query. Clauses may
have other names, also those of the goal. A goal may ask for other names, and then its
answers have these for keys. And an underscore of a goal may be given a name that is
not asked for (`KnowledgeStore.query_renamed`).

Key definition: `Binding.rename`.
Key theorems: `Binding.rename_ofList`, `answersByRecursion_renamed`,
`KnowledgeStore.query_renamed`.
-/
import HornReasoner.Proofs.Logic.Renaming
import HornReasoner.Proofs.Map.Entries
import HornReasoner.Proofs.Store.Facts

namespace HornReasoner

/-! ### Answers with other keys -/

/-- The same values under other keys. -/
def Binding.rename (f : String → String) (b : Binding) : Binding :=
  SortedMap.ofList (b.toList.map fun e => (f e.1, e.2))

theorem Binding.rename_id : Binding.rename id = id :=
  funext fun b => (congrArg SortedMap.ofList (List.map_id b.toList)).trans (SortedMap.ofList_toList b)

/-- Keys may be renamed before their values are written, if no two get the same name. -/
theorem Binding.rename_ofList {f : String → String} {ks : List String} (hf : Set.InjOn f {k | k ∈ ks})
    (value : String → String) :
    rename f (SortedMap.ofList (ks.map fun k => (k, value k))) =
      SortedMap.ofList (ks.map fun k => (f k, value k)) := by
  -- the value under a new key is the value of the one old key that it comes from
  set old := Function.invFunOn f {k | k ∈ ks} with hold
  have hback : ∀ k ∈ ks, value (old (f k)) = value k := fun k hk =>
    congrArg value (hf.leftInvOn_invFunOn hk)
  set b := SortedMap.ofList (ks.map fun k => (k, value k)) with hb
  have hmem : ∀ e, e ∈ b.toList ↔ e.1 ∈ ks ∧ e.2 = value e.1 := fun _ => SortedMap.mem_ofList_map
  have hleft : b.toList.map (fun e => (f e.1, e.2)) =
      (b.toList.map fun e => f e.1).map fun k => (k, value (old k)) := by
    rw [List.map_map]
    refine List.map_congr_left fun e he => ?_
    obtain ⟨hk, hv⟩ := (hmem e).mp he
    exact congrArg (Prod.mk (f e.1)) (hv.trans (hback e.1 hk).symm)
  have hright : ks.map (fun k => (f k, value k)) = (ks.map f).map fun k => (k, value (old k)) := by
    rw [List.map_map]
    exact List.map_congr_left fun k hk => congrArg (Prod.mk (f k)) (hback k hk).symm
  rw [rename, hleft, hright]
  refine SortedMap.ofList_map_eq_of_mem_iff _ fun k => ?_
  rw [List.mem_map, List.mem_map]
  constructor
  · rintro ⟨e, he, rfl⟩
    exact ⟨e.1, ((hmem e).mp he).1, rfl⟩
  · rintro ⟨j, hj, rfl⟩
    exact ⟨(j, value j), (hmem _).mpr ⟨hj, rfl⟩, rfl⟩

/-! ### Searches under other names -/

variable {clauses clauses' : List (Clause String)} {goal goal' : Atom String} {f : String → String}

/-- **Other names change the keys of answers, and nothing else.** -/
theorem answersByRecursion_renamed (hclauses : List.Forall₂ Clause.Renamed clauses clauses')
    {e : Slot → Slot} (he : Function.Injective e) (hgoal : goal'.apart 0 = (goal.apart 0).map e)
    (hasked : goal'.asked = goal.asked.map f) (hf : Set.InjOn f {v | v ∈ goal.asked})
    (hnames : ∀ v ∈ goal.asked, e (.named v) = .named (f v)) (depth : Nat) :
    answersByRecursion clauses' goal' depth =
      (answersByRecursion clauses goal depth).map (Binding.rename f) := by
  have hprogram : List.Forall₂ Clause.Variant (clauses.map Clause.apart) (clauses'.map Clause.apart) :=
    List.forall₂_map_left_iff.mpr (List.forall₂_map_right_iff.mpr (hclauses.imp fun _ _ h => h.variant))
  have hrel := alike_proveAtom hprogram depth (alike_start he) ((goal.apart 0).paired_copies 0 0 e)
  rw [← hgoal] at hrel
  unfold answersByRecursion
  rw [Outcome.map_map]
  refine (hrel.map_eq fun b b' hb => ?_).symm
  rw [Function.comp_apply, Binding.rename_ofList hf, hasked, List.map_map]
  refine congrArg SortedMap.ofList (List.map_congr_left fun v hv => congrArg (Prod.mk (f v)) ?_)
  refine hb.shown_eq ⟨.var (.named v), rfl, ?_⟩
  rw [Term.map_var, hnames v hv]
  rfl

/-- A search by the stack answers as the recursion does, so also under other names. -/
theorem solve_renamed {depth : Nat} (h : answersByRecursion clauses' goal' depth =
    (answersByRecursion clauses goal depth).map (Binding.rename f)) (room : Nat) :
    solve clauses' goal' depth room =
      (solve clauses goal depth room).map (List.map (Binding.rename f)) := by
  rw [solve_eq, solve_eq, h]
  by_cases hcut : room ≠ 0 ∧ (answersByRecursion clauses goal depth).answers = [] ∧
      (answersByRecursion clauses goal depth).cut = true
  · rw [if_pos hcut, if_pos ⟨hcut.1, List.map_eq_nil_iff.mpr hcut.2.1, hcut.2.2⟩]
    rfl
  · rw [if_neg hcut, if_neg fun h' => hcut ⟨h'.1, List.map_eq_nil_iff.mp h'.2.1, h'.2.2⟩]
    show Except.ok (List.take room (List.map _ _)) = Except.ok (List.map _ (List.take room _))
    rw [List.map_take]

namespace KnowledgeStore

/-- **Names of variables carry no meaning.** Clauses with other names for their variables give the same
answers, also where they share names with the goal. Other names for the variables that the goal asks
for are the keys of its answers then, and nothing else changes. And nothing changes if an underscore of
the goal gets a name that stands nowhere else in it and that the goal does not ask for. -/
theorem query_renamed (s : KnowledgeStore) (goal : Atom String) (hgoal : goal.validate = .ok ()) :
    (∀ s' : KnowledgeStore, s'.config = s.config → List.Forall₂ Clause.Renamed s.clauses s'.clauses →
      s'.query goal = s.query goal) ∧
    (∀ f, goal.RenamesAsked f →
      s.query (goal.map f) = (s.query goal).map (List.map (Binding.rename f))) ∧
    ∀ argument v, isVariableName v = true → v.toList.head? = some '_' → v ≠ "_" → .var v ∉ goal.args →
      s.query (goal.nameBlank argument v) = s.query goal := by
  have hsame : ∀ x : Except QueryError (List Binding), x.map (List.map (Binding.rename id)) = x := by
    intro x
    rw [Binding.rename_id, List.map_id_fun]
    cases x <;> rfl
  have hclauses : List.Forall₂ Clause.Renamed s.clauses s.clauses :=
    List.forall₂_same.mpr fun c _ => .refl c
  refine ⟨fun s' hconfig hclauses => ?_, fun f hf => ?_, fun argument v hvalid hstart hne hfresh => ?_⟩
  · rw [query_eq_solve s' hgoal, query_eq_solve s hgoal, hconfig]
    refine (solve_renamed (f := id) ?_ _).trans (hsame _)
    exact answersByRecursion_renamed hclauses Function.injective_id (Atom.map_id _).symm
      (List.map_id _).symm (fun v _ w _ h => h) (fun _ _ => rfl) _
  · rw [query_eq_solve s (hf.validate_map hgoal), query_eq_solve s hgoal]
    obtain ⟨g, hg⟩ := exists_perm_eqOn (finite_variables goal.args) hf.injOn
    exact solve_renamed (answersByRecursion_renamed hclauses (Slot.rename_injective g.injective)
      (Atom.apart_map (fun v hv => hf.named hv) hg 0) hf.asked_map hf.injective
      (fun v hv => congrArg Slot.named (hg (Atom.mem_asked.mp hv).1)) _) _
  · rw [query_eq_solve s (Atom.validate_nameBlank hgoal hvalid argument), query_eq_solve s hgoal]
    refine (solve_renamed (f := id) ?_ _).trans (hsame _)
    refine answersByRecursion_renamed hclauses (Equiv.swap (.blank 0 argument) (.named v)).injective
      (Atom.apart_nameBlank hne hfresh)
      ((Atom.asked_nameBlank hstart argument).trans (List.map_id _).symm) (fun v _ w _ h => h)
      (fun w hw => ?_) _
    refine Equiv.swap_apply_of_ne_of_ne (by simp) fun h => ?_
    exact hfresh (Slot.named.inj h ▸ (Atom.mem_asked.mp hw).1)

/-- A pupil of a teacher teaches too. -/
def pupilRule : Clause String :=
  ⟨⟨"pupil", [.var "X", .var "Y"]⟩,
    [⟨"teaches", [.var "Y", .var "X"]⟩, ⟨"teaches", [.var "X", .var "_"]⟩]⟩

/-- The same with the names exchanged and a name for the underscore. -/
def pupilRuleRenamed : Clause String :=
  ⟨⟨"pupil", [.var "Y", .var "X"]⟩,
    [⟨"teaches", [.var "X", .var "Y"]⟩, ⟨"teaches", [.var "Y", .var "Z"]⟩]⟩

theorem pupilRule_renamed : pupilRule.Renamed pupilRuleRenamed := by
  have hblank : Equiv.swap "X" "Y" "_" = "_" := by decide +kernel
  have hnames : pupilRule.Renamed (pupilRule.map (Equiv.swap "X" "Y")) :=
    .names _ _ (fun v _ => ⟨fun h => (Equiv.swap "X" "Y").injective (h.trans hblank.symm),
      fun h => h ▸ hblank⟩) (Equiv.swap "X" "Y").injective.injOn
  have hresult : (pupilRule.map (Equiv.swap "X" "Y")).nameBlank 2 1 "Z" = pupilRuleRenamed := by
    decide +kernel
  exact hresult ▸ hnames.trans (.blank _ 2 1 "Z" (by decide) (by decide +kernel))

/-- Two lessons and a rule; at most two rules on a path. -/
def lessons (rule : Clause String) : KnowledgeStore :=
  ofClauses { maxDepth := 2 }
    [.fact ⟨"teaches", [.const "a", .const "b"]⟩, .fact ⟨"teaches", [.const "b", .const "c"]⟩, rule]

/-- The pupil who teaches: by the other rule, asked for by the other name, and with a teacher who has a
name. -/
theorem lessons_renamed :
    (lessons pupilRuleRenamed).query ⟨"pupil", [.var "X", .var "_"]⟩ = .ok [.ofList [("X", "b")]] ∧
      (lessons pupilRule).query ⟨"pupil", [.var "Y", .var "_"]⟩ = .ok [.ofList [("Y", "b")]] ∧
        (lessons pupilRule).query ⟨"pupil", [.var "X", .var "_y"]⟩ = .ok [.ofList [("X", "b")]] := by
  set goal : Atom String := ⟨"pupil", [.var "X", .var "_"]⟩ with hgoal
  have hquery : (lessons pupilRule).query goal = .ok [.ofList [("X", "b")]] := by decide +kernel
  obtain ⟨hclauses, hasked, hblank⟩ := query_renamed (lessons pupilRule) goal (by decide +kernel)
  have hrules : List.Forall₂ Clause.Renamed (lessons pupilRule).clauses (lessons pupilRuleRenamed).clauses := by
    have hleft : (lessons pupilRule).clauses = [.fact ⟨"teaches", [.const "a", .const "b"]⟩,
      .fact ⟨"teaches", [.const "b", .const "c"]⟩, pupilRule] := by decide +kernel
    have hright : (lessons pupilRuleRenamed).clauses = [.fact ⟨"teaches", [.const "a", .const "b"]⟩,
      .fact ⟨"teaches", [.const "b", .const "c"]⟩, pupilRuleRenamed] := by decide +kernel
    rw [hleft, hright]
    exact .cons (.refl _) (.cons (.refl _) (.cons pupilRule_renamed .nil))
  have hnames : goal.RenamesAsked fun v => if v = "X" then "Y" else v := by
    have hx : ∀ v ∈ goal.asked, v = "X" := by decide +kernel
    refine ⟨fun v hv => ?_, fun v hv => ?_, fun v hv w hw _ => (hx v hv).trans (hx w hw).symm,
      fun v hv => if_neg fun h => ?_⟩
    · rw [hx v hv]
      decide +kernel
    · rw [hx v hv]
      decide
    · rw [h] at hv
      exact absurd hv (by decide)
  have hasked := hasked _ hnames
  have hblank := hblank 1 "_y" (by decide +kernel) (by decide) (by decide) (by decide +kernel)
  have hmap : (goal.map fun v => if v = "X" then "Y" else v) = ⟨"pupil", [.var "Y", .var "_"]⟩ := by
    decide +kernel
  have hname : goal.nameBlank 1 "_y" = ⟨"pupil", [.var "X", .var "_y"]⟩ := by decide +kernel
  rw [hmap, hquery] at hasked
  rw [hname, hquery] at hblank
  have hconfig : (lessons pupilRuleRenamed).config = (lessons pupilRule).config :=
    (config_ofClauses _ _).trans (config_ofClauses _ _).symm
  exact ⟨(hclauses _ hconfig hrules).trans hquery, hasked.trans (by decide +kernel), hblank⟩

end KnowledgeStore
end HornReasoner
