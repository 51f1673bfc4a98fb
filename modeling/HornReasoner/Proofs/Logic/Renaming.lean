/-
# Clauses and goals with other names

Two changes leave a clause as it is but for names: its named variables get other
names, no two the same, or an underscore gets a name that stands nowhere else in the
clause. Once the variables are told apart by place, either is a renaming of slots: the
first moves names, the second swaps one underscore for one name. So a clause changed
in these ways is a variant of the clause it was (`Clause.Renamed.variant`).

A goal shows the names of its variables in its answers, so there the names that it
asks for are told from the others (`Atom.RenamesAsked`).

Key definitions: `Atom.nameBlank`, `Clause.Renamed`, `Atom.RenamesAsked`, `Slot.rename`.
Key theorems: `Clause.Renamed.variant`, `Atom.apart_map`, `Atom.apart_nameBlank`.
-/
import HornReasoner.Proofs.Logic.Grammar
import HornReasoner.Proofs.Logic.Slots
import HornReasoner.Proofs.Resolution.Variant
import Mathlib.Data.Set.Finite.List
import Mathlib.Logic.Equiv.Fintype

namespace HornReasoner

variable {ν μ : Type}

/-! ### Other names as written -/

/-- A name in place of an underscore. -/
def Term.nameBlank (v : String) (t : Term String) : Term String :=
  if t.isAnonymous then .var v else t

/-- The atom with a name in place of the underscore at an argument; anything else there stays. -/
def Atom.nameBlank (argument : Nat) (v : String) (a : Atom String) : Atom String :=
  ⟨a.predicate, a.args.modify argument (Term.nameBlank v)⟩

/-- The clause with a name in place of an underscore of the atom at a place. -/
def Clause.nameBlank (place argument : Nat) (v : String) (c : Clause String) : Clause String :=
  match place with
  | 0 => { c with head := c.head.nameBlank argument v }
  | i + 1 => { c with body := c.body.modify i (Atom.nameBlank argument v) }

/-- The second clause is the first with other names for some of its variables. -/
inductive Clause.Renamed : Clause String → Clause String → Prop
  /-- Named variables get other names, no two the same. -/
  | names (c : Clause String) (f : String → String)
      (named : ∀ v, .var v ∈ c.args → (f v = "_" ↔ v = "_"))
      (injective : Set.InjOn f {v | .var v ∈ c.args}) : Renamed c (c.map f)
  /-- An underscore gets a name that stands nowhere else in the clause. -/
  | blank (c : Clause String) (place argument : Nat) (v : String) (named : v ≠ "_")
      (fresh : .var v ∉ c.args) : Renamed c (c.nameBlank place argument v)
  | trans {c d e : Clause String} (left : Renamed c d) (right : Renamed d e) : Renamed c e

theorem Clause.Renamed.refl (c : Clause String) : c.Renamed c := by
  simpa using names c id (fun v _ => Iff.rfl) (fun v _ w _ h => h)

/-- Other names for the variables that a goal asks for: again names of variables that it would ask
for, no two the same. The variables that it does not ask for keep their names. -/
structure Atom.RenamesAsked (goal : Atom String) (f : String → String) : Prop where
  valid : ∀ v ∈ goal.asked, isVariableName (f v) = true
  asked : ∀ v ∈ goal.asked, (f v).toList.head? ≠ some '_'
  injective : Set.InjOn f {v | v ∈ goal.asked}
  others : ∀ v, v.toList.head? = some '_' → f v = v

/-! ### Renaming slots -/

theorem Clause.Variant.trans {σ : Type} {c d e : Clause σ} (h : c.Variant d) (h' : d.Variant e) :
    c.Variant e := by
  obtain ⟨f, hf, rfl⟩ := h
  obtain ⟨g, hg, rfl⟩ := h'
  exact ⟨g ∘ f, hg.comp hf, c.map_map f g⟩

/-- Renames the named variables. -/
def Slot.rename (f : String → String) : Slot → Slot
  | .named v => .named (f v)
  | .blank place argument => .blank place argument

theorem Slot.rename_injective {f : String → String} (hf : Function.Injective f) :
    Function.Injective (Slot.rename f) := by
  rintro (v | ⟨i, j⟩) (w | ⟨k, l⟩) h
  · exact congrArg Slot.named (hf (Slot.named.inj h))
  · cases h
  · cases h
  · exact h

/-- What renames finitely many names, no two the same, can be made to rename all names so. -/
theorem exists_perm_eqOn {s : Set ν} (hs : s.Finite) {f : ν → ν} (hf : s.InjOn f) :
    ∃ g : Equiv.Perm ν, s.EqOn g f := by
  have := hs.to_subtype
  obtain ⟨g, hg⟩ := Equiv.Perm.exists_extending_pair (Subtype.val : s → ν) (fun v => f v)
    Subtype.val_injective hf.injective
  exact ⟨g, fun v hv => hg ⟨v, hv⟩⟩

theorem finite_variables (ts : List (Term ν)) : {v | .var v ∈ ts}.Finite :=
  ts.finite_toSet.preimage (fun _ _ _ _ h => Term.var.inj h)

/-! ### Named variables get other names -/

section

variable {f g : String → String}

theorem Term.apart_map {t : Term String} (hnamed : ∀ v, t = .var v → (f v = "_" ↔ v = "_"))
    (hg : ∀ v, t = .var v → g v = f v) (place argument : Nat) :
    (t.map f).apart place argument = (t.apart place argument).map (Slot.rename g) := by
  cases t with
  | const c => rfl
  | var v =>
    rw [Term.map_var]
    by_cases hv : v = "_"
    · rw [(hnamed v rfl).mpr hv, hv]
      rfl
    · rw [apart_named argument hv, apart_named argument (mt (hnamed v rfl).mp hv), map_var, Slot.rename,
        hg v rfl]

theorem Atom.apart_map {a : Atom String} (hnamed : ∀ v, .var v ∈ a.args → (f v = "_" ↔ v = "_"))
    (hg : ∀ v, .var v ∈ a.args → g v = f v) (place : Nat) :
    (a.map f).apart place = (a.apart place).map (Slot.rename g) := by
  rw [apart_eq, apart_eq]
  refine congrArg (Atom.mk a.predicate) (List.ext_getElem (by simp [map]) fun i hi _ => ?_)
  have hlt : i < a.args.length := by simpa [map] using hi
  have hmem := List.getElem_mem hlt
  simp only [map, List.getElem_mapIdx, List.getElem_map]
  exact Term.apart_map (fun v hv => hnamed v (hv ▸ hmem)) (fun v hv => hg v (hv ▸ hmem)) place i

theorem Clause.apart_map {c : Clause String} (hnamed : ∀ v, .var v ∈ c.args → (f v = "_" ↔ v = "_"))
    (hg : ∀ v, .var v ∈ c.args → g v = f v) : (c.map f).apart = c.apart.map (Slot.rename g) := by
  have hatom : ∀ a ∈ c.head :: c.body, ∀ place,
      (a.map f).apart place = (a.apart place).map (Slot.rename g) := by
    intro a ha
    have hargs : ∀ v, .var v ∈ a.args → .var v ∈ c.args := fun v hv => mem_args.mpr <| by
      rcases List.mem_cons.mp ha with rfl | ha
      · exact Or.inl hv
      · exact Or.inr ⟨a, ha, hv⟩
    exact Atom.apart_map (fun v hv => hnamed v (hargs v hv)) fun v hv => hg v (hargs v hv)
  refine congrArg₂ Clause.mk (hatom _ List.mem_cons_self 0) ?_
  refine List.ext_getElem (by simp [map, apart]) fun i hi _ => ?_
  simp only [map, apart, List.getElem_mapIdx, List.getElem_map]
  exact hatom _ (List.mem_cons_of_mem _ (List.getElem_mem _)) _

end

/-! ### An underscore gets a name -/

section

variable {v : String} {place argument : Nat}

theorem Term.apart_nameBlank {t : Term String} (hv : v ≠ "_") (ht : t ≠ .var v) :
    (t.nameBlank v).apart place argument =
      (t.apart place argument).map (Equiv.swap (.blank place argument) (.named v)) := by
  cases t with
  | const c => rfl
  | var w =>
    by_cases hw : w = "_"
    · subst hw
      show (Term.var v).apart place argument = _
      rw [apart_named argument hv, apart_blank, map_var, Equiv.swap_apply_left]
    · have hstay : (Term.var w).nameBlank v = .var w := if_neg (by simpa [isAnonymous] using hw)
      have hne : Slot.named w ≠ .named v := fun h => ht (congrArg Term.var (Slot.named.inj h))
      rw [hstay, apart_named argument hw, map_var, Equiv.swap_apply_of_ne_of_ne (by simp) hne]

/-- The terms at other arguments have neither the underscore nor its name. -/
theorem Term.apart_map_swap {t : Term String} (ht : t ≠ .var v) {i j : Nat}
    (hne : Slot.blank i j ≠ .blank place argument) :
    (t.apart i j).map (Equiv.swap (.blank place argument) (.named v)) = t.apart i j := by
  cases t with
  | const c => rfl
  | var w =>
    by_cases hw : w = "_"
    · rw [hw, apart_blank, map_var, Equiv.swap_apply_of_ne_of_ne hne (by simp)]
    · have hne : Slot.named w ≠ .named v := fun h => ht (congrArg Term.var (Slot.named.inj h))
      rw [apart_named j hw, map_var, Equiv.swap_apply_of_ne_of_ne (by simp) hne]

variable {a : Atom String} {c : Clause String}

theorem Atom.apart_nameBlank (hv : v ≠ "_") (hfresh : .var v ∉ a.args) :
    (a.nameBlank argument v).apart place =
      (a.apart place).map (Equiv.swap (.blank place argument) (.named v)) := by
  rw [apart_eq, apart_eq]
  refine congrArg (Atom.mk a.predicate) (List.ext_getElem (by simp [nameBlank]) fun i hi _ => ?_)
  have hlt : i < a.args.length := by simpa [nameBlank] using hi
  have hother : a.args[i] ≠ .var v := fun h => hfresh (h ▸ List.getElem_mem hlt)
  simp only [nameBlank, List.getElem_mapIdx, List.getElem_map, List.getElem_modify]
  by_cases hi : argument = i
  · subst hi
    rw [if_pos rfl, Term.apart_nameBlank hv hother]
  · rw [if_neg hi, Term.apart_map_swap hother fun h => hi (Slot.blank.inj h).2.symm]

/-- The other atoms have neither the underscore nor its name. -/
theorem Atom.apart_map_swap (hfresh : .var v ∉ a.args) {i : Nat} (hne : i ≠ place) :
    (a.apart i).map (Equiv.swap (.blank place argument) (.named v)) = a.apart i := by
  rw [apart_eq]
  refine congrArg (Atom.mk a.predicate) (List.ext_getElem (by simp) fun j hj _ => ?_)
  have hlt : j < a.args.length := by simpa using hj
  have hother : a.args[j] ≠ .var v := fun h => hfresh (h ▸ List.getElem_mem hlt)
  simp only [List.getElem_mapIdx, List.getElem_map]
  exact Term.apart_map_swap hother fun h => hne (Slot.blank.inj h).1

theorem Clause.apart_nameBlank (hv : v ≠ "_") (hfresh : .var v ∉ c.args) :
    (c.nameBlank place argument v).apart =
      c.apart.map (Equiv.swap (.blank place argument) (.named v)) := by
  have hhead : .var v ∉ c.head.args := fun h => hfresh (mem_args.mpr (Or.inl h))
  have hbody : ∀ i (hi : i < c.body.length), .var v ∉ c.body[i].args := fun i hi h =>
    hfresh (mem_args.mpr (Or.inr ⟨_, List.getElem_mem hi, h⟩))
  cases place with
  | zero =>
    refine congrArg₂ Clause.mk (Atom.apart_nameBlank hv hhead) ?_
    refine List.ext_getElem (by simp [nameBlank, apart]) fun i hi _ => ?_
    simp only [nameBlank, apart, List.getElem_mapIdx, List.getElem_map]
    exact (Atom.apart_map_swap (hbody i (by simpa [nameBlank] using hi)) (Nat.succ_ne_zero i)).symm
  | succ place =>
    refine congrArg₂ Clause.mk (Atom.apart_map_swap hhead (Nat.succ_ne_zero place).symm).symm ?_
    refine List.ext_getElem (by simp [nameBlank, apart]) fun i hi _ => ?_
    have hlt : i < c.body.length := by simpa [nameBlank] using hi
    simp only [nameBlank, apart, List.getElem_mapIdx, List.getElem_map, List.getElem_modify]
    by_cases hi : place = i
    · subst hi
      rw [if_pos rfl, Atom.apart_nameBlank hv (hbody place hlt)]
    · rw [if_neg hi, Atom.apart_map_swap (hbody i hlt) fun h => hi (Nat.succ.inj h).symm]

end

/-- **Other names make a variant.** The clause as written differs, and its slots are only renamed. -/
theorem Clause.Renamed.variant {c c' : Clause String} (h : c.Renamed c') : c.apart.Variant c'.apart := by
  induction h with
  | names c f hnamed hinj =>
    obtain ⟨g, hg⟩ := exists_perm_eqOn (finite_variables c.args) hinj
    exact ⟨Slot.rename g, Slot.rename_injective g.injective, Clause.apart_map hnamed hg⟩
  | blank c place argument v hv hfresh =>
    exact ⟨_, (Equiv.swap _ _).injective, Clause.apart_nameBlank hv hfresh⟩
  | trans _ _ ih₁ ih₂ => exact ih₁.trans ih₂

/-! ### What a goal asks for -/

/-- The name of the term, if a goal asks for it. -/
def Term.asked? : Term String → Option String
  | .const _ => none
  | .var v => if v.toList.head? = some '_' then none else some v

theorem Term.asked?_var (v : String) :
    (Term.var v).asked? = if v.toList.head? = some '_' then none else some v := rfl

theorem Atom.asked_eq (a : Atom String) : a.asked = a.args.filterMap Term.asked? := by
  obtain ⟨p, args⟩ := a
  unfold asked namedVariables
  dsimp only
  induction args with
  | nil => rfl
  | cons t ts ih =>
    cases t with
    | const c => exact ih
    | var v =>
      by_cases hv : v.toList.head? = some '_'
      · by_cases hblank : v = "_" <;>
          simpa [Term.isVariable, Term.isAnonymous, Term.name, Term.asked?, hv, hblank] using ih
      · have hblank : v ≠ "_" := fun h => hv (h ▸ rfl)
        simpa [Term.isVariable, Term.isAnonymous, Term.name, Term.asked?, hv, hblank] using ih

theorem filterMap_modify {α β : Type} {f : α → α} {g : α → Option β} (h : ∀ a, g (f a) = g a) :
    ∀ (l : List α) (i : Nat), (l.modify i f).filterMap g = l.filterMap g
  | [], _ => by simp
  | a :: l, 0 => by simp [List.filterMap_cons, h]
  | a :: l, i + 1 => by simp [List.filterMap_cons, filterMap_modify h l i]

variable {goal : Atom String}

/-- A name that a goal does not ask for may stand for an underscore. -/
theorem Atom.asked_nameBlank {v : String} (hv : v.toList.head? = some '_') (argument : Nat) :
    (goal.nameBlank argument v).asked = goal.asked := by
  rw [asked_eq, asked_eq]
  refine filterMap_modify (fun t => ?_) _ _
  unfold Term.nameBlank
  split
  · next h =>
    cases t with
    | const c => cases h
    | var w =>
      have hw : w = "_" := by simpa [Term.isAnonymous] using h
      rw [hw, Term.asked?_var, Term.asked?_var, if_pos hv]
      rfl
  · rfl

theorem Atom.validate_nameBlank (hgoal : goal.validate = .ok ()) {v : String}
    (hv : isVariableName v = true) (argument : Nat) : (goal.nameBlank argument v).validate = .ok () := by
  obtain ⟨hpredicate, hargs, hterms⟩ := validate_eq_ok_iff.mp hgoal
  refine validate_eq_ok_iff.mpr ⟨hpredicate, ?_, fun t ht => ?_⟩
  · simpa [nameBlank, ← List.length_eq_zero_iff] using hargs
  · obtain ⟨i, hi, rfl⟩ := List.getElem_of_mem ht
    simp only [nameBlank, List.getElem_modify]
    have hold : ∀ h, goal.args[i].validate = .ok () := fun h => hterms _ (List.getElem_mem h)
    split
    · unfold Term.nameBlank
      split
      · exact Term.validate_var.mpr hv
      · exact hold _
    · exact hold _

namespace Atom.RenamesAsked

variable {f : String → String} (h : goal.RenamesAsked f)

include h

/-- A variable of the goal is asked for, and so is its new name; or it keeps its name. -/
theorem cases {v : String} (hv : .var v ∈ goal.args) :
    (v ∈ goal.asked ∧ (f v).toList.head? ≠ some '_') ∨ (v.toList.head? = some '_' ∧ f v = v) := by
  by_cases hstart : v.toList.head? = some '_'
  · exact Or.inr ⟨hstart, h.others v hstart⟩
  · have hasked := mem_asked.mpr ⟨hv, hstart⟩
    exact Or.inl ⟨hasked, h.asked v hasked⟩

theorem named {v : String} (hv : .var v ∈ goal.args) : f v = "_" ↔ v = "_" := by
  rcases h.cases hv with ⟨hasked, hstart⟩ | ⟨-, hkeep⟩
  · exact iff_of_false (fun he => hstart (he ▸ rfl)) (ne_blank_of_mem_asked hasked)
  · rw [hkeep]

/-- No two variables of the goal get the same name. -/
theorem injOn : Set.InjOn f {v | .var v ∈ goal.args} := by
  intro v hv w hw he
  rcases h.cases hv with ⟨hasked, hstart⟩ | ⟨hstart, hkeep⟩ <;>
    rcases h.cases hw with ⟨hasked', hstart'⟩ | ⟨hstart', hkeep'⟩
  · exact h.injective hasked hasked' he
  · rw [he, hkeep'] at hstart
    exact absurd hstart' hstart
  · rw [← he, hkeep] at hstart'
    exact absurd hstart hstart'
  · rw [← hkeep, he, hkeep']

theorem asked_map : (goal.map f).asked = goal.asked.map f := by
  rw [asked_eq, asked_eq, map, List.filterMap_map, List.map_filterMap]
  refine List.filterMap_congr fun t ht => ?_
  cases t with
  | const c => rfl
  | var v =>
    show (Term.var (f v)).asked? = (Term.var v).asked?.map f
    rw [Term.asked?_var, Term.asked?_var]
    rcases h.cases ht with ⟨hasked, hstart⟩ | ⟨hstart, hkeep⟩
    · rw [if_neg hstart, if_neg (mem_asked.mp hasked).2, Option.map_some]
    · rw [hkeep, if_pos hstart, Option.map_none]

theorem validate_map (hgoal : goal.validate = .ok ()) : (goal.map f).validate = .ok () := by
  obtain ⟨hpredicate, hargs, hterms⟩ := validate_eq_ok_iff.mp hgoal
  refine validate_eq_ok_iff.mpr ⟨hpredicate, by simpa [map] using hargs, fun t ht => ?_⟩
  obtain ⟨u, hu, rfl⟩ := List.mem_map.mp ht
  cases u with
  | const c => exact hterms _ hu
  | var v =>
    rcases h.cases hu with ⟨hasked, -⟩ | ⟨-, hkeep⟩
    · exact Term.validate_var.mpr (h.valid v hasked)
    · rw [Term.map_var, hkeep]
      exact hterms _ hu

end Atom.RenamesAsked

end HornReasoner
