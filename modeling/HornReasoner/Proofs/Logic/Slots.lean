/-
# The variables of a clause, told apart by place

Telling the variables of an atom apart changes nothing but the names of variables:
a constant stays, a named variable keeps its name wherever it stands, and each
underscore is named for its place. So the arguments of an instance of an atom are the
constants of the atom and the values of its variables (`Atom.mem_subst_apart`,
`Atom.subst_named_mem`).

Key definitions: `Clause.args`, `Term.apart`.
Key theorems: `Atom.apart_eq`, `Atom.mem_apart`, `Atom.mem_asked`, `Atom.mem_subst_apart`.
-/
import HornReasoner.Resolution.Answer

namespace HornReasoner

variable {ν μ : Type}

/-- The arguments of all atoms, those of the head first. -/
def Clause.args (c : Clause ν) : List (Term ν) :=
  c.head.args ++ c.body.flatMap Atom.args

theorem Clause.mem_args {c : Clause ν} {t : Term ν} :
    t ∈ c.args ↔ t ∈ c.head.args ∨ ∃ a ∈ c.body, t ∈ a.args := by
  rw [args, List.mem_append, List.mem_flatMap]

/-- The term at an argument of the atom at a place, with its variable told apart. -/
def Term.apart (place argument : Nat) : Term String → Term Slot
  | .const c => .const c
  | .var v => if v = "_" then .var (.blank place argument) else .var (.named v)

variable {place : Nat} {a : Atom String} {v : String}

theorem Term.apart_named (argument : Nat) (hv : v ≠ "_") :
    (Term.var v).apart place argument = .var (.named v) :=
  if_neg hv

theorem Term.apart_blank (place argument : Nat) :
    (Term.var "_").apart place argument = .var (.blank place argument) := rfl

theorem Atom.apart_eq (place : Nat) (a : Atom String) :
    a.apart place = ⟨a.predicate, a.args.mapIdx (Term.apart place)⟩ := rfl

theorem Atom.mem_apart {t : Term Slot} : t ∈ (a.apart place).args ↔
    ∃ i, ∃ h : i < a.args.length, a.args[i].apart place i = t := by
  rw [apart_eq, List.mem_mapIdx]

/-- Telling variables apart brings in no constants. -/
theorem Atom.const_mem_of_apart {x : String} (h : .const x ∈ (a.apart place).args) : .const x ∈ a.args := by
  obtain ⟨i, hi, hterm⟩ := mem_apart.mp h
  have hmem := List.getElem_mem hi
  cases ht : a.args[i] with
  | const c =>
    rw [ht] at hterm hmem
    exact Term.const.inj hterm ▸ hmem
  | var v =>
    rw [ht, Term.apart] at hterm
    split at hterm <;> cases hterm

theorem Clause.const_mem_of_apart {c : Clause String} {x : String} (h : .const x ∈ c.apart.args) :
    .const x ∈ c.args := by
  rw [mem_args] at h ⊢
  refine h.imp Atom.const_mem_of_apart ?_
  rintro ⟨d, hd, hx⟩
  obtain ⟨i, hi, rfl⟩ := List.mem_mapIdx.mp hd
  exact ⟨_, List.getElem_mem hi, Atom.const_mem_of_apart hx⟩

/-- A goal asks for its variables that do not start with an underscore. -/
theorem Atom.mem_asked : v ∈ a.asked ↔ .var v ∈ a.args ∧ v.toList.head? ≠ some '_' := by
  unfold asked namedVariables
  simp only [List.mem_filter, List.mem_map, decide_eq_true_eq]
  refine and_congr_left fun hstart => ⟨?_, fun hmem => ⟨.var v, ⟨hmem, ?_⟩, rfl⟩⟩
  · rintro ⟨t, ⟨ht, hnamed⟩, rfl⟩
    cases t with
    | const c => cases hnamed
    | var w => exact ht
  · have hne : v ≠ "_" := by rintro rfl; exact hstart rfl
    simpa [Term.isVariable, Term.isAnonymous] using hne

theorem Atom.ne_blank_of_mem_asked (h : v ∈ a.asked) : v ≠ "_" := by
  rintro rfl
  exact (mem_asked.mp h).2 rfl

/-- A constant of an instance of an atom stands in the atom, or a variable of the atom has it as its
value. -/
theorem Atom.mem_subst_apart {θ : Slot → Term μ} {x : String}
    (h : .const x ∈ ((a.apart place).subst θ).args) :
    .const x ∈ a.args ∨ ∃ v, .var v ∈ a.args ∧ (v ≠ "_" → θ (.named v) = .const x) := by
  obtain ⟨t, ht, hx⟩ := List.mem_map.mp h
  obtain ⟨i, hi, rfl⟩ := mem_apart.mp ht
  have hmem := List.getElem_mem hi
  cases hterm : a.args[i] with
  | const c =>
    rw [hterm] at hx hmem
    exact Or.inl (Term.const.inj hx ▸ hmem)
  | var v =>
    rw [hterm] at hx hmem
    exact Or.inr ⟨v, hmem, fun hv => by rwa [Term.apart_named i hv] at hx⟩

/-- The value of a named variable of an atom stands in the instance. -/
theorem Atom.subst_named_mem (place : Nat) (θ : Slot → Term μ) (hmem : .var v ∈ a.args) (hv : v ≠ "_") :
    θ (.named v) ∈ ((a.apart place).subst θ).args := by
  obtain ⟨i, hi, hterm⟩ := List.getElem_of_mem hmem
  refine List.mem_map.mpr ⟨.var (.named v), mem_apart.mpr ⟨i, hi, ?_⟩, rfl⟩
  rw [hterm, Term.apart_named i hv]

end HornReasoner
