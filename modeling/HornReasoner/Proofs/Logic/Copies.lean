/-
# Copies of clauses under new names

Each use of a clause gets a number, and its variables are renamed with it: a named variable gets
its name, a number sign and the number of the use, and each underscore the number of the use
and its own, counted over head and body. Such names are new, and they tell apart what they
are made for (`newName_inj`): names of clauses have no number sign, and numerals have neither
that nor an underscore. So in a copy two variables have one name exactly if they were one
(`Clause.copiedApart_copy`), and two copies share no name.

Telling underscores apart by their number is as good as telling them apart by place
(`Clause.exists_map_apart`): the numbers grow from each underscore to the next.

Key definitions: `newName`, `Clause.number`, `Clause.copy`, `Clause.CopiedApart`, `Slot.counted`.
Key theorems: `newName_inj`, `Clause.args_number`, `Clause.copiedApart_copy`,
`Clause.exists_map_apart`.
-/
import HornReasoner.Proofs.Json.Numeral
import HornReasoner.Proofs.Logic.Printing
import HornReasoner.Proofs.Logic.Renaming

namespace HornReasoner

/-! ### New names -/

/-- The name has no number sign. -/
def PlainName (v : String) : Prop :=
  '#' ∉ v.toList

/-- A base, a number sign and the number of a use. An underscore of a clause also gets its own number. -/
def newName (base : String) (use : Nat) : Option Nat → String
  | none => base ++ "#" ++ toString use
  | some j => base ++ "#" ++ toString use ++ "_" ++ toString j

/-- What stands after the number of the use. -/
def blankMark : Option Nat → List Char
  | none => []
  | some j => '_' :: Nat.toDigits 10 j

theorem toList_newName (base : String) (use : Nat) (blank : Option Nat) :
    (newName base use blank).toList = base.toList ++ '#' :: (Nat.toDigits 10 use ++ blankMark blank) := by
  cases blank <;> simp [newName, blankMark]

theorem toDigits_inj {n m : Nat} : Nat.toDigits 10 n = Nat.toDigits 10 m ↔ n = m :=
  (Function.LeftInverse.injective digitsValue_toDigits).eq_iff

theorem blankMark_inj {i j : Option Nat} : blankMark i = blankMark j ↔ i = j := by
  cases i <;> cases j <;> simp [blankMark, toDigits_inj]

/-- The number of a use ends where its digits end. -/
theorem takeWhile_digits_append (n : Nat) (blank : Option Nat) :
    (Nat.toDigits 10 n ++ blankMark blank).takeWhile Char.isDigit = Nat.toDigits 10 n := by
  rw [List.takeWhile_append_of_pos fun c hc => isDigits_toDigits n c hc]
  cases blank <;> simp [blankMark]

theorem digits_append_inj {n m : Nat} {i j : Option Nat} :
    Nat.toDigits 10 n ++ blankMark i = Nat.toDigits 10 m ++ blankMark j ↔ n = m ∧ i = j := by
  constructor
  · intro h
    have hnumber : n = m := toDigits_inj.mp <| by
      rw [← takeWhile_digits_append n i, h, takeWhile_digits_append]
    subst hnumber
    exact ⟨rfl, blankMark_inj.mp (List.append_cancel_left h)⟩
  · rintro ⟨rfl, rfl⟩
    rfl

theorem sign_notMem_digits_append (n : Nat) (blank : Option Nat) :
    '#' ∉ Nat.toDigits 10 n ++ blankMark blank := by
  have hdigits : ∀ n, '#' ∉ Nat.toDigits 10 n := fun n h => absurd (isDigits_toDigits n '#' h) (by decide)
  cases blank <;> simp [blankMark, hdigits]

/-- **New names tell apart what they are made for.** -/
theorem newName_inj {v w : String} {k l : Nat} {i j : Option Nat} (hv : PlainName v) :
    newName v k i = newName w l j ↔ v = w ∧ k = l ∧ i = j := by
  rw [← String.toList_inj, toList_newName, toList_newName,
    List.append_cons_inj_of_notMem hv (sign_notMem_digits_append k i), String.toList_inj,
    digits_append_inj]
  simp only [true_and]

theorem plain_ne_newName {v w : String} {k : Nat} {i : Option Nat} (hv : PlainName v) :
    v ≠ newName w k i := by
  rintro rfl
  exact hv (by simp [toList_newName])

theorem plainName_blank : PlainName "_" := by
  unfold PlainName
  decide

/-- The name of a well-formed variable has no number sign. -/
theorem plainName_of_isVariableName {v : String} (hv : isVariableName v = true) : PlainName v := fun h =>
  absurd ((isVariableName_iff.mp hv).1.2 '#' h) (by decide)

/-! ### Underscores in order -/

variable {μ : Type}

/-- How many underscores stand in a row. -/
def blanksIn (ts : List (Term String)) : Nat :=
  ts.countP Term.isAnonymous

/-- Renames the variables of a row; `f` is given how many underscores stand before a variable, and `j`
stand before the row. -/
def numberRow (f : Nat → String → μ) : Nat → List (Term String) → List (Term μ)
  | _, [] => []
  | j, t :: ts => t.map (f j) :: numberRow f (if t.isAnonymous then j + 1 else j) ts

/-- Renames the variables of an atom. -/
def Atom.number (f : Nat → String → μ) (j : Nat) (a : Atom String) : Atom μ :=
  ⟨a.predicate, numberRow f j a.args⟩

/-- Renames the variables of a row of atoms. -/
def numberAtoms (f : Nat → String → μ) : Nat → List (Atom String) → List (Atom μ)
  | _, [] => []
  | j, a :: as => a.number f j :: numberAtoms f (j + blanksIn a.args) as

/-- Renames the variables of a clause, the head first. -/
def Clause.number (f : Nat → String → μ) (c : Clause String) : Clause μ :=
  ⟨c.head.number f 0, numberAtoms f (blanksIn c.head.args) c.body⟩

section

variable (f : Nat → String → μ) (j : Nat)

theorem blanksIn_eq_length (ts : List (Term String)) : blanksIn ts = (ts.filter Term.isAnonymous).length :=
  List.countP_eq_length_filter

theorem blanksIn_append (ts us : List (Term String)) : blanksIn (ts ++ us) = blanksIn ts + blanksIn us :=
  List.countP_append

theorem numberRow_cons (t : Term String) (ts : List (Term String)) :
    numberRow f j (t :: ts) = t.map (f j) :: numberRow f (j + blanksIn [t]) ts := by
  cases ht : t.isAnonymous <;> simp [numberRow, blanksIn, ht]

theorem length_numberRow (ts : List (Term String)) : (numberRow f j ts).length = ts.length := by
  induction ts generalizing j with
  | nil => rfl
  | cons t ts ih => rw [numberRow, List.length_cons, ih, List.length_cons]

theorem numberRow_append (ts us : List (Term String)) :
    numberRow f j (ts ++ us) = numberRow f j ts ++ numberRow f (j + blanksIn ts) us := by
  induction ts generalizing j with
  | nil => rfl
  | cons t ts ih =>
    rw [List.cons_append, numberRow_cons, numberRow_cons, ih, Nat.add_assoc, ← blanksIn_append]
    rfl

/-- Each variable of a row is given the number of underscores before it. -/
theorem getElem?_numberRow (ts : List (Term String)) (i : Nat) :
    (numberRow f j ts)[i]? = ts[i]?.map (Term.map (f (j + blanksIn (ts.take i)))) := by
  induction ts generalizing i j with
  | nil => rfl
  | cons t ts ih =>
    rw [numberRow_cons]
    cases i with
    | zero => rfl
    | succ i =>
      rw [List.getElem?_cons_succ, ih, List.take_succ_cons, Nat.add_assoc, ← blanksIn_append]
      rfl

theorem getElem?_numberAtoms (as : List (Atom String)) (p : Nat) : (numberAtoms f j as)[p]? =
    as[p]?.map (Atom.number f (j + blanksIn ((as.take p).flatMap Atom.args))) := by
  induction as generalizing p j with
  | nil => rfl
  | cons a as ih =>
    cases p with
    | zero => rfl
    | succ p =>
      rw [numberAtoms, List.getElem?_cons_succ, ih, List.take_succ_cons, Nat.add_assoc, ← blanksIn_append]
      rfl

theorem args_numberAtoms (as : List (Atom String)) :
    (numberAtoms f j as).flatMap Atom.args = numberRow f j (as.flatMap Atom.args) := by
  induction as generalizing j with
  | nil => rfl
  | cons a as ih =>
    rw [numberAtoms, List.flatMap_cons, List.flatMap_cons, ih, numberRow_append]
    rfl

/-- **The underscores of a clause are counted over all its atoms.** -/
theorem Clause.args_number (c : Clause String) : (c.number f).args = numberRow f 0 c.args := by
  rw [args, args, numberRow_append, Nat.zero_add, ← args_numberAtoms]
  rfl

end

theorem blanksIn_take_lt {ts : List (Term String)} {i k : Nat} (hi : ts[i]? = some (.var "_"))
    (hik : i < k) : blanksIn (ts.take i) < blanksIn (ts.take k) := by
  have hnext : blanksIn (ts.take (i + 1)) = blanksIn (ts.take i) + 1 := by
    rw [List.take_add_one, hi, blanksIn_append]
    rfl
  have hle : blanksIn (ts.take (i + 1)) ≤ blanksIn (ts.take k) :=
    (List.take_sublist_take_left hik).countP_le
  omega

/-- No two underscores of a row have the same number of underscores before them. -/
theorem blanksIn_take_inj {ts : List (Term String)} {i k : Nat} (hi : ts[i]? = some (.var "_"))
    (hk : ts[k]? = some (.var "_")) : blanksIn (ts.take i) = blanksIn (ts.take k) ↔ i = k := by
  refine ⟨fun h => ?_, fun h => h ▸ rfl⟩
  rcases Nat.lt_trichotomy i k with hlt | heq | hgt
  · exact absurd h (blanksIn_take_lt hi hlt).ne
  · exact heq
  · exact absurd h (blanksIn_take_lt hk hgt).ne'

/-! ### Renaming after counting -/

section

variable {ν ν' : Type} {f : Nat → String → ν} {f' : Nat → String → ν'} {g : ν → μ} {g' : ν' → μ}

theorem numberRow_map_congr {ts : List (Term String)}
    (h : ∀ v, .var v ∈ ts → ∀ j, g (f j v) = g' (f' j v)) (j : Nat) :
    (numberRow f j ts).map (Term.map g) = (numberRow f' j ts).map (Term.map g') := by
  refine List.ext_getElem? fun i => ?_
  rw [List.getElem?_map, List.getElem?_map, getElem?_numberRow, getElem?_numberRow]
  cases ht : ts[i]? with
  | none => rfl
  | some t =>
    cases t with
    | const x => rfl
    | var v => exact congrArg (fun x => some (Term.var x)) (h v (List.mem_of_getElem? ht) _)

theorem Atom.number_map_congr {a : Atom String} (h : ∀ v, .var v ∈ a.args → ∀ j, g (f j v) = g' (f' j v))
    (j : Nat) : (a.number f j).map g = (a.number f' j).map g' :=
  congrArg (Atom.mk a.predicate) (numberRow_map_congr h j)

/-- Two ways to rename the variables of a clause that lead to the same name for each lead to the same
clause. -/
theorem Clause.number_map_congr {c : Clause String}
    (h : ∀ v, .var v ∈ c.args → ∀ j, g (f j v) = g' (f' j v)) : (c.number f).map g = (c.number f').map g' := by
  refine congrArg₂ Clause.mk (Atom.number_map_congr (fun v hv => h v (mem_args.mpr (Or.inl hv))) 0) ?_
  refine List.ext_getElem? fun p => ?_
  simp only [number, List.getElem?_map, getElem?_numberAtoms]
  cases ha : c.body[p]? with
  | none => rfl
  | some a =>
    have hmem := List.mem_of_getElem? ha
    exact congrArg some (Atom.number_map_congr (fun v hv => h v (mem_args.mpr (Or.inr ⟨a, hmem, hv⟩))) _)

end

theorem numberRow_id (j : Nat) (ts : List (Term String)) : numberRow (fun _ => id) j ts = ts := by
  refine List.ext_getElem? fun i => ?_
  rw [getElem?_numberRow, funext Term.map_id, Option.map_id']

theorem Clause.number_id (c : Clause String) : c.number (fun _ => id) = c := by
  have hatom : ∀ j (a : Atom String), a.number (fun _ => id) j = a := fun j a =>
    congrArg (Atom.mk a.predicate) (numberRow_id j a.args)
  refine congrArg₂ Clause.mk (hatom 0 c.head) (List.ext_getElem? fun p => ?_)
  rw [getElem?_numberAtoms, funext (hatom _), Option.map_id']

/-! ### Copies -/

/-- The name of a variable in the copy for a use; `j` underscores stand before it in the clause. -/
def copyName (use j : Nat) (v : String) : String :=
  if v = "_" then newName "_" use (some (j + 1)) else newName v use none

/-- No variable of the atom has a number sign in its name. -/
def Atom.Plain (a : Atom String) : Prop :=
  ∀ v, .var v ∈ a.args → PlainName v

/-- No variable of the clause has a number sign in its name. -/
def Clause.Plain (c : Clause String) : Prop :=
  ∀ v, .var v ∈ c.args → PlainName v

theorem Atom.plain_of_validate {a : Atom String} (ha : a.validate = .ok ()) : a.Plain := fun _ hv =>
  plainName_of_isVariableName (Term.validate_var.mp ((validate_eq_ok_iff.mp ha).2.2 _ hv))

/-- Well-formed clauses have such names only. -/
theorem Clause.plain_of_validate {c : Clause String} (hc : c.validate = .ok ()) : c.Plain := fun v hv => by
  obtain ⟨hhead, hbody⟩ := validate_eq_ok_iff.mp hc
  rcases mem_args.mp hv with hv | ⟨a, ha, hv⟩
  · exact Atom.plain_of_validate hhead v hv
  · exact Atom.plain_of_validate (hbody a ha) v hv

/-- The clause with new names for its variables. -/
def Clause.copy (use : Nat) (c : Clause String) : Clause String :=
  c.number (copyName use)

theorem copyName_inj {v w : String} {k l i j : Nat} (hv : PlainName v) :
    copyName k i v = copyName l j w ↔ k = l ∧ v = w ∧ (v = "_" → i = j) := by
  unfold copyName
  by_cases hv' : v = "_" <;> by_cases hw : w = "_"
  · simp [hv', hw, newName_inj plainName_blank]
  · simp [hv', hw, newName_inj plainName_blank, Ne.symm hw]
  · simp [hv', hw, newName_inj hv]
  · simp [hv', hw, newName_inj hv, and_comm]

theorem exists_copyName_eq (use j : Nat) {v : String} (hv : PlainName v) :
    ∃ w blank, PlainName w ∧ copyName use j v = newName w use blank := by
  unfold copyName
  split
  · exact ⟨_, _, plainName_blank, rfl⟩
  · exact ⟨_, _, hv, rfl⟩

/-- The second clause is the first with other names for its variables. Two of them have one name exactly
if they were the same variable, and, as far as they were underscores, the same occurrence of it. -/
structure Clause.CopiedApart (c d : Clause String) : Prop where
  shape : d.map (fun _ => ()) = c.map fun _ => ()
  names : ∀ (i j : Nat) (v w : String), c.args[i]? = some (.var v) → c.args[j]? = some (.var w) →
    ∃ v' w', d.args[i]? = some (.var v') ∧ d.args[j]? = some (.var w') ∧
      (v' = w' ↔ v = w ∧ (v = "_" → i = j))

variable {c : Clause String}

/-- **A copy tells the variables of its clause apart**, and each underscore from all others. -/
theorem Clause.copiedApart_copy (hc : c.Plain) (use : Nat) :
    c.CopiedApart (c.copy use) where
  shape := by
    have hshape : (c.copy use).map (fun _ => ()) = (c.number fun _ => id).map fun _ => () :=
      number_map_congr fun _ _ _ => rfl
    rwa [number_id] at hshape
  names i j v w hi hj := by
    have hat : ∀ {i : Nat} {v : String}, c.args[i]? = some (.var v) → (c.copy use).args[i]? =
        some (.var (copyName use (blanksIn (c.args.take i)) v)) := fun {i v} h => by
      rw [copy, args_number, getElem?_numberRow, h, Nat.zero_add]
      rfl
    refine ⟨_, _, hat hi, hat hj, ?_⟩
    rw [copyName_inj (hc v (List.mem_of_getElem? hi)), eq_self, true_and]
    refine and_congr_right fun hvw => forall_congr' fun hv => ?_
    subst hvw hv
    exact blanksIn_take_inj hi hj

/-- The names in a copy are new ones of its use. -/
theorem Clause.exists_eq_newName (hc : c.Plain) {use : Nat} {v : String}
    (hv : .var v ∈ (c.copy use).args) : ∃ w blank, PlainName w ∧ v = newName w use blank := by
  obtain ⟨i, hi⟩ := List.getElem?_of_mem hv
  rw [copy, args_number, getElem?_numberRow] at hi
  obtain ⟨t, ht, hcopy⟩ := Option.map_eq_some_iff.mp hi
  cases t with
  | const x => cases hcopy
  | var w =>
    obtain rfl := Term.var.inj hcopy
    exact exists_copyName_eq use _ (hc w (List.mem_of_getElem? ht))

/-! ### Underscores by number and by place -/

/-- The slot of a variable, with its number for an underscore; `j` underscores stand before it. -/
def countedSlot (j : Nat) (v : String) : Slot :=
  if v = "_" then .blank 0 j else .named v

theorem countedSlot_inj {j k : Nat} {v w : String} :
    countedSlot j v = countedSlot k w ↔ v = w ∧ (v = "_" → j = k) := by
  unfold countedSlot
  by_cases hv : v = "_" <;> by_cases hw : w = "_" <;> simp [hv, hw, Ne.symm]

/-- The clause with its variables told apart, underscores by number. -/
def Clause.counted (c : Clause String) : Clause Slot :=
  c.number countedSlot

/-- A slot of the atoms with the number of its underscore instead of its place. -/
def Slot.counted (as : List (Atom String)) : Slot → Slot
  | .named v => .named v
  | .blank p i => .blank 0
    (blanksIn ((as.take p).flatMap Atom.args) + blanksIn ((as[p]?.elim [] Atom.args).take i))

theorem numberAtoms_countedSlot (as : List (Atom String)) : numberAtoms countedSlot 0 as =
    (as.mapIdx Atom.apart).map (Atom.map (Slot.counted as)) := by
  refine List.ext_getElem? fun p => ?_
  rw [getElem?_numberAtoms, List.getElem?_map, List.getElem?_mapIdx, Option.map_map, Nat.zero_add]
  cases ha : as[p]? with
  | none => rfl
  | some a =>
    refine congrArg (fun ts => some (Atom.mk a.predicate ts)) (List.ext_getElem? fun i => ?_)
    rw [getElem?_numberRow, Atom.apart_eq, List.getElem?_map, List.getElem?_mapIdx, Option.map_map]
    refine congrArg (Option.map · a.args[i]?) (funext fun t => ?_)
    cases t with
    | const c => rfl
    | var v =>
      rw [Function.comp_apply, Term.map_var, countedSlot]
      by_cases hv : v = "_"
      · rw [hv, if_pos rfl, Term.apart_blank, Term.map_var, Slot.counted, ha]
        rfl
      · rw [if_neg hv, Term.apart_named _ hv, Term.map_var, Slot.counted]

/-- Before the atoms after an underscore stand more underscores than before it. -/
theorem blanksIn_atoms_lt {as : List (Atom String)} {a : Atom String} {p q i : Nat} (ha : as[p]? = some a)
    (hi : a.args[i]? = some (.var "_")) (hpq : p < q) :
    blanksIn ((as.take p).flatMap Atom.args) + blanksIn (a.args.take i) <
      blanksIn ((as.take q).flatMap Atom.args) := by
  obtain ⟨d, rfl⟩ : ∃ d, q = p + 1 + d := Nat.exists_eq_add_of_le hpq
  have hlt := blanksIn_take_lt hi (List.getElem?_eq_some_iff.mp hi).1
  rw [List.take_length] at hlt
  rw [List.take_add, List.take_add_one, ha]
  simp only [List.flatMap_append, blanksIn_append, Option.toList_some, List.flatMap_singleton]
  omega

theorem Slot.counted_blank_inj {as : List (Atom String)} {a b : Atom String} {p q i k : Nat}
    (ha : as[p]? = some a) (hi : a.args[i]? = some (.var "_")) (hb : as[q]? = some b)
    (hk : b.args[k]? = some (.var "_")) (h : counted as (.blank p i) = counted as (.blank q k)) :
    p = q ∧ i = k := by
  simp only [counted, ha, hb, Slot.blank.injEq, true_and, Option.elim_some] at h
  rcases Nat.lt_trichotomy p q with hpq | rfl | hqp
  · have := blanksIn_atoms_lt ha hi hpq
    omega
  · cases ha.symm.trans hb
    exact ⟨rfl, (blanksIn_take_inj hi hk).mp (by omega)⟩
  · have := blanksIn_atoms_lt hb hk hqp
    omega

theorem Clause.args_apart (c : Clause String) :
    c.apart.args = ((c.head :: c.body).mapIdx Atom.apart).flatMap Atom.args := by
  rw [List.mapIdx_cons]
  rfl

theorem Clause.named_mem_apart {v : String} (hv : .var v ∈ c.args) (hne : v ≠ "_") :
    .var (.named v) ∈ c.apart.args := by
  obtain ⟨a, ha, hmem⟩ := List.mem_flatMap.mp (show .var v ∈ (c.head :: c.body).flatMap Atom.args from hv)
  obtain ⟨p, hp, rfl⟩ := List.getElem_of_mem ha
  obtain ⟨i, hi, hterm⟩ := List.getElem_of_mem hmem
  rw [args_apart]
  refine List.mem_flatMap.mpr ⟨_, List.mem_mapIdx.mpr ⟨p, hp, rfl⟩, Atom.mem_apart.mpr ⟨i, hi, ?_⟩⟩
  rw [hterm, Term.apart_named i hne]

/-- A slot of a clause is the name of a variable or an underscore at its place. -/
theorem Clause.mem_apart {x : Slot} (h : .var x ∈ c.apart.args) :
    (∃ v, x = .named v ∧ .var v ∈ c.args ∧ v ≠ "_") ∨
      ∃ p i a, x = .blank p i ∧ (c.head :: c.body)[p]? = some a ∧ a.args[i]? = some (.var "_") := by
  rw [args_apart] at h
  obtain ⟨b, hb, hx⟩ := List.mem_flatMap.mp h
  obtain ⟨p, hp, rfl⟩ := List.mem_mapIdx.mp hb
  obtain ⟨i, hi, hterm⟩ := Atom.mem_apart.mp hx
  have hat := List.getElem?_eq_getElem hi
  cases ht : (c.head :: c.body)[p].args[i] with
  | const y => rw [ht] at hterm; cases hterm
  | var v =>
    rw [ht] at hterm hat
    by_cases hv : v = "_"
    · subst hv
      exact Or.inr ⟨p, i, _, (Term.var.inj hterm).symm, List.getElem?_eq_getElem hp, hat⟩
    · rw [Term.apart_named i hv] at hterm
      have hmem : .var v ∈ c.args :=
        List.mem_flatMap.mpr ⟨_, List.getElem_mem hp, List.mem_of_getElem? hat⟩
      exact Or.inl ⟨v, (Term.var.inj hterm).symm, hmem, hv⟩

/-- Counting keeps the slots of a clause apart. -/
theorem Clause.counted_injOn (c : Clause String) :
    Set.InjOn (Slot.counted (c.head :: c.body)) {x | .var x ∈ c.apart.args} := by
  intro x hx y hy h
  rcases mem_apart hx with ⟨v, rfl, -⟩ | ⟨p, i, a, rfl, ha, hi⟩ <;>
    rcases mem_apart hy with ⟨w, rfl, -⟩ | ⟨q, k, b, rfl, hb, hk⟩
  · exact h
  · cases h
  · cases h
  · obtain ⟨rfl, rfl⟩ := Slot.counted_blank_inj ha hi hb hk h
    rfl

theorem Clause.map_congr {ν : Type} {c : Clause ν} {f g : ν → μ} (h : ∀ v, .var v ∈ c.args → f v = g v) :
    c.map f = c.map g := by
  have hatom : ∀ a : Atom ν, (∀ t ∈ a.args, t ∈ c.args) → a.map f = a.map g := fun a ha => by
    refine congrArg (Atom.mk a.predicate) (List.map_congr_left fun t ht => ?_)
    cases t with
    | const x => rfl
    | var v => exact congrArg Term.var (h v (ha _ ht))
  exact congrArg₂ Clause.mk (hatom _ fun t ht => mem_args.mpr (Or.inl ht))
    (List.map_congr_left fun a ha => hatom a fun t ht => mem_args.mpr (Or.inr ⟨a, ha, ht⟩))

/-- **Underscores told apart by number are as good as underscores told apart by place.** -/
theorem Clause.exists_map_apart (c : Clause String) : ∃ e : Slot → Slot, Function.Injective e ∧
    (∀ v, .var v ∈ c.args → v ≠ "_" → e (.named v) = .named v) ∧
    c.counted = c.apart.map e := by
  obtain ⟨e, he⟩ := exists_perm_eqOn (finite_variables c.apart.args) c.counted_injOn
  refine ⟨e, e.injective, fun v hv hne => he (named_mem_apart hv hne), ?_⟩
  rw [map_congr he]
  have hatoms := numberAtoms_countedSlot (c.head :: c.body)
  rw [List.mapIdx_cons, numberAtoms, List.map_cons, Nat.zero_add] at hatoms
  obtain ⟨hhead, hbody⟩ := List.cons.inj hatoms
  exact congrArg₂ Clause.mk hhead hbody

theorem Clause.variant_counted (c : Clause String) : c.apart.Variant c.counted := by
  obtain ⟨e, he, -, hcounted⟩ := c.exists_map_apart
  exact ⟨e, he, hcounted⟩

end HornReasoner
