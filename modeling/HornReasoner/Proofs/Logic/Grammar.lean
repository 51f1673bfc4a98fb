/-
# Clauses and goals are read exactly as the grammar has them

A clause is written as one row of tokens, and so is an atom (`Clause.asTokens`,
`Atom.asTokens`). A text reads as a clause if it spells the clause's row and each name in
it is one, an argument being a variable if its name starts with a capital letter or an
underscore; and a text reads as an atom if it spells the atom's row, with a final stop or
without, and the predicate starts with a small letter (`read_iff_grammatical`).

A reading has one way to go on at each token, so what is left of a row says what is still
to be read: an atom before anything else (`Reading.leads_atom`), then a stop or more
atoms (`Reading.leads_between`).

Key definitions: `Atom.asTokens`, `Clause.asTokens`, `Atom.Grammatical`, `Clause.Grammatical`,
`Reading.Leads`.
Key theorems: `Reading.leads_clause_iff`, `Reading.leads_goal_iff`, `readAtoms_eq_ok_iff`,
`Clause.read_eq_ok_iff`, `Atom.read_eq_ok_iff`, `read_iff_grammatical`.
-/
import HornReasoner.Logic.Reader
import HornReasoner.Proofs.Logic.Spelling

namespace HornReasoner

/-! ### The grammar -/

/-- Rows of tokens with a comma between each two. -/
abbrev commaSeparated (rows : List (List Token)) : List Token := [Token.comma].intercalate rows

/-- A term is written as its name. -/
def Term.asTokens (t : Term String) : List Token := [.name t.name.toList]

/-- `name "(" name { "," name } ")"`. -/
def Atom.asTokens (a : Atom String) : List Token :=
  .name a.predicate.toList :: .opening :: (commaSeparated (a.args.map Term.asTokens) ++ [.closing])

/-- `atom [ ":-" atom { "," atom } ] "."`. -/
def Clause.asTokens (c : Clause String) : List Token :=
  match c.body with
  | [] => c.head.asTokens ++ [.stop]
  | body => c.head.asTokens ++ .neck :: (commaSeparated (body.map Atom.asTokens) ++ [.stop])

/-- The term has a name, and it is a variable if that starts with a capital letter or an underscore. -/
structure Term.Grammatical (t : Term String) : Prop where
  name : IsName t.name.toList
  kind : t.isVariable = true ↔ ∃ c cs, t.name.toList = c :: cs ∧ (c.isUpper = true ∨ c = '_')

/-- The predicate is a name, and there are arguments. -/
structure Atom.Grammatical (a : Atom String) : Prop where
  predicate : IsName a.predicate.toList
  args_ne_nil : a.args ≠ []
  args : ∀ t ∈ a.args, t.Grammatical

/-- Every atom is as the grammar has it. -/
structure Clause.Grammatical (c : Clause String) : Prop where
  head : c.head.Grammatical
  body : ∀ a ∈ c.body, a.Grammatical

theorem intercalate_cons {α : Type} (sep l : List α) :
    ∀ ls : List (List α), sep.intercalate (l :: ls) = l ++ ls.flatMap (sep ++ ·)
  | [] => by simp
  | l' :: ls => by
    rw [List.intercalate_cons_cons, intercalate_cons sep l' ls, List.flatMap_cons, List.append_assoc,
      List.append_assoc]

theorem commaSeparated_cons (row : List Token) (rows : List (List Token)) :
    commaSeparated (row :: rows) = row ++ rows.flatMap (.comma :: ·) :=
  intercalate_cons _ row rows

/-- The first argument and those that follow it, each after a comma. -/
theorem Atom.asTokens_cons (p : String) (t : Term String) (more : List (Term String)) :
    (Atom.mk p (t :: more)).asTokens = .name p.toList :: .opening :: .name t.name.toList ::
      (more.flatMap (fun t => .comma :: t.asTokens) ++ [.closing]) := by
  rw [asTokens, List.map_cons, commaSeparated_cons, List.flatMap_map]
  rfl

theorem startsVariable_iff {s : String} :
    startsVariable s = true ↔ ∃ c cs, s.toList = c :: cs ∧ (c.isUpper = true ∨ c = '_') := by
  unfold startsVariable
  cases s.toList with
  | nil => simp
  | cons c cs => simp

/-- A term with a name is grammatical if it is the one that the name denotes. -/
theorem Term.grammatical_iff {t : Term String} :
    t.Grammatical ↔ IsName t.name.toList ∧ t = .ofIdentifier t.name := by
  have hkind : (t.isVariable = true ↔ startsVariable t.name = true) ↔ t = .ofIdentifier t.name := by
    unfold ofIdentifier
    cases t with
    | const n =>
      show (false = true ↔ startsVariable n = true) ↔ Term.const n = if startsVariable n then _ else _
      by_cases h : startsVariable n = true <;> simp [h, Term.name]
    | var n =>
      show (true = true ↔ startsVariable n = true) ↔ Term.var n = if startsVariable n then _ else _
      by_cases h : startsVariable n = true <;> simp [h, Term.name]
  rw [← hkind, startsVariable_iff]
  exact ⟨fun h => ⟨h.name, h.kind⟩, fun h => ⟨h.1, h.2⟩⟩

@[simp] theorem Term.name_ofIdentifier (s : String) : (ofIdentifier s).name = s := by
  unfold ofIdentifier
  split <;> rfl

/-- There are arguments, and each is the term that its name denotes. -/
def Atom.Denoted (a : Atom String) : Prop :=
  a.args ≠ [] ∧ ∀ t ∈ a.args, t = .ofIdentifier t.name

/-- Every atom has arguments that are what their names denote. -/
def Clause.Denoted (c : Clause String) : Prop :=
  c.head.Denoted ∧ ∀ a ∈ c.body, a.Denoted

/-- The head, the first atom of the body after the neck, and the others, each after a comma. -/
theorem Clause.asTokens_cons (head a : Atom String) (more : List (Atom String)) :
    (Clause.mk head (a :: more)).asTokens = head.asTokens ++
      .neck :: (a.asTokens ++ (more.flatMap (fun a => .comma :: a.asTokens) ++ [.stop])) := by
  show head.asTokens ++ .neck :: (commaSeparated ((a :: more).map Atom.asTokens) ++ [.stop]) = _
  rw [List.map_cons, commaSeparated_cons, List.flatMap_map, List.append_assoc]

namespace Reading

variable {form : Form} {r : Reading} {ts : List Token} {t : Token} {as atoms : List (Atom String)}
  {p : String} {args : List (Term String)}

/-- From the reading on, the tokens lead to these atoms. -/
def Leads (form : Form) (r : Reading) (ts : List Token) (atoms : List (Atom String)) : Prop :=
  ∃ r', ts.foldlM (step form) r = .ok r' ∧ r'.atEnd form = .ok atoms

theorem leads_nil : Leads form r [] atoms ↔ r.atEnd form = .ok atoms := by
  constructor
  · rintro ⟨_, ⟨⟩, h⟩
    exact h
  · exact fun h => ⟨r, rfl, h⟩

theorem leads_cons :
    Leads form r (t :: ts) atoms ↔ ∃ r', r.step form t = .ok r' ∧ Leads form r' ts atoms := by
  unfold Leads
  rw [List.foldlM_cons]
  cases r.step form t with
  | error e => simp [bind, Except.bind]
  | ok r' => simp [bind, Except.bind]

/-- A run that succeeds leads to its atoms, wherever the tokens stand. -/
theorem run_eq_ok_iff {size : Nat} {ps : List (Nat × Token)} :
    run form size r ps = .ok atoms ↔ Leads form r (ps.map Prod.snd) atoms := by
  induction ps generalizing r with
  | nil =>
    rw [List.map_nil, leads_nil, run]
    cases r.atEnd form <;> simp [Except.mapError]
  | cons p ps ih =>
    obtain ⟨offset, t⟩ := p
    rw [List.map_cons, leads_cons, run]
    cases r.step form t with
    | error e => simp
    | ok r' => simpa using ih

theorem leads_predicate : Leads form ⟨as, .predicate⟩ ts atoms ↔
    ∃ n rest, ts = .name n :: rest ∧ Leads form ⟨as, .opening (String.ofList n)⟩ rest atoms := by
  cases ts with
  | nil => simp [leads_nil, atEnd]
  | cons t ts =>
    rw [leads_cons]
    cases t with
    | name n => simp [step]
    | _ => simp [step]

theorem leads_opening : Leads form ⟨as, .opening p⟩ ts atoms ↔
    ∃ rest, ts = .opening :: rest ∧ Leads form ⟨as, .argument p []⟩ rest atoms := by
  cases ts with
  | nil => simp [leads_nil, atEnd]
  | cons t ts =>
    rw [leads_cons]
    cases t with
    | opening => simp [step]
    | _ => simp [step]

theorem leads_argument : Leads form ⟨as, .argument p args⟩ ts atoms ↔
    ∃ n rest, ts = .name n :: rest ∧
      Leads form ⟨as, .closing p (args ++ [.ofIdentifier (String.ofList n)])⟩ rest atoms := by
  cases ts with
  | nil => simp [leads_nil, atEnd]
  | cons t ts =>
    rw [leads_cons]
    cases t with
    | name n => simp [step]
    | _ => simp [step]

theorem leads_closing : Leads form ⟨as, .closing p args⟩ ts atoms ↔
    (∃ rest, ts = .closing :: rest ∧ Leads form ⟨as ++ [⟨p, args⟩], .between⟩ rest atoms) ∨
      ∃ rest, ts = .comma :: rest ∧ Leads form ⟨as, .argument p args⟩ rest atoms := by
  cases ts with
  | nil => simp [leads_nil, atEnd]
  | cons t ts =>
    rw [leads_cons]
    cases t with
    | closing => simp [step]
    | comma => simp [step]
    | _ => simp [step]

theorem leads_finished : Leads form ⟨as, .finished⟩ ts atoms ↔ ts = [] ∧ as = atoms := by
  cases ts with
  | nil => simp [leads_nil, atEnd]
  | cons t ts => simp [leads_cons, step]

/-- After an atom a goal may end, a stop ends a goal or a clause, and in a clause the neck follows the
head and a comma an atom of the body. -/
theorem leads_between : Leads form ⟨as, .between⟩ ts atoms ↔ (ts = [] ∧ form = .goal ∧ as = atoms) ∨
    (ts = [.stop] ∧ as = atoms) ∨
    (∃ rest, form = .clause ∧ as.length = 1 ∧ ts = .neck :: rest ∧ Leads form ⟨as, .predicate⟩ rest atoms) ∨
    ∃ rest, form = .clause ∧ 1 < as.length ∧ ts = .comma :: rest ∧ Leads form ⟨as, .predicate⟩ rest atoms := by
  cases ts with
  | nil => cases form <;> simp [leads_nil, atEnd]
  | cons t ts =>
    have hif : ∀ (q : Prop) [Decidable q] (f : Fault),
        (∃ r', (if q then Except.ok ⟨as, .predicate⟩ else .error f) = .ok r' ∧ Leads form r' ts atoms) ↔
          q ∧ Leads form ⟨as, .predicate⟩ ts atoms := by
      intro q _ f
      by_cases hq : q <;> simp [hq]
    rw [leads_cons]
    cases form with
    | goal => cases t <;> simp [step, stepBetween, leads_finished]
    | clause => cases t <;> simp [step, stepBetween, leads_finished, hif]

/-! ### What is left to read -/

/-- More arguments are read up to the closing of their atom. -/
theorem leads_moreArguments : Leads form ⟨as, .closing p args⟩ ts atoms ↔
    ∃ more rest, (∀ t ∈ more, t = .ofIdentifier t.name) ∧
      ts = more.flatMap (fun t => .comma :: t.asTokens) ++ .closing :: rest ∧
      Leads form ⟨as ++ [⟨p, args ++ more⟩], .between⟩ rest atoms := by
  constructor
  · intro h
    induction hlength : ts.length using Nat.strong_induction_on generalizing ts args with
    | _ k ih =>
      obtain ⟨rest, rfl, hrest⟩ | ⟨ts₁, rfl, h₁⟩ := leads_closing.mp h
      · exact ⟨[], rest, nofun, rfl, by rwa [List.append_nil]⟩
      · obtain ⟨n, ts₂, rfl, h₂⟩ := leads_argument.mp h₁
        have hshorter : ts₂.length < k := by
          rw [← hlength, List.length_cons, List.length_cons]
          omega
        obtain ⟨more, rest, hmore, rfl, hrest⟩ := ih ts₂.length hshorter h₂ rfl
        have hname : (Term.ofIdentifier (String.ofList n)).asTokens = [.name n] := by
          rw [Term.asTokens, Term.name_ofIdentifier, String.toList_ofList]
        refine ⟨.ofIdentifier (String.ofList n) :: more, rest, ?_, ?_, ?_⟩
        · exact List.forall_mem_cons.mpr ⟨by rw [Term.name_ofIdentifier], hmore⟩
        · rw [List.flatMap_cons, hname]
          rfl
        · rwa [List.append_assoc] at hrest
  · rintro ⟨more, rest, hmore, rfl, hrest⟩
    induction more generalizing args with
    | nil => exact leads_closing.mpr (Or.inl ⟨rest, rfl, by rwa [List.append_nil] at hrest⟩)
    | cons t more ih =>
      obtain ⟨ht, hmore⟩ := List.forall_mem_cons.mp hmore
      refine leads_closing.mpr (Or.inr ⟨_, rfl, leads_argument.mpr ⟨_, _, rfl, ?_⟩⟩)
      rw [String.ofList_toList, ← ht]
      exact ih hmore (by rwa [List.append_assoc])

/-- **Before anything else an atom is read.** -/
theorem leads_atom : Leads form ⟨as, .predicate⟩ ts atoms ↔
    ∃ a rest, a.Denoted ∧ ts = a.asTokens ++ rest ∧ Leads form ⟨as ++ [a], .between⟩ rest atoms := by
  constructor
  · intro h
    obtain ⟨n, ts₁, rfl, h₁⟩ := leads_predicate.mp h
    obtain ⟨ts₂, rfl, h₂⟩ := leads_opening.mp h₁
    obtain ⟨m, ts₃, rfl, h₃⟩ := leads_argument.mp h₂
    obtain ⟨more, rest, hmore, rfl, hrest⟩ := leads_moreArguments.mp h₃
    refine ⟨⟨String.ofList n, .ofIdentifier (String.ofList m) :: more⟩, rest, ⟨List.cons_ne_nil _ _, ?_⟩, ?_,
      hrest⟩
    · exact List.forall_mem_cons.mpr ⟨by rw [Term.name_ofIdentifier], hmore⟩
    · rw [Atom.asTokens_cons, Term.name_ofIdentifier, String.toList_ofList, String.toList_ofList]
      simp
  · rintro ⟨⟨p, args⟩, rest, ⟨hne, hargs⟩, rfl, hrest⟩
    obtain ⟨t, more, rfl⟩ := List.exists_cons_of_ne_nil hne
    obtain ⟨ht, hmore⟩ := List.forall_mem_cons.mp hargs
    have hclosing : Leads form ⟨as, .closing p ([] ++ [.ofIdentifier (String.ofList t.name.toList)])⟩
        (more.flatMap (fun t => .comma :: t.asTokens) ++ .closing :: rest) atoms := by
      rw [String.ofList_toList, ← ht]
      exact leads_moreArguments.mpr ⟨more, rest, hmore, rfl, hrest⟩
    have hopening : Leads form ⟨as, .opening (String.ofList p.toList)⟩ (.opening :: .name t.name.toList ::
        (more.flatMap (fun t => .comma :: t.asTokens) ++ .closing :: rest)) atoms := by
      rw [String.ofList_toList]
      exact leads_opening.mpr ⟨_, rfl, leads_argument.mpr ⟨_, _, rfl, hclosing⟩⟩
    refine leads_predicate.mpr ⟨p.toList, _, ?_, hopening⟩
    rw [Atom.asTokens_cons, List.cons_append, List.cons_append, List.cons_append, List.append_assoc]
    rfl

/-- More atoms of a body are read up to the stop. -/
theorem leads_moreAtoms (has : 1 < as.length) : Leads .clause ⟨as, .between⟩ ts atoms ↔
    ∃ more, (∀ a ∈ more, a.Denoted) ∧ ts = more.flatMap (fun a => .comma :: a.asTokens) ++ [.stop] ∧
      as ++ more = atoms := by
  constructor
  · intro h
    induction hlength : ts.length using Nat.strong_induction_on generalizing ts as with
    | _ k ih =>
      obtain ⟨-, hform, -⟩ | ⟨rfl, hatoms⟩ | ⟨_, -, hone, -⟩ | ⟨ts₁, -, -, rfl, h₁⟩ := leads_between.mp h
      · cases hform
      · exact ⟨[], nofun, rfl, by rwa [List.append_nil]⟩
      · omega
      · obtain ⟨a, ts₂, ha, rfl, h₂⟩ := leads_atom.mp h₁
        have hshorter : ts₂.length < k := by
          rw [← hlength, List.length_cons, List.length_append]
          omega
        have has' : 1 < (as ++ [a]).length := by
          rw [List.length_append]
          omega
        obtain ⟨more, hmore, rfl, hatoms⟩ := ih ts₂.length hshorter has' h₂ rfl
        refine ⟨a :: more, List.forall_mem_cons.mpr ⟨ha, hmore⟩, ?_, ?_⟩
        · rw [List.flatMap_cons, List.append_assoc]
          rfl
        · rwa [List.append_assoc] at hatoms
  · rintro ⟨more, hmore, rfl, hatoms⟩
    induction more generalizing as with
    | nil => exact leads_between.mpr (Or.inr (Or.inl ⟨rfl, by rwa [List.append_nil] at hatoms⟩))
    | cons a more ih =>
      obtain ⟨ha, hmore⟩ := List.forall_mem_cons.mp hmore
      have has' : 1 < (as ++ [a]).length := by
        rw [List.length_append]
        omega
      have hrest := ih has' hmore (by rwa [List.append_assoc])
      have hatom : Leads .clause ⟨as, .predicate⟩
          (a.asTokens ++ (more.flatMap (fun a => .comma :: a.asTokens) ++ [.stop])) atoms :=
        leads_atom.mpr ⟨a, _, ha, rfl, hrest⟩
      refine leads_between.mpr (Or.inr (Or.inr (Or.inr ⟨_, rfl, has, ?_, hatom⟩)))
      rw [List.flatMap_cons, List.append_assoc]
      rfl

/-- **The tokens of a clause** lead to its atoms, and no others lead to any. -/
theorem leads_start_clause : Leads .clause start ts atoms ↔
    ∃ c : Clause String, c.Denoted ∧ ts = c.asTokens ∧ c.head :: c.body = atoms := by
  have hone : ∀ head : Atom String, ([] ++ [head]).length = 1 := fun _ => rfl
  have htwo : ∀ head a : Atom String, 1 < ([] ++ [head] ++ [a]).length := fun _ _ => Nat.lt_succ_self 1
  constructor
  · intro h
    obtain ⟨head, rest, hhead, rfl, hrest⟩ := leads_atom.mp h
    obtain ⟨-, hform, -⟩ | ⟨rfl, hatoms⟩ | ⟨ts₁, -, -, rfl, h₁⟩ | ⟨_, -, hmany, -⟩ := leads_between.mp hrest
    · cases hform
    · exact ⟨⟨head, []⟩, ⟨hhead, nofun⟩, rfl, hatoms⟩
    · obtain ⟨a, ts₂, ha, rfl, h₂⟩ := leads_atom.mp h₁
      obtain ⟨more, hmore, rfl, hatoms⟩ := (leads_moreAtoms (htwo head a)).mp h₂
      exact ⟨⟨head, a :: more⟩, ⟨hhead, List.forall_mem_cons.mpr ⟨ha, hmore⟩⟩,
        (Clause.asTokens_cons head a more).symm, hatoms⟩
    · rw [hone] at hmany
      omega
  · rintro ⟨⟨head, body⟩, ⟨hhead, hbody⟩, rfl, hatoms⟩
    cases body with
    | nil => exact leads_atom.mpr ⟨head, [.stop], hhead, rfl, leads_between.mpr (Or.inr (Or.inl ⟨rfl, hatoms⟩))⟩
    | cons a more =>
      obtain ⟨ha, hmore⟩ := List.forall_mem_cons.mp hbody
      have hafter : Leads .clause ⟨[head] ++ [a], .between⟩
          (more.flatMap (fun a => .comma :: a.asTokens) ++ [.stop]) atoms :=
        (leads_moreAtoms (htwo head a)).mpr ⟨more, hmore, rfl, hatoms⟩
      have hbefore := leads_atom.mpr ⟨a, _, ha, rfl, hafter⟩
      refine leads_atom.mpr ⟨head, _, hhead, Clause.asTokens_cons head a more, ?_⟩
      exact leads_between.mpr (Or.inr (Or.inr (Or.inl ⟨_, rfl, rfl, rfl, hbefore⟩)))

/-- **The tokens of an atom**, or those and a stop, lead to the atom as a goal. -/
theorem leads_start_goal : Leads .goal start ts atoms ↔
    ∃ a : Atom String, a.Denoted ∧ (ts = a.asTokens ∨ ts = a.asTokens ++ [.stop]) ∧ [a] = atoms := by
  constructor
  · intro h
    obtain ⟨a, rest, ha, rfl, hrest⟩ := leads_atom.mp h
    obtain ⟨rfl, -, hatoms⟩ | ⟨rfl, hatoms⟩ | ⟨_, hform, -⟩ | ⟨_, hform, -⟩ := leads_between.mp hrest
    · exact ⟨a, ha, Or.inl (List.append_nil _), hatoms⟩
    · exact ⟨a, ha, Or.inr rfl, hatoms⟩
    · cases hform
    · cases hform
  · rintro ⟨a, ha, rfl | rfl, hatoms⟩
    · refine leads_atom.mpr ⟨a, [], ha, (List.append_nil _).symm, ?_⟩
      exact leads_between.mpr (Or.inl ⟨rfl, rfl, hatoms⟩)
    · exact leads_atom.mpr ⟨a, [.stop], ha, rfl, leads_between.mpr (Or.inr (Or.inl ⟨rfl, hatoms⟩))⟩

/-- Only the tokens of a clause lead to its atoms. -/
theorem leads_clause_iff {c : Clause String} :
    Leads .clause start ts (c.head :: c.body) ↔ c.Denoted ∧ ts = c.asTokens := by
  rw [leads_start_clause]
  constructor
  · rintro ⟨⟨head, body⟩, hdenoted, rfl, hatoms⟩
    cases c
    cases hatoms
    exact ⟨hdenoted, rfl⟩
  · rintro ⟨hdenoted, rfl⟩
    exact ⟨c, hdenoted, rfl, rfl⟩

/-- A goal is one atom, and only its tokens lead to it, with a stop or without. -/
theorem leads_goal_iff {a : Atom String} : Leads .goal start ts (a :: as) ↔
    as = [] ∧ a.Denoted ∧ (ts = a.asTokens ∨ ts = a.asTokens ++ [.stop]) := by
  rw [leads_start_goal]
  constructor
  · rintro ⟨_, hdenoted, hts, ⟨⟩⟩
    exact ⟨rfl, hdenoted, hts⟩
  · rintro ⟨rfl, hdenoted, hts⟩
    exact ⟨a, hdenoted, hts, rfl⟩

end Reading

/-! ### Names in a row of tokens -/

variable {ts : List Token} {t : Token} {a : Atom String} {c : Clause String}

theorem namesApart_cons_mark (ht : t.IsMark) (h : NamesApart ts) : NamesApart (t :: ts) :=
  List.isChain_cons.mpr ⟨fun _ _ => Or.inl ht, h⟩

/-- A token may stand before a mark. -/
theorem namesApart_cons (t : Token) (hts : ∀ u ∈ ts.head?, u.IsMark) (h : NamesApart ts) :
    NamesApart (t :: ts) :=
  List.isChain_cons.mpr ⟨fun u hu => Or.inr (hts u hu), h⟩

theorem namesApart_moreArguments (more : List (Term String)) (h : NamesApart ts) :
    NamesApart (more.flatMap (fun t => .comma :: t.asTokens) ++ .closing :: ts) ∧
      ∀ u ∈ (more.flatMap (fun t => .comma :: t.asTokens) ++ .closing :: ts).head?, u.IsMark := by
  induction more with
  | nil =>
    refine ⟨namesApart_cons_mark nofun h, ?_⟩
    rintro _ ⟨⟩
    exact nofun
  | cons t more ih =>
    refine ⟨namesApart_cons_mark nofun (namesApart_cons _ ih.2 ih.1), ?_⟩
    rintro _ ⟨⟩
    exact nofun

/-- No name follows another in an atom, and it ends with a mark. -/
theorem namesApart_atom (a : Atom String) (h : NamesApart ts) : NamesApart (a.asTokens ++ ts) := by
  obtain ⟨p, args⟩ := a
  have hopening : ∀ us : List Token, ∀ u ∈ (Token.opening :: us).head?, u.IsMark := by
    rintro us _ ⟨⟩
    exact nofun
  cases args with
  | nil =>
    exact namesApart_cons _ (hopening _) (namesApart_cons_mark nofun (namesApart_cons_mark nofun h))
  | cons t more =>
    obtain ⟨hmore, hhead⟩ := namesApart_moreArguments more h
    rw [Atom.asTokens_cons, List.cons_append, List.cons_append, List.cons_append, List.append_assoc]
    exact namesApart_cons _ (hopening _) (namesApart_cons_mark nofun (namesApart_cons _ hhead hmore))

theorem namesApart_moreAtoms (more : List (Atom String)) (h : NamesApart ts) :
    NamesApart (more.flatMap (fun a => .comma :: a.asTokens) ++ ts) := by
  induction more with
  | nil => exact h
  | cons a more ih =>
    rw [List.flatMap_cons, List.append_assoc]
    exact namesApart_cons_mark nofun (namesApart_atom a ih)

/-- No name follows another in a clause. -/
theorem namesApart_clause (c : Clause String) : NamesApart c.asTokens := by
  obtain ⟨head, body⟩ := c
  have hstop : NamesApart [.stop] := List.isChain_singleton _
  cases body with
  | nil => exact namesApart_atom head hstop
  | cons a more =>
    rw [Clause.asTokens_cons]
    exact namesApart_atom head
      (namesApart_cons_mark nofun (namesApart_atom a (namesApart_moreAtoms more hstop)))

theorem namesApart_of_leads_clause (h : Reading.Leads .clause .start ts (c.head :: c.body)) :
    NamesApart ts := by
  obtain ⟨-, rfl⟩ := Reading.leads_clause_iff.mp h
  exact namesApart_clause c

theorem namesApart_of_leads_goal {as : List (Atom String)} (h : Reading.Leads .goal .start ts (a :: as)) :
    NamesApart ts := by
  obtain ⟨-, -, rfl | rfl⟩ := Reading.leads_goal_iff.mp h
  · have hatom := namesApart_atom a List.isChain_nil
    rwa [List.append_nil] at hatom
  · exact namesApart_atom a (List.isChain_singleton _)

/-- The names of an atom are its predicate and the names of its arguments. -/
theorem mem_atom_asTokens {n : List Char} : .name n ∈ a.asTokens ↔
    n = a.predicate.toList ∨ ∃ t ∈ a.args, n = t.name.toList := by
  obtain ⟨p, args⟩ := a
  cases args with
  | nil => simp [Atom.asTokens]
  | cons t more => simp [Atom.asTokens_cons, Term.asTokens]

/-- The names of a clause are those of its atoms. -/
theorem mem_clause_asTokens {n : List Char} : .name n ∈ c.asTokens ↔
    .name n ∈ c.head.asTokens ∨ ∃ a ∈ c.body, .name n ∈ a.asTokens := by
  obtain ⟨head, body⟩ := c
  cases body with
  | nil => simp [Clause.asTokens]
  | cons a more => simp [Clause.asTokens_cons]

theorem Atom.grammatical_iff : a.Grammatical ↔ a.Denoted ∧ ∀ n, .name n ∈ a.asTokens → IsName n := by
  constructor
  · rintro ⟨hp, hne, hargs⟩
    refine ⟨⟨hne, fun t ht => (Term.grammatical_iff.mp (hargs t ht)).2⟩, fun n hn => ?_⟩
    rcases mem_atom_asTokens.mp hn with rfl | ⟨t, ht, rfl⟩
    · exact hp
    · exact (hargs t ht).name
  · rintro ⟨⟨hne, hargs⟩, hnames⟩
    refine ⟨hnames _ (mem_atom_asTokens.mpr (Or.inl rfl)), hne, fun t ht => ?_⟩
    exact Term.grammatical_iff.mpr ⟨hnames _ (mem_atom_asTokens.mpr (Or.inr ⟨t, ht, rfl⟩)), hargs t ht⟩

theorem Clause.grammatical_iff :
    c.Grammatical ↔ c.Denoted ∧ ∀ n, .name n ∈ c.asTokens → IsName n := by
  constructor
  · rintro ⟨hhead, hbody⟩
    refine ⟨⟨(Atom.grammatical_iff.mp hhead).1, fun a ha => (Atom.grammatical_iff.mp (hbody a ha)).1⟩,
      fun n hn => ?_⟩
    rcases mem_clause_asTokens.mp hn with hn | ⟨a, ha, hn⟩
    · exact (Atom.grammatical_iff.mp hhead).2 n hn
    · exact (Atom.grammatical_iff.mp (hbody a ha)).2 n hn
  · rintro ⟨⟨hhead, hbody⟩, hnames⟩
    refine ⟨Atom.grammatical_iff.mpr ⟨hhead, fun n hn => hnames n ?_⟩, fun a ha =>
      Atom.grammatical_iff.mpr ⟨hbody a ha, fun n hn => hnames n ?_⟩⟩
    · exact mem_clause_asTokens.mpr (Or.inl hn)
    · exact mem_clause_asTokens.mpr (Or.inr ⟨a, ha, hn⟩)

/-! ### Texts -/

variable {s : String} {form : Form} {atoms : List (Atom String)}

/-- A text has the atoms to which the tokens found in it lead. -/
theorem readAtoms_eq_ok_iff_tokens : readAtoms form s = .ok atoms ↔
    ∃ ps, tokens 0 s.toList = .ok ps ∧ Reading.Leads form .start (ps.map Prod.snd) atoms := by
  unfold readAtoms
  cases tokens 0 s.toList with
  | error e => simp [bind, Except.bind]
  | ok ps =>
    show Reading.run form s.utf8ByteSize .start ps = .ok atoms ↔ _
    rw [Reading.run_eq_ok_iff]
    simp

/-- A text has the atoms to which the tokens it spells lead. -/
theorem readAtoms_eq_ok_iff (hapart : ∀ ts, Reading.Leads form .start ts atoms → NamesApart ts) :
    readAtoms form s = .ok atoms ↔ ∃ ts, Spells ts s.toList ∧ (∀ n, .name n ∈ ts → IsName n) ∧
      Reading.Leads form .start ts atoms := by
  rw [readAtoms_eq_ok_iff_tokens]
  constructor
  · rintro ⟨ps, hps, hleads⟩
    obtain ⟨hspells, hnames⟩ := spells_of_tokens hps
    exact ⟨ps.map Prod.snd, hspells, hnames, hleads⟩
  · rintro ⟨ts, hspells, hnames, hleads⟩
    obtain ⟨ps, hps, rfl⟩ := exists_tokens hspells hnames (hapart ts hleads) 0
    exact ⟨ps, hps, hleads⟩

/-- A clause is read as its head and the atoms of its body. -/
theorem Clause.read_eq_ok_iff_readAtoms :
    Clause.read s = .ok c ↔ readAtoms .clause s = .ok (c.head :: c.body) := by
  unfold Clause.read
  cases readAtoms .clause s with
  | error e => simp [bind, Except.bind]
  | ok atoms =>
    obtain ⟨head, body⟩ := c
    cases atoms with
    | nil => simp [bind, Except.bind, throw, throwThe, MonadExceptOf.throw]
    | cons a as => simp [bind, Except.bind, pure, Except.pure]

/-- **A text reads as a clause** if it spells the clause and the clause is grammatical. -/
theorem Clause.read_eq_ok_iff : Clause.read s = .ok c ↔ c.Grammatical ∧ Spells c.asTokens s.toList := by
  rw [read_eq_ok_iff_readAtoms, readAtoms_eq_ok_iff fun _ => namesApart_of_leads_clause,
    Clause.grammatical_iff]
  simp only [Reading.leads_clause_iff]
  constructor
  · rintro ⟨ts, hspells, hnames, hdenoted, rfl⟩
    exact ⟨⟨hdenoted, hnames⟩, hspells⟩
  · rintro ⟨⟨hdenoted, hnames⟩, hspells⟩
    exact ⟨_, hspells, hnames, hdenoted, rfl⟩

/-! ### Well-formed names -/

/-- The name of a predicate is a name that starts with a small letter. -/
theorem isPredicateName_iff {p : String} : isPredicateName p = true ↔
    IsName p.toList ∧ ∃ c cs, p.toList = c :: cs ∧ c.isLower = true := by
  unfold isPredicateName IsName
  cases p.toList with
  | nil => simp
  | cons c cs =>
    have hchar : c.isLower = true → isNameChar c = true := fun h =>
      isNameChar_of_isAlpha (isAlpha_of_isLower h)
    simp only [Bool.and_eq_true, List.all_eq_true, List.forall_mem_cons]
    constructor
    · rintro ⟨hlower, hcs⟩
      exact ⟨⟨List.cons_ne_nil c cs, hchar hlower, hcs⟩, c, cs, rfl, hlower⟩
    · rintro ⟨⟨-, -, hcs⟩, _, _, ⟨⟩, hlower⟩
      exact ⟨hlower, hcs⟩

/-- Of the characters of names, small letters and digits are those that start no variable. -/
theorem startsConstant_iff {d : Char} (hd : isNameChar d = true) :
    (d.isLower = true ∨ d.isDigit = true) ↔ ¬ (d.isUpper = true ∨ d = '_') := by
  rw [isNameChar_iff, isAlpha_iff] at hd
  constructor
  · rintro h (hupper | rfl)
    · rw [isLower_iff, isDigit_iff] at h
      rw [isUpper_iff] at hupper
      omega
    · revert h
      decide
  · intro h
    obtain ((hupper | hlower) | hdigit) | rfl := hd
    · exact absurd (Or.inl hupper) h
    · exact Or.inl hlower
    · exact Or.inr hdigit
    · exact absurd (Or.inr rfl) h

/-- The name of a constant is a name that starts no variable. -/
theorem isConstantName_iff {n : String} :
    isConstantName n = true ↔ IsName n.toList ∧ startsVariable n = false := by
  unfold isConstantName startsVariable IsName
  cases n.toList with
  | nil => simp
  | cons d ds =>
    have hstart : isNameChar d = true →
        ((d.isLower || d.isDigit) = true ↔ (d.isUpper || d == '_') = false) := by
      intro hd
      simpa using startsConstant_iff hd
    have hchar : (d.isLower || d.isDigit) = true → isNameChar d = true := by
      rw [Bool.or_eq_true, isNameChar_iff]
      exact fun h => Or.inl (h.imp_left isAlpha_of_isLower)
    simp only [Bool.and_eq_true, List.all_eq_true, List.forall_mem_cons]
    constructor
    · rintro ⟨hd, hds⟩
      exact ⟨⟨List.cons_ne_nil d ds, hchar hd, hds⟩, (hstart (hchar hd)).mp hd⟩
    · rintro ⟨⟨-, hd, hds⟩, hnot⟩
      exact ⟨(hstart hd).mpr hnot, hds⟩

/-- The name of a variable is a name that starts one. -/
theorem isVariableName_iff {n : String} :
    isVariableName n = true ↔ IsName n.toList ∧ startsVariable n = true := by
  have hne : startsVariable n = true → n.toList ≠ [] := by
    intro h hnil
    rw [startsVariable, hnil] at h
    cases h
  unfold isVariableName IsName
  rw [Bool.and_eq_true, List.all_eq_true]
  constructor
  · rintro ⟨hstart, hall⟩
    exact ⟨⟨hne hstart, hall⟩, hstart⟩
  · rintro ⟨⟨-, hall⟩, hstart⟩
    exact ⟨hstart, hall⟩

theorem Term.validate_var {n : String} : (Term.var n).validate = .ok () ↔ isVariableName n = true := by
  unfold Term.validate
  by_cases h : isVariableName n = true <;> simp [h]

/-- **A term is well formed** if it is grammatical. -/
theorem Term.validate_eq_ok_iff {t : Term String} : t.validate = .ok () ↔ t.Grammatical := by
  rw [Term.grammatical_iff]
  cases t with
  | const n =>
    rw [Term.validate_const, isConstantName_iff]
    refine and_congr_right fun _ => ?_
    show startsVariable n = false ↔ const n = if startsVariable n then var n else const n
    cases startsVariable n <;> simp
  | var n =>
    rw [Term.validate_var, isVariableName_iff]
    refine and_congr_right fun _ => ?_
    show startsVariable n = true ↔ var n = if startsVariable n then var n else const n
    cases startsVariable n <;> simp

/-- **An atom is well formed** if it is grammatical and its predicate starts with a small letter. -/
theorem Atom.validate_iff_grammatical : a.validate = .ok () ↔
    a.Grammatical ∧ ∃ c cs, a.predicate.toList = c :: cs ∧ c.isLower = true := by
  rw [Atom.validate_eq_ok_iff, isPredicateName_iff]
  simp only [Term.validate_eq_ok_iff]
  constructor
  · rintro ⟨⟨hname, hlower⟩, hne, hargs⟩
    exact ⟨⟨hname, hne, hargs⟩, hlower⟩
  · rintro ⟨⟨hname, hne, hargs⟩, hlower⟩
    exact ⟨⟨hname, hlower⟩, hne, hargs⟩

/-- A goal is read as one atom, and then checked. -/
theorem Atom.read_eq_ok_iff_readAtoms :
    Atom.read s = .ok a ↔ a.validate = .ok () ∧ readAtoms .goal s = .ok [a] := by
  unfold Atom.read
  cases hread : readAtoms .goal s with
  | error e => simp [throw, throwThe, MonadExceptOf.throw]
  | ok atoms =>
    cases atoms with
    | nil => simp [throw, throwThe, MonadExceptOf.throw]
    | cons b as =>
      obtain ⟨ts, -, -, hleads⟩ := (readAtoms_eq_ok_iff fun _ => namesApart_of_leads_goal).mp hread
      obtain ⟨rfl, -⟩ := Reading.leads_goal_iff.mp hleads
      show (b.validate >>= fun _ => pure b) = .ok a ↔ _
      cases hvalid : b.validate with
      | error e =>
        simp only [bind, Except.bind, reduceCtorEq, Except.ok.injEq, List.cons.injEq, and_true,
          false_iff, not_and]
        rintro ha rfl
        rw [hvalid] at ha
        cases ha
      | ok u =>
        simp only [bind, Except.bind, pure, Except.pure, Except.ok.injEq, List.cons.injEq, and_true,
          iff_and_self]
        rintro rfl
        exact hvalid

/-- **A text reads as an atom** if it spells the atom, with a stop or without, and the atom is
grammatical and its predicate starts with a small letter. -/
theorem Atom.read_eq_ok_iff : Atom.read s = .ok a ↔
    (a.Grammatical ∧ ∃ c cs, a.predicate.toList = c :: cs ∧ c.isLower = true) ∧
      (Spells a.asTokens s.toList ∨ Spells (a.asTokens ++ [.stop]) s.toList) := by
  rw [read_eq_ok_iff_readAtoms, Atom.validate_iff_grammatical,
    readAtoms_eq_ok_iff fun _ => namesApart_of_leads_goal]
  simp only [Reading.leads_goal_iff, true_and]
  refine and_congr_right fun hwellFormed => ?_
  obtain ⟨hdenoted, hnames⟩ := Atom.grammatical_iff.mp hwellFormed.1
  constructor
  · rintro ⟨ts, hspells, -, -, rfl | rfl⟩
    · exact Or.inl hspells
    · exact Or.inr hspells
  · rintro (hspells | hspells)
    · exact ⟨_, hspells, hnames, hdenoted, Or.inl rfl⟩
    · refine ⟨_, hspells, fun n hn => hnames n ?_, hdenoted, Or.inr rfl⟩
      simpa using hn

/-- **Texts are read exactly as the grammar has them.** A text reads as a clause if it spells the
clause's tokens and the clause is grammatical. A text reads as an atom if it spells the atom's tokens,
with a stop or without, and the atom is grammatical and its predicate starts with a small letter. -/
theorem read_iff_grammatical :
    (∀ (s : String) (c : Clause String),
      Clause.read s = .ok c ↔ c.Grammatical ∧ Spells c.asTokens s.toList) ∧
    ∀ (s : String) (a : Atom String), Atom.read s = .ok a ↔
      (a.Grammatical ∧ ∃ c cs, a.predicate.toList = c :: cs ∧ c.isLower = true) ∧
        (Spells a.asTokens s.toList ∨ Spells (a.asTokens ++ [.stop]) s.toList) :=
  ⟨fun _ _ => Clause.read_eq_ok_iff, fun _ _ => Atom.read_eq_ok_iff⟩

/-- Blanks may stand around tokens, but not in one. -/
example : Clause.read " near( X,Y )\n:-near(Y , X) ." =
      .ok ⟨⟨"near", [.var "X", .var "Y"]⟩, [⟨"near", [.var "Y", .var "X"]⟩]⟩ ∧
    (Clause.read "near(X, Y) : - near(Y, X).").isOk = false := by
  decide +kernel

end HornReasoner
