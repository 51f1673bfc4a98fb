/-
# A fault shows where no reading goes on

A reader that has accepted some tokens can always be brought to an end: from each of its
stages on, a few tokens complete the text (`Reading.leads_completion`). So what stands before
a fault can be completed, after a blank (`exists_reads_of_foldlM`). The token at the fault
cannot be read there, whatever follows it; as a name it may grow by what follows, but names
are read alike (`Reading.exists_step_name`, `not_reads_of_step`). And a text that does not
tokenise has its fault where finding tokens stops.

Together: a reported position is the first at which a text that was accepted so far cannot be
read on (`pointsAtFault_of_readAtoms`, `syntaxErrors_pointAtFaults`).

Key definitions: `Reading.completion`, `FaultBetween`, `PointsAtFault`.
Key theorems: `exists_reads_of_foldlM`, `not_reads_of_step`, `syntaxErrors_pointAtFaults`.
-/
import HornReasoner.Proofs.Logic.Checking
import HornReasoner.Proofs.Logic.Cutting

namespace HornReasoner

variable {form : Form} {s : String} {before rest : List Char} {t : Token} {e : SyntaxError}

/-! ### Readings that go on -/

namespace Reading

variable {r r' : Reading} {ts us : List Token} {ps : List (Nat × Token)} {atoms : List (Atom String)}
  {size : Nat} {fault : Fault}

/-- Tokens that bring a reading to an end. -/
def completion (r : Reading) : List Token :=
  match r.stage with
  | .predicate => [.name ['p'], .opening, .name ['a'], .closing, .stop]
  | .opening _ => [.opening, .name ['a'], .closing, .stop]
  | .argument _ _ => [.name ['a'], .closing, .stop]
  | .closing _ _ => [.closing, .stop]
  | .between => [.stop]
  | .finished => []

/-- **Each reading can be completed.** -/
theorem leads_completion (form : Form) (r : Reading) : ∃ atoms, Leads form r r.completion atoms := by
  obtain ⟨as, stage⟩ := r
  cases stage <;> cases form <;> exact ⟨_, _, rfl, rfl⟩

theorem isName_of_mem_completion (r : Reading) : ∀ n, .name n ∈ r.completion → IsName n := by
  obtain ⟨as, stage⟩ := r
  have hname : ∀ c : Char, isNameChar c = true → IsName [c] := fun c hc =>
    ⟨List.cons_ne_nil c [], List.forall_mem_singleton.mpr hc⟩
  intro n hn
  cases stage <;> simp [completion] at hn
  · rcases hn with rfl | rfl
    · exact hname 'p' rfl
    · exact hname 'a' rfl
  · exact hn ▸ hname 'a' rfl
  · exact hn ▸ hname 'a' rfl

theorem namesApart_completion (r : Reading) : NamesApart r.completion := by
  obtain ⟨as, stage⟩ := r
  cases stage <;> simp [completion, NamesApart, Token.IsMark]

theorem leads_append : Leads form r (ts ++ us) atoms ↔
    ∃ r', ts.foldlM (step form) r = .ok r' ∧ Leads form r' us atoms := by
  unfold Leads
  rw [List.foldlM_append]
  cases ts.foldlM (step form) r with
  | error fault => simp [bind, Except.bind]
  | ok r' => simp [bind, Except.bind]

/-- **A run that fails** has read the tokens up to its fault, which is the end of the text or a token
that cannot be read. -/
theorem exists_of_run_eq_error (h : run form size r ps = .error e) :
    ∃ qs r', (qs.map Prod.snd).foldlM (step form) r = .ok r' ∧ ((ps = qs ∧ e.offset = size) ∨
      ∃ t rest fault, ps = qs ++ (e.offset, t) :: rest ∧ r'.step form t = .error fault) := by
  induction ps generalizing r with
  | nil =>
    refine ⟨[], r, rfl, Or.inl ⟨rfl, ?_⟩⟩
    rw [run] at h
    cases hend : r.atEnd form with
    | error fault =>
      rw [hend] at h
      cases h
      rfl
    | ok atoms =>
      rw [hend] at h
      cases h
  | cons p ps ih =>
    obtain ⟨offset, t⟩ := p
    rw [run] at h
    cases hstep : r.step form t with
    | error fault =>
      rw [hstep] at h
      cases h
      exact ⟨[], r, rfl, Or.inr ⟨t, ps, fault, rfl, hstep⟩⟩
    | ok r₁ =>
      rw [hstep] at h
      obtain ⟨qs, r', hfold, hcases⟩ := ih h
      refine ⟨(offset, t) :: qs, r', ?_, ?_⟩
      · rw [List.map_cons, List.foldlM_cons, hstep]
        exact hfold
      · obtain ⟨rfl, hsize⟩ | ⟨u, rest, fault, rfl, hu⟩ := hcases
        · exact Or.inl ⟨rfl, hsize⟩
        · exact Or.inr ⟨u, rest, fault, rfl, hu⟩

/-- Where one name cannot be read, no name can. -/
theorem exists_step_name {n : List Char} (h : r.step form (.name n) = .error fault) (m : List Char) :
    ∃ fault, r.step form (.name m) = .error fault := by
  obtain ⟨as, stage⟩ := r
  cases stage with
  | predicate => cases h
  | argument p args => cases h
  | between => cases form <;> exact ⟨_, rfl⟩
  | _ => exact ⟨_, rfl⟩

end Reading

/-! ### Texts that go on -/

/-- The text is read in a form. -/
def Reads (form : Form) (s : String) : Prop :=
  ∃ atoms, readAtoms form s = .ok atoms

theorem reads_iff : Reads form s ↔
    ∃ ps atoms, Lexes 0 s.toList ps ∧ Reading.Leads form .start (ps.map Prod.snd) atoms := by
  unfold Reads
  simp only [readAtoms_eq_ok_iff_tokens, tokens_eq_ok_iff]
  exact exists_comm

theorem spells_flatMap : ∀ ts : List Token, Spells ts (ts.flatMap Token.spelling)
  | [] => .gap isGap_nil
  | t :: ts => (spells_flatMap ts).next t

variable {r : Reading} {ps : List (Nat × Token)} {fault : Fault}

/-- **What was read so far can be completed.** A blank keeps a name at its end from growing. -/
theorem exists_reads_of_foldlM (hps : Lexes 0 before ps)
    (hfold : (ps.map Prod.snd).foldlM (Reading.step form) .start = .ok r) :
    ∃ more, Reads form (String.ofList before ++ more) := by
  have hspells : Spells r.completion (' ' :: r.completion.flatMap Token.spelling) :=
    (spells_flatMap r.completion).blank rfl
  obtain ⟨qs, hqs, hcompletion⟩ := exists_tokens hspells r.isName_of_mem_completion
    r.namesApart_completion (0 + String.utf8Len before)
  have hapart : Apart before (' ' :: r.completion.flatMap Token.spelling) := by
    refine Or.inr ?_
    rintro _ ⟨⟩
    rfl
  obtain ⟨atoms, hleads⟩ := r.leads_completion form
  refine ⟨String.ofList (' ' :: r.completion.flatMap Token.spelling), reads_iff.mpr ⟨ps ++ qs, atoms, ?_, ?_⟩⟩
  · rw [String.toList_append, String.toList_ofList, String.toList_ofList]
    exact hps.append hapart (lexes_of_tokens hqs)
  · rw [List.map_append, hcompletion]
    exact Reading.leads_append.mpr ⟨r, hfold, hleads⟩

/-- **A token that cannot be read** is never read there, whatever follows it. -/
theorem not_reads_of_step (hps : Lexes 0 before ps)
    (hfold : (ps.map Prod.snd).foldlM (Reading.step form) .start = .ok r)
    (hstep : r.step form t = .error fault) (hstands : t.StandsBetween before rest) (more : String) :
    ¬ Reads form (String.ofList before ++ String.ofList t.spelling ++ more) := by
  intro hreads
  obtain ⟨us, atoms, hus, hleads⟩ := reads_iff.mp hreads
  rw [String.toList_append, String.toList_append, String.toList_ofList, String.toList_ofList,
    List.append_assoc] at hus
  -- the next token is the one at the fault, or a name that starts with it
  have hnext : ∃ u qs, us = ps ++ (0 + String.utf8Len before, u) :: qs ∧
      ∃ fault, r.step form u = .error fault := by
    obtain hmark | ⟨n, rfl, hn, hbefore, -⟩ := hstands
    · have hapart : Apart before (t.spelling ++ more.toList) := by
        refine Or.inr ?_
        cases t with
        | name n => exact absurd rfl (hmark n)
        | _ =>
          rintro _ ⟨⟩
          rfl
      obtain ⟨qs, rfl, hqs⟩ := hps.exists_of_append hapart hus
      obtain ⟨qs, rfl⟩ := hqs.exists_mark hmark
      exact ⟨t, qs, rfl, fault, hstep⟩
    · obtain ⟨qs, rfl, hqs⟩ := hps.exists_of_append (Or.inl hbefore) hus
      obtain ⟨c, n, rfl⟩ := List.exists_cons_of_ne_nil hn.1
      obtain ⟨m, qs, rfl⟩ := hqs.exists_name (hn.2 c List.mem_cons_self)
      exact ⟨.name m, qs, rfl, Reading.exists_step_name hstep m⟩
  obtain ⟨u, qs, rfl, fault', hu⟩ := hnext
  rw [List.map_append, Reading.leads_append] at hleads
  obtain ⟨r', hfold', hleads⟩ := hleads
  cases hfold.symm.trans hfold'
  obtain ⟨r₁, hr₁, -⟩ := Reading.leads_cons.mp hleads
  rw [hu] at hr₁
  cases hr₁

/-! ### Faults -/

/-- A text that is not accepted goes wrong between these two parts of it. If it tokenises, the first
part can be completed, and the second is empty or starts with a token with which it cannot. If it does
not, the second part starts with the first character that can neither start nor continue a token. -/
structure FaultBetween (Accepted : String → Prop) (before after : String) : Prop where
  viable : Tokenises (before ++ after).toList → ∃ more, Accepted (before ++ more)
  offending : Tokenises (before ++ after).toList → after = "" ∨
    ∃ (t : Token) (rest : List Char), after.toList = t.spelling ++ rest ∧ t.StandsBetween before.toList rest ∧
      ∀ more, ¬ Accepted (before ++ String.ofList t.spelling ++ more)
  stray : ¬ Tokenises (before ++ after).toList → Tokenises before.toList ∧
    ∃ c rest, after.toList = c :: rest ∧ Offends c rest

/-- The position is in the text, between two of its characters, and there the text goes wrong. -/
def PointsAtFault (Accepted : String → Prop) (s : String) (offset : Nat) : Prop :=
  offset ≤ s.utf8ByteSize ∧ ∃ before after, s = before ++ after ∧ offset = before.utf8ByteSize ∧
    FaultBetween Accepted before after

theorem pointsAtFault_of_cut {Accepted : String → Prop} {after : List Char} {offset : Nat}
    (hs : s.toList = before ++ after) (hoffset : offset = 0 + String.utf8Len before)
    (h : FaultBetween Accepted (String.ofList before) (String.ofList after)) :
    PointsAtFault Accepted s offset := by
  have htext : s = String.ofList before ++ String.ofList after := by
    rw [← String.ofList_append, ← hs, String.ofList_toList]
  have hsize : offset = (String.ofList before).utf8ByteSize := by
    rw [hoffset, Nat.zero_add, String.utf8ByteSize_ofList]
  refine ⟨?_, _, _, htext, hsize, h⟩
  rw [hsize, htext, String.utf8ByteSize_append]
  exact Nat.le_add_right _ _

/-- **A position that is reported** is that of a fault. -/
theorem pointsAtFault_of_readAtoms (h : readAtoms form s = .error e) :
    PointsAtFault (Reads form) s e.offset := by
  unfold readAtoms at h
  cases htokens : tokens 0 s.toList with
  | error e' =>
    rw [htokens] at h
    cases h
    have hnot : ¬ Tokenises s.toList := by
      intro htokenises
      obtain ⟨ps, hps⟩ := htokenises.exists_lexes 0
      rw [tokens_of_lexes hps] at htokens
      cases htokens
    obtain ⟨before, c, rest, hs, hoffset, hbefore, hoffends⟩ := stopsAt_of_tokens htokens
    refine pointsAtFault_of_cut hs hoffset ⟨?_, ?_, fun _ => ?_⟩
    · rw [← String.ofList_append, ← hs, String.toList_ofList]
      exact fun htokenises => absurd htokenises hnot
    · rw [← String.ofList_append, ← hs, String.toList_ofList]
      exact fun htokenises => absurd htokenises hnot
    · rw [String.toList_ofList, String.toList_ofList]
      exact ⟨tokenises_iff.mpr hbefore, c, rest, rfl, hoffends⟩
  | ok ps =>
    rw [htokens] at h
    have hps := lexes_of_tokens htokens
    have htokenises : ∀ {before after : List Char}, s.toList = before ++ after →
        Tokenises (String.ofList before ++ String.ofList after).toList := by
      intro before after hs
      rw [← String.ofList_append, ← hs, String.toList_ofList]
      exact tokenises_iff.mpr ⟨ps, hps⟩
    obtain ⟨qs, r, hfold, ⟨rfl, hsize⟩ | ⟨t, left, fault, rfl, hstep⟩⟩ := Reading.exists_of_run_eq_error h
    · have hs : s.toList = s.toList ++ [] := (List.append_nil _).symm
      have hoffset : e.offset = 0 + String.utf8Len s.toList := by
        rw [hsize, Nat.zero_add, ← String.utf8ByteSize_ofList, String.ofList_toList]
      exact pointsAtFault_of_cut hs hoffset ⟨fun _ => exists_reads_of_foldlM hps hfold,
        fun _ => Or.inl rfl, fun hnot => absurd (htokenises hs) hnot⟩
    · obtain ⟨before, rest, hs, hoffset, hqs, hstands⟩ := hps.exists_cut
      refine pointsAtFault_of_cut hs hoffset ⟨fun _ => exists_reads_of_foldlM hqs hfold,
        fun _ => Or.inr ⟨t, rest, ?_, ?_, not_reads_of_step hqs hfold hstep hstands⟩,
        fun hnot => absurd (htokenises hs) hnot⟩
      · rw [String.toList_ofList]
      · rwa [String.toList_ofList]

/-- **Syntax errors point at faults.** The position in the error of a text that does not read as a
clause, or as a goal, is in the text and between two of its characters. If the text tokenises, what
stands before the position can be completed to a text that reads, and the position is the end of the
text, or a token stands there with which it cannot. Otherwise the position is that of the first character
that can neither start nor continue a token. -/
theorem syntaxErrors_pointAtFaults :
    (∀ (s : String) (e : SyntaxError), Clause.read s = .error e →
      PointsAtFault (fun t => ∃ c, Clause.read t = .ok c) s e.offset) ∧
    ∀ (s : String) (e : SyntaxError), Atom.read s = .error (.unreadable e) →
      PointsAtFault (fun t => ∀ e', Atom.read t ≠ .error (.unreadable e')) s e.offset := by
  have hclause : (fun t => ∃ c, Clause.read t = .ok c) = Reads .clause := by
    funext t
    exact propext Clause.exists_read_iff
  have hgoal : (fun t => ∀ e', Atom.read t ≠ .error (.unreadable e')) = Reads .goal := by
    funext t
    refine propext ?_
    simp only [ne_eq, Atom.read_eq_unreadable_iff]
    unfold Reads
    cases readAtoms .goal t <;> simp
  constructor
  · intro s e h
    rw [hclause]
    exact pointsAtFault_of_readAtoms (Clause.read_eq_error_iff.mp h)
  · intro s e h
    rw [hgoal]
    exact pointsAtFault_of_readAtoms (Atom.read_eq_unreadable_iff.mp h)

/-- A wide blank counts as three bytes: the second name that stands where a stop is wanted is reported
behind it, and an atom that is not closed at its end. -/
theorem wideBlank_pointsAtFault :
    (Clause.read "near(X,\u3000Y) near(Y, X)." = .error ⟨13, .missing .stop (some (.name "near".toList))⟩ ∧
      PointsAtFault (fun t => ∃ c, Clause.read t = .ok c) "near(X,\u3000Y) near(Y, X)." 13) ∧
    Atom.read "near(X,\u3000Y" = .error (.unreadable ⟨11, .missing .closing none⟩) ∧
      PointsAtFault (fun t => ∀ e', Atom.read t ≠ .error (.unreadable e')) "near(X,\u3000Y" 11 := by
  have hclause : Clause.read "near(X,\u3000Y) near(Y, X)." =
      .error ⟨13, .missing .stop (some (.name "near".toList))⟩ := by decide +kernel
  have hgoal : Atom.read "near(X,\u3000Y" = .error (.unreadable ⟨11, .missing .closing none⟩) := by
    decide +kernel
  exact ⟨⟨hclause, syntaxErrors_pointAtFaults.1 _ _ hclause⟩, hgoal, syntaxErrors_pointAtFaults.2 _ _ hgoal⟩

end HornReasoner
