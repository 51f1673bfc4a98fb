/-
# Tokens and the texts that spell them

A text spells a row of tokens if it is their spellings one after another, with runs of
blanks before, between and after them (`Spells`). Finding the tokens of a text undoes
that. A text whose tokens are found spells them, and each name found is one
(`spells_of_tokens`); and a row of tokens in which no name follows another is found in
every text that spells it (`exists_tokens`). Two names in a row would need a blank
between them, for a name takes in all name characters that follow.

Key definitions: `IsGap`, `IsName`, `Token.spelling`, `Spells`, `Lexes`, `NamesApart`.
Key theorems: `tokens_eq_ok_iff`, `spells_of_tokens`, `exists_tokens`.
-/
import HornReasoner.Proofs.Logic.Names
import Mathlib.Data.List.Chain

namespace HornReasoner

/-- A run of blanks, which may be empty. -/
def IsGap (cs : List Char) : Prop := ∀ c ∈ cs, Text.isBlank c = true

/-- A run of name characters, which may not be empty. -/
def IsName (cs : List Char) : Prop := cs ≠ [] ∧ ∀ c ∈ cs, isNameChar c = true

namespace Token

/-- The characters that a token stands for. -/
def spelling : Token → List Char
  | name cs => cs
  | opening => ['(']
  | closing => [')']
  | comma => [',']
  | neck => [':', '-']
  | stop => ['.']

/-- The token is no name. -/
def IsMark (t : Token) : Prop := ∀ cs, t ≠ name cs

end Token

/-- The text is the tokens one after another, with gaps before, between and after them. -/
inductive Spells : List Token → List Char → Prop
  | gap {g : List Char} (hg : IsGap g) : Spells [] g
  | token {g cs : List Char} {t : Token} {ts : List Token} (hg : IsGap g) (h : Spells ts cs) :
      Spells (t :: ts) (g ++ t.spelling ++ cs)

variable {offset : Nat} {c : Char} {cs n : List Char} {t : Token} {ts : List Token}
  {ps : List (Nat × Token)}

theorem isGap_nil : IsGap [] := fun _ hc => absurd hc List.not_mem_nil

theorem Spells.blank (hc : Text.isBlank c = true) (h : Spells ts cs) : Spells ts (c :: cs) := by
  cases h with
  | gap hg => exact .gap (List.forall_mem_cons.mpr ⟨hc, hg⟩)
  | @token g _ _ _ hg h => exact .token (g := c :: g) (List.forall_mem_cons.mpr ⟨hc, hg⟩) h

/-- A token may stand right before the tokens that a text spells. -/
theorem Spells.next (t : Token) (h : Spells ts cs) : Spells (t :: ts) (t.spelling ++ cs) :=
  .token isGap_nil h

/-- Texts one after another spell their tokens one after another. -/
theorem Spells.append {us : List Token} {ds : List Char} (h : Spells ts cs) (h' : Spells us ds) :
    Spells (ts ++ us) (cs ++ ds) := by
  induction h with
  | @gap g hg =>
    induction g with
    | nil => exact h'
    | cons c g ih =>
      obtain ⟨hc, hg⟩ := List.forall_mem_cons.mp hg
      exact (ih hg).blank hc
  | token hg _ ih =>
    rw [List.append_assoc]
    exact .token hg ih

/-- A text that spells no name first starts with no name character. -/
theorem Spells.head_of_isMark (h : Spells ts cs) (hts : ∀ t ∈ ts.head?, t.IsMark) :
    ∀ d ∈ cs.head?, isNameChar d = false := by
  have hblank : ∀ {d : Char}, Text.isBlank d = true → isNameChar d = false := fun hd =>
    Bool.eq_false_iff.mpr fun hname => Bool.false_ne_true ((isBlank_of_isNameChar hname).symm.trans hd)
  cases h with
  | @gap g hg => exact fun d hd => hblank (hg d (List.mem_of_mem_head? hd))
  | @token g cs t ts hg h =>
    cases g with
    | cons d g =>
      intro _ hd
      cases hd
      exact hblank (hg d List.mem_cons_self)
    | nil =>
      have ht := hts t rfl
      cases t with
      | name n => exact absurd rfl (ht n)
      | _ =>
        intro _ hd
        cases hd
        rfl

/-! ### What is found in a text, character by character -/

/-- The tokens of a text that starts at a position: a blank is passed over, a name character joins the
name that follows it, and a mark is a token of its own. -/
inductive Lexes : Nat → List Char → List (Nat × Token) → Prop
  | done {offset : Nat} : Lexes offset [] []
  | blank {offset : Nat} {c : Char} {cs : List Char} {ps : List (Nat × Token)}
      (hc : Text.isBlank c = true) (h : Lexes (offset + c.utf8Size) cs ps) : Lexes offset (c :: cs) ps
  | letter {offset : Nat} {c : Char} {cs : List Char} {ps : List (Nat × Token)}
      (hc : isNameChar c = true) (h : Lexes (offset + 1) cs ps) :
      Lexes offset (c :: cs) (joinName offset c ps)
  | mark {offset : Nat} {t : Token} {cs : List Char} {ps : List (Nat × Token)} (ht : t.IsMark)
      (h : Lexes (offset + t.spelling.length) cs ps) :
      Lexes offset (t.spelling ++ cs) ((offset, t) :: ps)

theorem map_eq_ok {ε α β : Type} {f : α → β} {x : Except ε α} {b : β} (h : f <$> x = .ok b) :
    ∃ a, x = .ok a ∧ f a = b := by
  cases x with
  | error e => cases h
  | ok a => exact ⟨a, rfl, Except.ok.inj h⟩

theorem lexes_of_tokens (h : tokens offset cs = .ok ps) : Lexes offset cs ps := by
  fun_induction tokens offset cs generalizing ps with
  | case1 => cases h; exact .done
  | case2 offset cs ih =>
    obtain ⟨qs, hqs, rfl⟩ := map_eq_ok h
    exact .mark (t := .neck) nofun (ih hqs)
  | case3 offset c cs _ hc ih => exact .blank hc (ih h)
  | case4 offset c cs _ _ hc ih =>
    obtain ⟨qs, hqs, rfl⟩ := map_eq_ok h
    exact .letter hc (ih hqs)
  | case5 offset cs _ _ _ ih =>
    obtain ⟨qs, hqs, rfl⟩ := map_eq_ok h
    exact .mark (t := .opening) nofun (ih hqs)
  | case6 offset cs _ _ _ ih =>
    obtain ⟨qs, hqs, rfl⟩ := map_eq_ok h
    exact .mark (t := .closing) nofun (ih hqs)
  | case7 offset cs _ _ _ ih =>
    obtain ⟨qs, hqs, rfl⟩ := map_eq_ok h
    exact .mark (t := .comma) nofun (ih hqs)
  | case8 offset cs _ _ _ ih =>
    obtain ⟨qs, hqs, rfl⟩ := map_eq_ok h
    exact .mark (t := .stop) nofun (ih hqs)
  | case9 => cases h
  | case10 => cases h

theorem tokens_blank (hc : Text.isBlank c = true) :
    tokens offset (c :: cs) = tokens (offset + c.utf8Size) cs := by
  rw [tokens.eq_def]
  split
  · next heq => cases heq
  · next heq => cases heq; cases hc
  · next heq =>
    cases heq
    rw [if_pos hc]

theorem tokens_letter (hc : isNameChar c = true) :
    tokens offset (c :: cs) = joinName offset c <$> tokens (offset + 1) cs := by
  rw [tokens.eq_def]
  split
  · next heq => cases heq
  · next heq => cases heq; cases hc
  · next heq =>
    cases heq
    rw [isBlank_of_isNameChar hc, if_neg Bool.false_ne_true, if_pos hc]

theorem tokens_mark (ht : t.IsMark) : tokens offset (t.spelling ++ cs) =
    ((offset, t) :: ·) <$> tokens (offset + t.spelling.length) cs := by
  cases t with
  | name n => exact absurd rfl (ht n)
  | _ => rfl

theorem tokens_of_lexes (h : Lexes offset cs ps) : tokens offset cs = .ok ps := by
  induction h with
  | done => rfl
  | blank hc _ ih => rw [tokens_blank hc, ih]
  | letter hc _ ih =>
    rw [tokens_letter hc, ih]
    rfl
  | mark ht _ ih =>
    rw [tokens_mark ht, ih]
    rfl

/-- **Finding tokens** goes character by character. -/
theorem tokens_eq_ok_iff : tokens offset cs = .ok ps ↔ Lexes offset cs ps :=
  ⟨lexes_of_tokens, tokens_of_lexes⟩

/-! ### Every text spells the tokens found in it -/

/-- A name character joins a name that starts right after it, or is a name by itself. -/
theorem joinName_cases (offset : Nat) (c : Char) (ps : List (Nat × Token)) :
    (∃ n qs, ps = (offset + 1, .name n) :: qs ∧ joinName offset c ps = (offset, .name (c :: n)) :: qs) ∨
      ((∀ n qs, ps ≠ (offset + 1, .name n) :: qs) ∧ joinName offset c ps = (offset, .name [c]) :: ps) := by
  unfold joinName
  split
  · next o n qs =>
    by_cases ho : o = offset + 1
    · subst ho
      rw [if_pos rfl]
      exact Or.inl ⟨n, qs, rfl, rfl⟩
    · rw [if_neg ho]
      refine Or.inr ⟨?_, rfl⟩
      rintro _ _ ⟨⟩
      exact ho rfl
  · next hps => exact Or.inr ⟨fun n qs h => hps _ n qs h, rfl⟩

/-- No token stands before its text. -/
theorem Lexes.le (h : Lexes offset cs ps) : ∀ p ∈ ps, offset ≤ p.1 := by
  induction h with
  | done => exact fun _ hp => absurd hp List.not_mem_nil
  | blank _ _ ih => exact fun p hp => Nat.le_trans (Nat.le_add_right _ _) (ih p hp)
  | @letter offset c cs ps _ _ ih =>
    have hps : ∀ p ∈ ps, offset ≤ p.1 := fun p hp => Nat.le_trans (Nat.le_add_right _ _) (ih p hp)
    obtain ⟨n, qs, rfl, hjoin⟩ | ⟨-, hjoin⟩ := joinName_cases offset c ps
    · rw [hjoin]
      exact List.forall_mem_cons.mpr ⟨Nat.le_refl _, (List.forall_mem_cons.mp hps).2⟩
    · rw [hjoin]
      exact List.forall_mem_cons.mpr ⟨Nat.le_refl _, hps⟩
  | mark _ _ ih =>
    exact List.forall_mem_cons.mpr
      ⟨Nat.le_refl _, fun p hp => Nat.le_trans (Nat.le_add_right _ _) (ih p hp)⟩

/-- Only names are found as names. -/
theorem Lexes.isName (h : Lexes offset cs ps) : ∀ n, .name n ∈ ps.map Prod.snd → IsName n := by
  induction h with
  | done => exact fun _ hn => absurd hn List.not_mem_nil
  | blank _ _ ih => exact ih
  | @letter offset c cs ps hc _ ih =>
    intro m hm
    obtain ⟨n, qs, rfl, hjoin⟩ | ⟨-, hjoin⟩ := joinName_cases offset c ps
    · rw [hjoin] at hm
      rcases List.mem_cons.mp hm with hm | hm
      · cases hm
        exact ⟨List.cons_ne_nil c n, List.forall_mem_cons.mpr ⟨hc, (ih n List.mem_cons_self).2⟩⟩
      · exact ih m (List.mem_cons_of_mem _ hm)
    · rw [hjoin] at hm
      rcases List.mem_cons.mp hm with hm | hm
      · cases hm
        exact ⟨List.cons_ne_nil c [], List.forall_mem_singleton.mpr hc⟩
      · exact ih m hm
  | mark ht _ ih =>
    intro m hm
    rcases List.mem_cons.mp hm with hm | hm
    · exact absurd hm.symm (ht m)
    · exact ih m hm

/-- A text spells the tokens found in it, and one found at its start is spelled there. -/
theorem Lexes.spells (h : Lexes offset cs ps) : Spells (ps.map Prod.snd) cs ∧
    ∀ t qs, ps = (offset, t) :: qs → ∃ rest, cs = t.spelling ++ rest ∧ Spells (qs.map Prod.snd) rest := by
  induction h with
  | done => exact ⟨.gap isGap_nil, nofun⟩
  | @blank offset c cs ps hc h ih =>
    refine ⟨ih.1.blank hc, ?_⟩
    rintro t qs rfl
    have hle : offset + c.utf8Size ≤ offset := h.le _ List.mem_cons_self
    have hsize := c.utf8Size_pos
    omega
  | @letter offset c cs ps hc h ih =>
    obtain ⟨n, qs, rfl, hjoin⟩ | ⟨-, hjoin⟩ := joinName_cases offset c ps
    · -- the name that starts right after the character is spelled right after it
      obtain ⟨rest, rfl, hrest⟩ := ih.2 _ _ rfl
      rw [hjoin]
      refine ⟨hrest.next (.name (c :: n)), ?_⟩
      rintro _ _ ⟨⟩
      exact ⟨rest, rfl, hrest⟩
    · rw [hjoin]
      refine ⟨ih.1.next (.name [c]), ?_⟩
      rintro _ _ ⟨⟩
      exact ⟨cs, rfl, ih.1⟩
  | @mark offset t cs ps ht h ih =>
    refine ⟨ih.1.next t, ?_⟩
    rintro _ _ ⟨⟩
    exact ⟨cs, rfl, ih.1⟩

/-- **A text spells what is found in it.** -/
theorem spells_of_tokens (h : tokens offset cs = .ok ps) :
    Spells (ps.map Prod.snd) cs ∧ ∀ n, .name n ∈ ps.map Prod.snd → IsName n :=
  have hlexes := tokens_eq_ok_iff.mp h
  ⟨hlexes.spells.1, hlexes.isName⟩

/-! ### What a text spells is found in it -/

/-- No name follows another. -/
def NamesApart (ts : List Token) : Prop :=
  ts.IsChain fun t u => t.IsMark ∨ u.IsMark

theorem Lexes.gap {g : List Char} (hg : IsGap g) (h : ∀ offset, ∃ ps, Lexes offset cs ps ∧ ps.map Prod.snd = ts) :
    ∀ offset, ∃ ps, Lexes offset (g ++ cs) ps ∧ ps.map Prod.snd = ts := by
  induction g with
  | nil => exact h
  | cons c g ih =>
    obtain ⟨hc, hg⟩ := List.forall_mem_cons.mp hg
    intro offset
    obtain ⟨ps, hps, hts⟩ := ih hg (offset + c.utf8Size)
    exact ⟨ps, .blank hc hps, hts⟩

/-- Where no name character stands, no name starts. -/
theorem Lexes.ne_name (h : Lexes offset cs ps) (hcs : ∀ d ∈ cs.head?, isNameChar d = false) :
    ∀ n qs, ps ≠ (offset, .name n) :: qs := by
  rintro n qs rfl
  obtain ⟨rest, rfl, -⟩ := h.spells.2 _ _ rfl
  obtain ⟨hne, hn⟩ := h.isName n List.mem_cons_self
  cases n with
  | nil => exact hne rfl
  | cons d n => exact Bool.false_ne_true ((hcs d rfl).symm.trans (hn d List.mem_cons_self))

/-- A name is found as a whole where no name character follows it. -/
theorem Lexes.name (hn : IsName n) (hcs : ∀ d ∈ cs.head?, isNameChar d = false)
    (h : Lexes (offset + n.length) cs ps) : Lexes offset (n ++ cs) ((offset, .name n) :: ps) := by
  induction n generalizing offset with
  | nil => exact absurd rfl hn.1
  | cons c n ih =>
    obtain ⟨hc, hchars⟩ := List.forall_mem_cons.mp hn.2
    cases n with
    | nil =>
      have hjoin : joinName offset c ps = (offset, .name [c]) :: ps := by
        obtain ⟨n, qs, rfl, -⟩ | ⟨-, hjoin⟩ := joinName_cases offset c ps
        · exact absurd rfl (h.ne_name hcs n qs)
        · exact hjoin
      exact hjoin ▸ .letter hc h
    | cons d n =>
      have hrest : Lexes (offset + 1) ((d :: n) ++ cs) ((offset + 1, .name (d :: n)) :: ps) := by
        refine ih ⟨List.cons_ne_nil d n, hchars⟩ ?_
        rwa [Nat.add_assoc, Nat.add_comm 1]
      have hjoin : joinName offset c ((offset + 1, .name (d :: n)) :: ps) =
          (offset, .name (c :: d :: n)) :: ps := if_pos rfl
      exact hjoin ▸ .letter hc hrest

/-- **What a text spells is found in it**, if no name follows another. -/
theorem exists_tokens (h : Spells ts cs) (hnames : ∀ n, .name n ∈ ts → IsName n) (hapart : NamesApart ts)
    (offset : Nat) : ∃ ps, tokens offset cs = .ok ps ∧ ps.map Prod.snd = ts := by
  simp only [tokens_eq_ok_iff]
  induction h generalizing offset with
  | @gap g hg =>
    have hempty : ∀ o, ∃ ps, Lexes o [] ps ∧ ps.map Prod.snd = [] := fun _ => ⟨[], .done, rfl⟩
    have hgap := Lexes.gap hg hempty offset
    rwa [List.append_nil] at hgap
  | @token g cs t ts hg h ih =>
    rw [List.append_assoc]
    refine Lexes.gap hg (fun offset => ?_) offset
    obtain ⟨ps, hps, hts⟩ := ih (fun n hn => hnames n (List.mem_cons_of_mem _ hn)) hapart.tail
      (offset + t.spelling.length)
    refine ⟨(offset, t) :: ps, ?_, congrArg (t :: ·) hts⟩
    by_cases ht : t.IsMark
    · exact .mark ht hps
    · -- the next token is a mark, so the name ends where it is spelled to end
      have hnext : ∀ u ∈ ts.head?, u.IsMark := fun u hu =>
        ((List.isChain_cons.mp hapart).1 u hu).resolve_left ht
      obtain ⟨n, rfl⟩ : ∃ n, t = .name n := by
        simpa [Token.IsMark] using ht
      exact .name (hnames n List.mem_cons_self) (h.head_of_isMark hnext) hps

end HornReasoner
