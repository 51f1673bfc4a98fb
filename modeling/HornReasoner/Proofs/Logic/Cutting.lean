/-
# Texts cut between tokens

Where a text is cut between two tokens, the tokens of the first part are found first and
those of the second after them (`tokens_append`). A cut is between tokens unless it has
name characters on both sides (`Apart`). The other way round, a text can be cut where one
of its tokens starts, and the tokens before that one are those of the first part
(`Lexes.exists_cut`).

A text tokenises if it spells some tokens (`tokenises_iff`). One that does not has a first
character that can neither start nor continue a token, and that is where finding tokens
stops (`stopsAt_of_tokens`).

Key definitions: `Tokenises`, `Offends`, `Apart`, `Token.StandsBetween`, `StopsAt`.
Key theorems: `tokens_append`, `Lexes.exists_cut`, `tokenises_iff`, `stopsAt_of_tokens`.
-/
import HornReasoner.Proofs.Logic.Spelling
import Mathlib.Data.String.Basic

namespace HornReasoner

variable {offset o : Nat} {c : Char} {cs before after : List Char} {t : Token}
  {ps qs us : List (Nat × Token)} {e : SyntaxError}

/-- Every character is a blank or belongs to a token. -/
def Tokenises (cs : List Char) : Prop :=
  ∃ ts, Spells ts cs ∧ ∀ n, .name n ∈ ts → IsName n

/-- The character, with these after it, can neither start nor continue a token. A colon is one unless
a dash follows it. -/
structure Offends (c : Char) (rest : List Char) : Prop where
  not_blank : Text.isBlank c = false
  not_name : isNameChar c = false
  not_mark : ∀ t : Token, t.IsMark → ¬ t.spelling <+: c :: rest

/-- A text may be cut here: no name goes on over the cut. -/
def Apart (before after : List Char) : Prop :=
  (∀ c ∈ before.getLast?, isNameChar c = false) ∨ ∀ c ∈ after.head?, isNameChar c = false

/-- The token starts and ends between these texts: a mark does, and so does a name next to which no
name character stands. -/
def Token.StandsBetween (t : Token) (before after : List Char) : Prop :=
  t.IsMark ∨ ∃ n, t = .name n ∧ IsName n ∧ (∀ c ∈ before.getLast?, isNameChar c = false) ∧
    ∀ c ∈ after.head?, isNameChar c = false

/-! ### Sizes -/

theorem utf8Size_of_isNameChar (h : isNameChar c = true) : c.utf8Size = 1 := by
  rw [isNameChar_iff, isAlpha_iff, isUpper_iff, isLower_iff, isDigit_iff] at h
  rw [Char.utf8Size_eq_one_iff, UInt32.le_iff_toNat_le, Char.toNat_val]
  rcases h with h | rfl
  · show c.toNat ≤ 127
    omega
  · decide

theorem utf8Len_mark (ht : t.IsMark) : String.utf8Len t.spelling = t.spelling.length := by
  cases t with
  | name n => exact absurd rfl (ht n)
  | _ => rfl

/-! ### Two texts one after another -/

theorem Apart.tail (h : Apart (c :: cs) after) : Apart cs after := by
  refine h.imp_left fun hlast d hd => hlast d ?_
  rw [List.getLast?_cons, Option.mem_def.mp hd]
  rfl

/-- A text that starts with a name character has a name first. -/
theorem Lexes.exists_name (h : Lexes offset (c :: cs) ps) (hc : isNameChar c = true) :
    ∃ n qs, ps = (offset, .name n) :: qs := by
  have htokens := tokens_of_lexes h
  rw [tokens_letter hc] at htokens
  obtain ⟨us, -, rfl⟩ := map_eq_ok htokens
  obtain ⟨n, qs, -, hjoin⟩ | ⟨-, hjoin⟩ := joinName_cases offset c us
  · exact ⟨_, _, hjoin⟩
  · exact ⟨_, _, hjoin⟩

/-- A text that starts with a mark has it first. -/
theorem Lexes.exists_mark (h : Lexes offset (t.spelling ++ cs) ps) (ht : t.IsMark) :
    ∃ qs, ps = (offset, t) :: qs := by
  have htokens := tokens_of_lexes h
  rw [tokens_mark ht] at htokens
  obtain ⟨qs, -, rfl⟩ := map_eq_ok htokens
  exact ⟨qs, rfl⟩

/-- A name character joins what follows it in the first text only. -/
theorem joinName_append (hps : Lexes (offset + 1) cs ps)
    (hqs : Lexes (offset + 1 + String.utf8Len cs) after qs) (hapart : Apart (c :: cs) after)
    (hc : isNameChar c = true) : joinName offset c (ps ++ qs) = joinName offset c ps ++ qs := by
  cases ps with
  | cons p ps =>
    obtain ⟨o, t⟩ := p
    cases t with
    | name n =>
      show (if o = offset + 1 then _ else _) = (if o = offset + 1 then _ else _) ++ qs
      split <;> rfl
    | _ => rfl
  | nil =>
    obtain ⟨n, us, hus, -⟩ | ⟨-, hjoin⟩ := joinName_cases offset c qs
    · -- the name would start right after the character, where the second text starts
      subst hus
      have hle := hqs.le _ List.mem_cons_self
      cases cs with
      | cons d cs =>
        have hsize := d.utf8Size_pos
        rw [String.utf8Len_cons] at hle
        dsimp only at hle
        omega
      | nil =>
        have hhead : ∀ d ∈ after.head?, isNameChar d = false := by
          refine hapart.resolve_left fun hlast => ?_
          exact Bool.false_ne_true ((hlast c rfl).symm.trans hc)
        exact absurd rfl (hqs.ne_name hhead n us)
    · exact hjoin

theorem map_append_eq {ε α : Type} {x : Except ε (List α)} :
    (([] : List α) ++ ·) <$> x = x := by
  cases x <;> rfl

/-- **The tokens of two texts one after another**, if a cut may be between them. -/
theorem tokens_append (h : Lexes offset before ps) (hapart : Apart before after) :
    tokens offset (before ++ after) = (ps ++ ·) <$> tokens (offset + String.utf8Len before) after := by
  induction h with
  | done => exact map_append_eq.symm
  | @blank offset c cs ps hc h ih =>
    rw [List.cons_append, tokens_blank hc, ih hapart.tail, String.utf8Len_cons, Nat.add_assoc,
      Nat.add_comm c.utf8Size]
  | @letter offset c cs ps hc h ih =>
    have hsize : offset + String.utf8Len (c :: cs) = offset + 1 + String.utf8Len cs := by
      rw [String.utf8Len_cons, utf8Size_of_isNameChar hc]
      omega
    rw [List.cons_append, tokens_letter hc, ih hapart.tail, hsize]
    cases hafter : tokens (offset + 1 + String.utf8Len cs) after with
    | error e => rfl
    | ok qs => exact congrArg Except.ok (joinName_append h (lexes_of_tokens hafter) hapart hc)
  | @mark offset t cs ps ht h ih =>
    have hsize : offset + String.utf8Len (t.spelling ++ cs) =
        offset + t.spelling.length + String.utf8Len cs := by
      rw [String.utf8Len_append, utf8Len_mark ht, Nat.add_assoc]
    have hapart : Apart cs after := by
      cases t with
      | name n => exact absurd rfl (ht n)
      | neck => exact hapart.tail.tail
      | _ => exact hapart.tail
    rw [List.append_assoc, tokens_mark ht, ih hapart, hsize]
    cases tokens (offset + t.spelling.length + String.utf8Len cs) after <;> rfl

theorem Lexes.append (h : Lexes offset before ps) (hapart : Apart before after)
    (h' : Lexes (offset + String.utf8Len before) after qs) : Lexes offset (before ++ after) (ps ++ qs) := by
  refine lexes_of_tokens ?_
  rw [tokens_append h hapart, tokens_of_lexes h']
  rfl

/-- The tokens of the first text come first. -/
theorem Lexes.exists_of_append (h : Lexes offset before ps) (hapart : Apart before after)
    (h' : Lexes offset (before ++ after) us) :
    ∃ qs, us = ps ++ qs ∧ Lexes (offset + String.utf8Len before) after qs := by
  have htokens := tokens_of_lexes h'
  rw [tokens_append h hapart] at htokens
  obtain ⟨qs, hqs, rfl⟩ := map_eq_ok htokens
  exact ⟨qs, rfl, lexes_of_tokens hqs⟩

/-! ### A token in a text -/

theorem Lexes.eq_nil (h : Lexes offset [] ps) : ps = [] :=
  (Except.ok.inj (tokens_of_lexes h)).symm

/-- A token stands after one more character, unless it is a name that the character would join. -/
theorem Token.StandsBetween.cons (h : t.StandsBetween before after)
    (hc : before = [] → t.IsMark ∨ isNameChar c = false) : t.StandsBetween (c :: before) after := by
  obtain hmark | ⟨n, rfl, hn, hbefore, hafter⟩ := h
  · exact Or.inl hmark
  · refine Or.inr ⟨n, rfl, hn, ?_, hafter⟩
    cases before with
    | nil =>
      rintro _ ⟨⟩
      exact (hc rfl).resolve_left fun hmark => hmark n rfl
    | cons d before => rwa [List.getLast?_cons_cons]

/-- A token stands after a mark. -/
theorem Token.StandsBetween.mark {u : Token} (h : t.StandsBetween before after) (hu : u.IsMark) :
    t.StandsBetween (u.spelling ++ before) after := by
  cases u with
  | name n => exact absurd rfl (hu n)
  | neck => exact (h.cons fun _ => Or.inr rfl).cons fun _ => Or.inr rfl
  | _ => exact h.cons fun _ => Or.inr rfl

/-- **A text can be cut where a token starts.** -/
theorem Lexes.exists_cut (h : Lexes offset cs (ps ++ (o, t) :: qs)) :
    ∃ before rest, cs = before ++ (t.spelling ++ rest) ∧ o = offset + String.utf8Len before ∧
      Lexes offset before ps ∧ t.StandsBetween before rest := by
  generalize hus : ps ++ (o, t) :: qs = us at h
  induction h generalizing ps o t with
  | done => simp at hus
  | @blank offset c cs us hc h ih =>
    obtain ⟨before, rest, rfl, rfl, hps, hstands⟩ := ih hus
    have hname : isNameChar c = false := Bool.eq_false_iff.mpr fun hname =>
      Bool.false_ne_true ((isBlank_of_isNameChar hname).symm.trans hc)
    refine ⟨c :: before, rest, rfl, ?_, .blank hc hps, hstands.cons fun _ => Or.inr hname⟩
    rw [String.utf8Len_cons]
    omega
  | @letter offset c cs us hc h ih =>
    have hsize : ∀ before : List Char,
        offset + 1 + String.utf8Len before = offset + String.utf8Len (c :: before) := by
      intro before
      rw [String.utf8Len_cons, utf8Size_of_isNameChar hc]
      omega
    obtain ⟨n, us', rfl, hjoin⟩ | ⟨hfirst, hjoin⟩ := joinName_cases offset c us
    · rw [hjoin] at hus
      cases ps with
      | nil =>
        -- the token is the name that the character joins
        obtain ⟨⟨rfl, rfl⟩, rfl⟩ : (o = offset ∧ t = .name (c :: n)) ∧ qs = us' := by simpa using hus
        obtain ⟨before, rest, rfl, ho, -, hstands⟩ := @ih _ _ [] rfl
        obtain rfl : before = [] := String.utf8Len_eq_zero.mp (by omega)
        obtain hmark | ⟨_, ⟨⟩, hn, -, hrest⟩ := hstands
        · exact absurd rfl (hmark n)
        · have hname : IsName (c :: n) := ⟨List.cons_ne_nil c n, List.forall_mem_cons.mpr ⟨hc, hn.2⟩⟩
          exact ⟨[], rest, rfl, rfl, .done, Or.inr ⟨_, rfl, hname, nofun, hrest⟩⟩
      | cons p ps =>
        obtain ⟨rfl, rfl⟩ : p = (offset, .name (c :: n)) ∧ us' = ps ++ (o, t) :: qs := by
          simpa [eq_comm] using hus
        obtain ⟨before, rest, rfl, rfl, hps, hstands⟩ := @ih _ _ ((offset + 1, .name n) :: ps) rfl
        refine ⟨c :: before, rest, rfl, hsize before, ?_, hstands.cons ?_⟩
        · have hletter := Lexes.letter hc hps
          rwa [show joinName offset c ((offset + 1, .name n) :: ps) = (offset, .name (c :: n)) :: ps from
            if_pos rfl] at hletter
        · rintro rfl
          cases hps.eq_nil
    · rw [hjoin] at hus
      cases ps with
      | nil =>
        obtain ⟨⟨rfl, rfl⟩, rfl⟩ : (o = offset ∧ t = .name [c]) ∧ qs = us := by simpa using hus
        have hname : IsName [c] := ⟨List.cons_ne_nil c [], List.forall_mem_singleton.mpr hc⟩
        refine ⟨[], cs, rfl, rfl, .done, Or.inr ⟨_, rfl, hname, nofun, ?_⟩⟩
        cases cs with
        | nil => exact nofun
        | cons d cs =>
          rintro _ ⟨⟩
          rw [Bool.eq_false_iff]
          intro hd
          obtain ⟨n, us, rfl⟩ := h.exists_name hd
          exact hfirst n us rfl
      | cons p ps =>
        obtain ⟨rfl, rfl⟩ : p = (offset, .name [c]) ∧ us = ps ++ (o, t) :: qs := by
          simpa [eq_comm] using hus
        obtain ⟨before, rest, rfl, rfl, hps, hstands⟩ := ih rfl
        refine ⟨c :: before, rest, rfl, hsize before, ?_, hstands.cons ?_⟩
        · obtain ⟨n, ps', rfl, -⟩ | ⟨-, hjoin'⟩ := joinName_cases offset c ps
          · exact absurd rfl (hfirst n _)
          · exact hjoin' ▸ .letter hc hps
        · rintro rfl
          obtain rfl := hps.eq_nil
          refine Or.inl fun n hn => hfirst n qs ?_
          rw [hn]
          rfl
  | @mark offset u cs us hu h ih =>
    cases ps with
    | nil =>
      obtain ⟨⟨rfl, rfl⟩, rfl⟩ : (o = offset ∧ t = u) ∧ qs = us := by simpa using hus
      exact ⟨[], cs, rfl, rfl, .done, Or.inl hu⟩
    | cons p ps =>
      obtain ⟨rfl, rfl⟩ : p = (offset, u) ∧ us = ps ++ (o, t) :: qs := by simpa [eq_comm] using hus
      obtain ⟨before, rest, rfl, rfl, hps, hstands⟩ := ih rfl
      refine ⟨u.spelling ++ before, rest, (List.append_assoc ..).symm, ?_, .mark hu hps, hstands.mark hu⟩
      rw [String.utf8Len_append, utf8Len_mark hu, Nat.add_assoc]

/-! ### Texts that do not tokenise -/

/-- Blanks and name characters may stand before a text with tokens. -/
theorem exists_lexes_append {g : List Char} (hg : ∀ c ∈ g, Text.isBlank c = true ∨ isNameChar c = true)
    (h : ∀ offset, ∃ ps, Lexes offset cs ps) : ∀ offset, ∃ ps, Lexes offset (g ++ cs) ps := by
  induction g with
  | nil => exact h
  | cons c g ih =>
    obtain ⟨hc, hg⟩ := List.forall_mem_cons.mp hg
    intro offset
    obtain hc | hc := hc
    · obtain ⟨ps, hps⟩ := ih hg (offset + c.utf8Size)
      exact ⟨ps, .blank hc hps⟩
    · obtain ⟨ps, hps⟩ := ih hg (offset + 1)
      exact ⟨_, .letter hc hps⟩

theorem Tokenises.exists_lexes (h : Tokenises cs) : ∀ offset, ∃ ps, Lexes offset cs ps := by
  obtain ⟨ts, hspells, hnames⟩ := h
  induction hspells with
  | @gap g hg =>
    have hend : ∀ offset, ∃ ps, Lexes offset [] ps := fun _ => ⟨[], .done⟩
    rw [← List.append_nil g]
    exact exists_lexes_append (fun c hc => Or.inl (hg c hc)) hend
  | @token g cs t ts hg _ ih =>
    have hrest := ih fun n hn => hnames n (List.mem_cons_of_mem _ hn)
    rw [List.append_assoc]
    refine exists_lexes_append (fun c hc => Or.inl (hg c hc)) ?_
    by_cases ht : t.IsMark
    · intro offset
      obtain ⟨ps, hps⟩ := hrest (offset + t.spelling.length)
      exact ⟨_, .mark ht hps⟩
    · obtain ⟨n, rfl⟩ : ∃ n, t = .name n := by
        simpa [Token.IsMark] using ht
      exact exists_lexes_append (fun c hc => Or.inr ((hnames n List.mem_cons_self).2 c hc)) hrest

/-- **A text tokenises** if tokens are found in it. -/
theorem tokenises_iff : Tokenises cs ↔ ∃ ps, Lexes offset cs ps := by
  constructor
  · exact fun h => h.exists_lexes offset
  · rintro ⟨ps, hps⟩
    exact ⟨_, spells_of_tokens (tokens_of_lexes hps)⟩

theorem map_eq_error {ε α β : Type} {f : α → β} {x : Except ε α} {e : ε} (h : f <$> x = .error e) :
    x = .error e := by
  cases x with
  | error e' =>
    cases h
    rfl
  | ok a => cases h

/-- In a text that starts at a position, the first character that can neither start nor continue a token
stands at another position. -/
def StopsAt (offset : Nat) (cs : List Char) (stop : Nat) : Prop :=
  ∃ before c rest, cs = before ++ c :: rest ∧ stop = offset + String.utf8Len before ∧
    (∃ ps, Lexes offset before ps) ∧ Offends c rest

theorem stopsAt_start {rest : List Char} (h : Offends c rest) : StopsAt offset (c :: rest) offset :=
  ⟨[], c, rest, rfl, rfl, ⟨[], .done⟩, h⟩

theorem StopsAt.blank {stop : Nat} (hc : Text.isBlank c = true) (h : StopsAt (offset + c.utf8Size) cs stop) :
    StopsAt offset (c :: cs) stop := by
  obtain ⟨before, d, rest, rfl, rfl, ⟨ps, hps⟩, hd⟩ := h
  refine ⟨c :: before, d, rest, rfl, ?_, ⟨ps, .blank hc hps⟩, hd⟩
  rw [String.utf8Len_cons]
  omega

theorem StopsAt.letter {stop : Nat} (hc : isNameChar c = true) (h : StopsAt (offset + 1) cs stop) :
    StopsAt offset (c :: cs) stop := by
  obtain ⟨before, d, rest, rfl, rfl, ⟨ps, hps⟩, hd⟩ := h
  refine ⟨c :: before, d, rest, rfl, ?_, ⟨_, .letter hc hps⟩, hd⟩
  rw [String.utf8Len_cons, utf8Size_of_isNameChar hc]
  omega

theorem StopsAt.mark {stop : Nat} (ht : t.IsMark) (h : StopsAt (offset + t.spelling.length) cs stop) :
    StopsAt offset (t.spelling ++ cs) stop := by
  obtain ⟨before, d, rest, rfl, rfl, ⟨ps, hps⟩, hd⟩ := h
  refine ⟨t.spelling ++ before, d, rest, (List.append_assoc ..).symm, ?_, ⟨_, .mark ht hps⟩, hd⟩
  rw [String.utf8Len_append, utf8Len_mark ht, Nat.add_assoc]

/-- The marks are told by their first character, the neck by two. -/
theorem not_mark {rest : List Char} (hmarks : c ∉ ['(', ')', ',', '.'])
    (hneck : ∀ cs, c = ':' → rest = '-' :: cs → False) (t : Token) (ht : t.IsMark) :
    ¬ t.spelling <+: c :: rest := by
  simp only [List.mem_cons, List.not_mem_nil, or_false, not_or] at hmarks
  obtain ⟨hopening, hclosing, hcomma, hstop⟩ := hmarks
  intro hprefix
  cases t with
  | name n => exact ht n rfl
  | opening => exact hopening (List.cons_prefix_cons.mp hprefix).1.symm
  | closing => exact hclosing (List.cons_prefix_cons.mp hprefix).1.symm
  | comma => exact hcomma (List.cons_prefix_cons.mp hprefix).1.symm
  | stop => exact hstop (List.cons_prefix_cons.mp hprefix).1.symm
  | neck =>
    obtain ⟨hcolon, more, rfl⟩ := List.cons_prefix_cons.mp hprefix
    exact hneck more hcolon.symm rfl

/-- **Finding tokens stops** at the first character that can neither start nor continue one. -/
theorem stopsAt_of_tokens (h : tokens offset cs = .error e) : StopsAt offset cs e.offset := by
  fun_induction tokens offset cs with
  | case1 => cases h
  | case2 offset cs ih => exact .mark (t := .neck) (by simp [Token.IsMark]) (ih (map_eq_error h))
  | case3 offset c cs _ hc ih => exact .blank hc (ih h)
  | case4 offset c cs _ _ hc ih => exact .letter hc (ih (map_eq_error h))
  | case5 offset cs _ _ _ ih => exact .mark (t := .opening) (by simp [Token.IsMark]) (ih (map_eq_error h))
  | case6 offset cs _ _ _ ih => exact .mark (t := .closing) (by simp [Token.IsMark]) (ih (map_eq_error h))
  | case7 offset cs _ _ _ ih => exact .mark (t := .comma) (by simp [Token.IsMark]) (ih (map_eq_error h))
  | case8 offset cs _ _ _ ih => exact .mark (t := .stop) (by simp [Token.IsMark]) (ih (map_eq_error h))
  | case9 offset cs hneck =>
    cases h
    exact stopsAt_start ⟨rfl, rfl, not_mark (by decide) hneck⟩
  | case10 offset cs c hopening hclosing hcomma hstop hcolon hneck hblank hname =>
    cases h
    refine stopsAt_start ⟨by simpa using hblank, by simpa using hname, not_mark ?_ hneck⟩
    simpa using ⟨hopening, hclosing, hcomma, hstop⟩

end HornReasoner
