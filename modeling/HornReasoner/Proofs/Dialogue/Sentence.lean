/-
# Names that are read are well formed

A sentence that is understood consists of three words of letters, and the names in its
meaning are such words in small letters (`Sentence.smallLetters_read`). A word in small
letters is a well-formed name of a predicate and of a constant, so what a statement
says can be learned (`Sentence.validate_of_smallLetters`). And it is read as it stands:
the question whether `s` is `p` means just that (`Sentence.read_yesNo`).

Key definitions: `Intent.names`, `Sentence.Letters`, `Sentence.SmallLetters`.
Key theorems: `Sentence.words_append`, `Sentence.smallLetters_read`, `Sentence.read_yesNo`.
-/
import HornReasoner.Dialogue.Sentence
import HornReasoner.Proofs.Logic.Names
import Mathlib

namespace HornReasoner

/-- The names in an intent. -/
def Intent.names : Intent → List String
  | .fact subject predicate => [subject, predicate]
  | .relation subject verb object => [subject, verb, object]
  | .question (.yesNo subject predicate) => [subject, predicate]
  | .question (.who predicate) => [predicate]
  | .question (.what subject) => [subject]
  | .unknown _ => []

namespace Sentence

variable {i : Intent} {w body : List Char} {s p : String}

/-! ### Letters -/

/-- A word of letters. -/
def Letters (w : List Char) : Prop := w ≠ [] ∧ ∀ c ∈ w, c.isAlpha = true

/-- A word in small letters. -/
def SmallLetters (s : String) : Prop := s.toList ≠ [] ∧ ∀ c ∈ s.toList, c.isLower = true

theorem SmallLetters.letters (h : SmallLetters s) : Letters s.toList :=
  ⟨h.1, fun c hc => isAlpha_of_isLower (h.2 c hc)⟩

theorem Letters.not_blank (h : Letters w) : ∀ c ∈ w, Text.isBlank c = false := fun c hc =>
  isBlank_of_isNameChar (isNameChar_of_isAlpha (h.2 c hc))

theorem smallLetters_name (h : Letters w) : SmallLetters (name w) := by
  unfold SmallLetters name
  rw [String.toList_ofList]
  refine ⟨by simpa using h.1, fun c hc => ?_⟩
  obtain ⟨d, hd, rfl⟩ := List.mem_map.mp hc
  rw [Char.isLower_toLower_eq_isAlpha]
  exact h.2 d hd

/-- A name in small letters is kept. -/
theorem name_toList (h : SmallLetters s) : name s.toList = s := by
  have hkept : ∀ c ∈ s.toList, c.toLower = c := fun c hc =>
    Char.toLower_eq_of_not_isUpper (Char.not_isUpper_of_isLower (h.2 c hc))
  unfold name
  rw [List.map_congr_left hkept, List.map_id', String.ofList_toList]

theorem SmallLetters.isPredicateName (h : SmallLetters s) : isPredicateName s = true := by
  obtain ⟨hne, hlower⟩ := h
  unfold HornReasoner.isPredicateName
  cases hs : s.toList with
  | nil => exact absurd hs hne
  | cons c cs =>
    rw [hs] at hlower
    rw [Bool.and_eq_true, List.all_eq_true]
    exact ⟨hlower c List.mem_cons_self, fun d hd =>
      isNameChar_of_isAlpha (isAlpha_of_isLower (hlower d (List.mem_cons_of_mem _ hd)))⟩

/-- A fact about names in small letters is well formed. -/
theorem validate_of_smallLetters (hp : SmallLetters p) (args : List String) (hne : args ≠ [])
    (hargs : ∀ a ∈ args, SmallLetters a) :
    (Clause.fact ⟨p, args.map .const⟩).validate = .ok () := by
  rw [Clause.validate_fact, Atom.validate_eq_ok_iff]
  refine ⟨hp.isPredicateName, by simpa using hne, fun t ht => ?_⟩
  obtain ⟨a, ha, rfl⟩ := List.mem_map.mp ht
  exact Term.validate_const.mpr (isConstantName_of_isPredicateName (hargs a ha).isPredicateName)

/-! ### Words -/

theorem forall_words_ne_nil : ∀ cs : List Char, ∀ w ∈ words cs, w ≠ []
  | [] => by simp [words]
  | c :: cs => by
    have ih := forall_words_ne_nil cs
    unfold words
    split
    · exact ih
    · split
      · next d v vs _ hwords =>
        rw [hwords] at ih
        split
        · exact List.forall_mem_cons.mpr ⟨List.cons_ne_nil _ _, ih⟩
        · exact List.forall_mem_cons.mpr ⟨List.cons_ne_nil _ _, (List.forall_mem_cons.mp ih).2⟩
      · exact List.forall_mem_cons.mpr ⟨List.cons_ne_nil _ _, ih⟩

/-- A word that a blank or the end follows is the first of the words. -/
theorem words_append (hw : w ≠ []) (hblank : ∀ c ∈ w, Text.isBlank c = false) (rest : List Char)
    (hrest : ∀ c ∈ rest.head?, Text.isBlank c = true) : words (w ++ rest) = w :: words rest := by
  induction w with
  | nil => exact absurd rfl hw
  | cons c w ih =>
    obtain ⟨hc, hblank⟩ := List.forall_mem_cons.mp hblank
    rw [List.cons_append, words, hc, if_neg Bool.false_ne_true]
    cases w with
    | nil =>
      rw [List.nil_append]
      split
      · next d v vs hd hwords => rw [hrest d hd, if_pos rfl, hwords]
      · rfl
    | cons d w =>
      rw [ih (List.cons_ne_nil _ _) hblank, List.cons_append, List.head?_cons]
      dsimp only
      rw [hblank d List.mem_cons_self, if_neg Bool.false_ne_true]

/-- A word that nothing follows. -/
theorem words_letters (h : Letters w) : words w = [w] := by
  have hw := words_append h.1 h.not_blank [] (by simp)
  rwa [List.append_nil] at hw

/-- One blank or more. -/
def IsSpace (g : List Char) : Prop := g ≠ [] ∧ ∀ c ∈ g, Text.isBlank c = true

theorem words_blanks {g : List Char} (hg : ∀ c ∈ g, Text.isBlank c = true) (rest : List Char) :
    words (g ++ rest) = words rest := by
  induction g with
  | nil => rfl
  | cons c g ih =>
    obtain ⟨hc, hg⟩ := List.forall_mem_cons.mp hg
    rw [List.cons_append, words, if_pos hc, ih hg]

/-- A word that blanks follow. -/
theorem words_letters_space {g : List Char} (h : Letters w) (hg : IsSpace g) (rest : List Char) :
    words (w ++ (g ++ rest)) = w :: words rest := by
  rw [words_append h.1 h.not_blank, words_blanks hg.2]
  obtain ⟨c, g, rfl⟩ := List.exists_cons_of_ne_nil hg.1
  rintro _ ⟨⟩
  exact hg.2 c List.mem_cons_self

/-! ### Three words -/

theorem letters_of_threeWords? {a b c : List Char} (h : threeWords? body = some (a, b, c)) :
    Letters a ∧ Letters b ∧ Letters c := by
  unfold threeWords? at h
  split at h
  · cases h
  · split at h
    · next a b c hwords =>
      split at h
      · next hletters =>
        cases h
        simp only [Bool.and_eq_true, List.all_eq_true] at hletters
        obtain ⟨⟨ha, hb⟩, hc⟩ := hletters
        have hne : ∀ w ∈ [a, b, c], w ≠ [] := hwords ▸ forall_words_ne_nil body
        exact ⟨⟨hne a (by simp), ha⟩, ⟨hne b (by simp), hb⟩, ⟨hne c (by simp), hc⟩⟩
      · cases h
    · cases h

theorem threeWords?_of_letters {a b c g h : List Char} (ha : Letters a) (hb : Letters b) (hc : Letters c)
    (hg : IsSpace g) (hh : IsSpace h) : threeWords? (a ++ (g ++ (b ++ (h ++ c)))) = some (a, b, c) := by
  have hend : (a ++ (g ++ (b ++ (h ++ c)))).getLast? = some (c.getLast hc.1) := by
    simp [List.getLast?_append, List.getLast?_eq_some_getLast hc.1]
  unfold threeWords?
  rw [hend, Option.any_some, hc.not_blank _ (List.getLast_mem hc.1), if_neg Bool.false_ne_true,
    words_letters_space ha hg, words_letters_space hb hh, words_letters hc]
  simp [List.all_eq_true.mpr ha.2, List.all_eq_true.mpr hb.2, List.all_eq_true.mpr hc.2]

/-! ### Names that are read -/

theorem smallLetters_of_statement? (h : statement? body = some i) : ∀ n ∈ i.names, SmallLetters n := by
  unfold statement? at h
  obtain ⟨⟨a, b, c⟩, hwords, rfl⟩ := Option.map_eq_some_iff.mp h
  obtain ⟨ha, hb, hc⟩ := letters_of_threeWords? hwords
  dsimp only
  split
  · simpa [Intent.names] using ⟨smallLetters_name ha, smallLetters_name hc⟩
  · simpa [Intent.names] using ⟨smallLetters_name ha, smallLetters_name hb, smallLetters_name hc⟩

theorem smallLetters_of_question? (h : question? body = some i) : ∀ n ∈ i.names, SmallLetters n := by
  unfold question? at h
  obtain ⟨⟨a, b, c⟩, hwords, h⟩ := Option.bind_eq_some_iff.mp h
  obtain ⟨-, hb, hc⟩ := letters_of_threeWords? hwords
  dsimp only at h
  split_ifs at h <;> cases h
  · simpa [Intent.names] using ⟨smallLetters_name hb, smallLetters_name hc⟩
  · simpa [Intent.names] using smallLetters_name hc
  · simpa [Intent.names] using smallLetters_name hc

/-- **Names that are read** are words in small letters. -/
theorem smallLetters_read (text : String) : ∀ n ∈ (read text).names, SmallLetters n := by
  unfold read
  dsimp only
  generalize Text.trimList text.toList = cs
  cases hshape : shape? cs with
  | none => simp [Intent.names]
  | some i =>
    rw [Option.getD_some]
    unfold shape? at hshape
    split at hshape
    · exact smallLetters_of_statement? hshape
    · exact smallLetters_of_question? hshape
    · cases hshape

/-! ### Questions that are read -/

/-- A text that starts and ends without a blank is not trimmed. -/
theorem trimList_of_ends {first last : Char} (hfirst : Text.isBlank first = false)
    (hlast : Text.isBlank last = false) (cs : List Char) :
    Text.trimList (first :: (cs ++ [last])) = first :: (cs ++ [last]) := by
  unfold Text.trimList
  rw [List.dropWhile_cons_of_neg (by simp [hfirst])]
  simp [hlast]

/-- **A question is read as it stands** if its names are in small letters. -/
theorem read_yesNo (hs : SmallLetters s) (hp : SmallLetters p) :
    read ("Is " ++ s ++ " " ++ p ++ "?") = .question (.yesNo s p) := by
  have htext : ("Is " ++ s ++ " " ++ p ++ "?").toList =
      'I' :: ('s' :: ' ' :: (s.toList ++ ' ' :: p.toList) ++ ['?']) := by
    rw [String.toList_append, String.toList_append, String.toList_append, String.toList_append]
    simp
  have hIs : Letters ['I', 's'] := ⟨by simp, by simp [Char.isAlpha, Char.isUpper, Char.isLower]⟩
  have hspace : IsSpace [' '] := ⟨List.cons_ne_nil _ _, List.forall_mem_singleton.mpr rfl⟩
  have hwords := threeWords?_of_letters hIs hs.letters hp.letters hspace hspace
  simp only [List.cons_append, List.nil_append] at hwords
  have hshape : shape? ('I' :: ('s' :: ' ' :: (s.toList ++ ' ' :: p.toList) ++ ['?'])) =
      question? ('I' :: 's' :: ' ' :: (s.toList ++ ' ' :: p.toList)) := by
    unfold shape?
    rw [← List.cons_append, List.getLast?_concat, List.dropLast_concat]
    rfl
  unfold read
  dsimp only
  rw [htext, trimList_of_ends (by decide) (by decide), hshape, question?, hwords, Option.bind_some]
  dsimp only
  rw [if_pos rfl, name_toList hs, name_toList hp]
  rfl

end Sentence
end HornReasoner
