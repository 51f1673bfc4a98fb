/-
# Sentences have exactly five shapes

Three words that stand apart by blanks, the last with a mark right after it, are what a
sentence consists of (`Sentence.Says`); which words and which mark they are makes its shape
(`Sentence.HasShape`). Cutting a text into words and putting the words together again undo
each other (`Sentence.exists_of_words_cons`, `Sentence.threeWords?_eq_some_iff`), so a text
without blanks at its ends has a meaning exactly if it has a shape
(`Sentence.shape?_eq_some_iff`), and the one that the shape gives it. Any other text is
unknown (`Sentence.read_iff_hasShape`).

Names that are read are in small letters, so a store takes every goal and every fact that a
sentence stands for (`Sentence.validate_goal`).

Key definitions: `Sentence.Says`, `Sentence.HasShape`.
Key theorems: `Sentence.threeWords?_eq_some_iff`, `Sentence.shape?_eq_some_iff`,
`Sentence.validate_goal`, `Sentence.read_iff_hasShape`.
-/
import HornReasoner.Proofs.Dialogue.Sentence
import HornReasoner.Proofs.Store.Facts

namespace HornReasoner
namespace Sentence

variable {i : Intent} {t body a b c w rest : List Char} {ws : List (List Char)}

/-- The text is three words with blanks between them and a mark at its end. -/
def Says (t a b c : List Char) (mark : Char) : Prop :=
  ∃ g h, IsSpace g ∧ IsSpace h ∧ t = a ++ (g ++ (b ++ (h ++ c))) ++ [mark]

/-- The five shapes of sentences, each with its meaning. -/
inductive HasShape (t : List Char) : Intent → Prop
  | fact {a b : List Char} (ha : Letters a) (hb : Letters b) (h : Says t a ['i', 's'] b '.') :
      HasShape t (.fact (name a) (name b))
  | relation {a v b : List Char} (ha : Letters a) (hv : Letters v) (hb : Letters b)
      (hverb : v ≠ ['i', 's']) (h : Says t a v b '.') : HasShape t (.relation (name a) (name v) (name b))
  | yesNo {a b : List Char} (ha : Letters a) (hb : Letters b) (h : Says t ['I', 's'] a b '?') :
      HasShape t (.question (.yesNo (name a) (name b)))
  | who {a : List Char} (ha : Letters a) (h : Says t ['W', 'h', 'o'] ['i', 's'] a '?') :
      HasShape t (.question (.who (name a)))
  | what {a : List Char} (ha : Letters a) (h : Says t ['W', 'h', 'a', 't'] ['i', 's'] a '?') :
      HasShape t (.question (.what (name a)))

/-! ### Words of a text -/

theorem words_eq_nil {cs : List Char} (h : words cs = []) : ∀ c ∈ cs, Text.isBlank c = true := by
  induction cs with
  | nil => exact nofun
  | cons c cs ih =>
    rw [words] at h
    split at h
    · next hc => exact List.forall_mem_cons.mpr ⟨hc, ih h⟩
    · split at h
      · split at h <;> cases h
      · cases h

/-- **The first word of a text** stands after blanks, and a blank or the end follows it. -/
theorem exists_of_words_cons {cs : List Char} (h : words cs = w :: ws) : ∃ g rest,
    (∀ c ∈ g, Text.isBlank c = true) ∧ cs = g ++ (w ++ rest) ∧ (∀ c ∈ w, Text.isBlank c = false) ∧
      (∀ c ∈ rest.head?, Text.isBlank c = true) ∧ words rest = ws := by
  induction cs generalizing w ws with
  | nil => cases h
  | cons c cs ih =>
    rw [words] at h
    split at h
    · next hc =>
      obtain ⟨g, rest, hg, rfl, hword⟩ := ih h
      exact ⟨c :: g, rest, List.forall_mem_cons.mpr ⟨hc, hg⟩, rfl, hword⟩
    · next hc =>
      have hc : Text.isBlank c = false := Bool.eq_false_iff.mpr hc
      have hone : ∀ d ∈ [c], Text.isBlank d = false := List.forall_mem_singleton.mpr hc
      split at h
      · next d v vs hd hwords =>
        split at h
        · next hblank =>
          cases h
          refine ⟨[], cs, List.forall_mem_nil _, rfl, hone, fun d' hd' => ?_, hwords⟩
          cases hd.symm.trans hd'
          exact hblank
        · next hblank =>
          -- the character is the first of the word that starts right after it
          cases h
          obtain ⟨g, rest, hg, rfl, hv, hrest, hvs⟩ := ih hwords
          cases g with
          | nil =>
            exact ⟨[], rest, List.forall_mem_nil _, rfl, List.forall_mem_cons.mpr ⟨hc, hv⟩, hrest, hvs⟩
          | cons d' g =>
            cases hd
            exact absurd (hg d List.mem_cons_self) hblank
      · next hnone =>
        cases h
        refine ⟨[], cs, List.forall_mem_nil _, rfl, hone, fun d hd => ?_, rfl⟩
        cases hwords : words cs with
        | nil => exact words_eq_nil hwords d (List.mem_of_mem_head? hd)
        | cons v vs => exact absurd hwords (hnone d v vs hd)

/-- Blanks between a blank and a word are a space. -/
theorem isSpace_of_head {g : List Char} (hg : ∀ c ∈ g, Text.isBlank c = true) (hw : Letters w)
    (hhead : ∀ c ∈ (g ++ (w ++ rest)).head?, Text.isBlank c = true) : IsSpace g := by
  refine ⟨?_, hg⟩
  rintro rfl
  obtain ⟨c, w, rfl⟩ := List.exists_cons_of_ne_nil hw.1
  exact Bool.false_ne_true ((hw.not_blank c List.mem_cons_self).symm.trans (hhead c rfl))

/-- **Three words** are found where they stand apart by blanks, with no blank before or after them. -/
theorem threeWords?_eq_some_iff (hhead : ∀ d ∈ body.head?, Text.isBlank d = false) :
    threeWords? body = some (a, b, c) ↔ Letters a ∧ Letters b ∧ Letters c ∧
      ∃ g h, IsSpace g ∧ IsSpace h ∧ body = a ++ (g ++ (b ++ (h ++ c))) := by
  constructor
  · intro hthree
    obtain ⟨ha, hb, hc⟩ := letters_of_threeWords? hthree
    unfold threeWords? at hthree
    split at hthree
    · cases hthree
    · next hlast =>
      split at hthree
      · next a' b' c' hwords =>
        split at hthree
        · cases hthree
          obtain ⟨g₀, rest, hg₀, rfl, -, hrest, hwords⟩ := exists_of_words_cons hwords
          obtain ⟨g, rest, hg, rfl, -, hrest', hwords⟩ := exists_of_words_cons hwords
          obtain ⟨h, rest, hh, rfl, -, -, hwords⟩ := exists_of_words_cons hwords
          have hstart : g₀ = [] := by
            cases g₀ with
            | nil => rfl
            | cons d g₀ => exact absurd ((hg₀ d List.mem_cons_self).symm.trans (hhead d rfl)) (by decide)
          have hend : rest = [] := by
            by_contra hne
            apply hlast
            have hmem := List.getLast_mem hne
            simp [List.getLast?_append, List.getLast?_eq_some_getLast hne, words_eq_nil hwords _ hmem]
          subst hstart hend
          rw [List.nil_append, List.append_nil]
          exact ⟨ha, hb, hc, g, h, isSpace_of_head hg hb hrest, isSpace_of_head hh hc hrest', rfl⟩
        · cases hthree
      · cases hthree
  · rintro ⟨ha, hb, hc, g, h, hg, hh, rfl⟩
    exact threeWords?_of_letters ha hb hc hg hh

/-! ### Shapes of a text -/

/-- A trimmed text does not start with a blank. -/
theorem head_trimList (cs : List Char) : ∀ d ∈ (Text.trimList cs).head?, Text.isBlank d = false := by
  intro d hd
  have hprefix : Text.trimList cs <+: cs.dropWhile Text.isBlank := by
    unfold Text.trimList
    rw [← List.reverse_suffix, List.reverse_reverse]
    exact List.dropWhile_suffix _
  have hhead := List.head?_dropWhile_not Text.isBlank cs
  obtain ⟨rest, hrest⟩ := hprefix
  rw [← hrest, List.head?_append, Option.mem_def.mp hd] at hhead
  exact hhead

/-- A text with a shape ends with a mark, and what stands before it has the meaning. -/
theorem shape?_eq_some : shape? t = some i ↔ ∃ body,
    (t = body ++ ['.'] ∧ statement? body = some i) ∨ (t = body ++ ['?'] ∧ question? body = some i) := by
  constructor
  · intro h
    unfold shape? at h
    split at h
    · next hlast => exact ⟨t.dropLast, Or.inl ⟨(List.dropLast_append_getLast? _ hlast).symm, h⟩⟩
    · next hlast => exact ⟨t.dropLast, Or.inr ⟨(List.dropLast_append_getLast? _ hlast).symm, h⟩⟩
    · cases h
  · unfold shape?
    rintro ⟨body, ⟨rfl, h⟩ | ⟨rfl, h⟩⟩
    · rw [List.getLast?_concat, List.dropLast_concat]
      exact h
    · rw [List.getLast?_concat, List.dropLast_concat]
      exact h

/-- **A text without blanks before it** has the meaning of its shape. -/
theorem shape?_eq_some_iff (hhead : ∀ d ∈ t.head?, Text.isBlank d = false) :
    shape? t = some i ↔ HasShape t i := by
  have hletters : ∀ w : List Char, w ≠ [] → w.all Char.isAlpha = true → Letters w := fun w hne h =>
    ⟨hne, List.all_eq_true.mp h⟩
  have his : Letters ['i', 's'] := hletters _ (List.cons_ne_nil _ _) (by decide)
  have hbody : ∀ {body : List Char} {mark : Char}, t = body ++ [mark] →
      ∀ d ∈ body.head?, Text.isBlank d = false := by
    rintro body mark rfl d hd
    refine hhead d ?_
    rw [List.head?_append, Option.mem_def.mp hd]
    rfl
  rw [shape?_eq_some]
  constructor
  · rintro ⟨body, ⟨rfl, h⟩ | ⟨rfl, h⟩⟩
    · obtain ⟨⟨a, b, c⟩, hwords, rfl⟩ := Option.map_eq_some_iff.mp h
      obtain ⟨ha, hb, hc, g, g', hg, hg', rfl⟩ := (threeWords?_eq_some_iff (hbody rfl)).mp hwords
      dsimp only
      split
      · next his =>
        subst his
        exact .fact ha hc ⟨g, g', hg, hg', rfl⟩
      · next hverb => exact .relation ha hb hc hverb ⟨g, g', hg, hg', rfl⟩
    · obtain ⟨⟨a, b, c⟩, hwords, hmeaning⟩ := Option.bind_eq_some_iff.mp h
      obtain ⟨ha, hb, hc, g, g', hg, hg', rfl⟩ := (threeWords?_eq_some_iff (hbody rfl)).mp hwords
      dsimp only at hmeaning
      split_ifs at hmeaning with hIs his hWho hWhat <;> cases hmeaning
      · subst hIs
        exact .yesNo hb hc ⟨g, g', hg, hg', rfl⟩
      · subst hWho his
        exact .who hc ⟨g, g', hg, hg', rfl⟩
      · subst hWhat his
        exact .what hc ⟨g, g', hg, hg', rfl⟩
  · intro hshape
    cases hshape with
    | fact ha hb h =>
      obtain ⟨g, h, hg, hh, rfl⟩ := h
      refine ⟨_, Or.inl ⟨rfl, ?_⟩⟩
      rw [statement?, threeWords?_of_letters ha his hb hg hh]
      rfl
    | relation ha hv hb hverb h =>
      obtain ⟨g, h, hg, hh, rfl⟩ := h
      refine ⟨_, Or.inl ⟨rfl, ?_⟩⟩
      rw [statement?, threeWords?_of_letters ha hv hb hg hh, Option.map_some]
      exact congrArg some (if_neg hverb)
    | yesNo ha hb h =>
      obtain ⟨g, h, hg, hh, rfl⟩ := h
      refine ⟨_, Or.inr ⟨rfl, ?_⟩⟩
      rw [question?, threeWords?_of_letters (hletters _ (List.cons_ne_nil _ _) (by decide)) ha hb hg hh]
      rfl
    | who ha h =>
      obtain ⟨g, h, hg, hh, rfl⟩ := h
      refine ⟨_, Or.inr ⟨rfl, ?_⟩⟩
      rw [question?, threeWords?_of_letters (hletters _ (List.cons_ne_nil _ _) (by decide)) his ha hg hh]
      rfl
    | what ha h =>
      obtain ⟨g, h, hg, hh, rfl⟩ := h
      refine ⟨_, Or.inr ⟨rfl, ?_⟩⟩
      rw [question?, threeWords?_of_letters (hletters _ (List.cons_ne_nil _ _) (by decide)) his ha hg hh]
      rfl

/-! ### Goals -/

/-- **A goal about names in small letters** is well formed. -/
theorem validate_goal {goal : Atom String} (hnames : ∀ n ∈ i.names, SmallLetters n)
    (hgoal : i.goal? = some goal) : goal.validate = .ok () := by
  have hfact : ∀ (p : String) (args : List String), args ≠ [] → (∀ n ∈ p :: args, SmallLetters n) →
      (Atom.mk p (args.map .const)).validate = .ok () := by
    intro p args hne hall
    obtain ⟨hp, hargs⟩ := List.forall_mem_cons.mp hall
    rw [← Clause.validate_fact]
    exact validate_of_smallLetters hp args hne hargs
  cases i with
  | fact s p =>
    cases hgoal
    exact hfact p [s] (by simp) (by simpa [Intent.names, and_comm] using hnames)
  | relation s v o =>
    cases hgoal
    refine hfact v [s, o] (by simp) ?_
    simp only [Intent.names, List.forall_mem_cons] at hnames ⊢
    tauto
  | unknown text => cases hgoal
  | question q =>
    cases q with
    | yesNo s p =>
      cases hgoal
      exact hfact p [s] (by simp) (by simpa [Intent.names, and_comm] using hnames)
    | who p =>
      cases hgoal
      have hp : SmallLetters p := hnames p List.mem_cons_self
      have hX : (Term.var whoVariable).validate = .ok () := by decide
      exact Atom.validate_eq_ok_iff.mpr
        ⟨hp.isPredicateName, List.cons_ne_nil _ _, List.forall_mem_singleton.mpr hX⟩
    | what s => cases hgoal

/-- **Sentences have exactly five shapes.** A text is read as the meaning of the shape that it has once
it is trimmed, and as unknown, trimmed, if it has none. If what is read has a goal, the goal is well
formed, no store refuses it for a name, and each store takes the fact that the text states. -/
theorem read_iff_hasShape (text : String) :
    (∀ i, read text = i ↔ HasShape (Text.trim text).toList i ∨
      (∀ j, ¬ HasShape (Text.trim text).toList j) ∧ i = .unknown (Text.trim text)) ∧
    ∀ goal, (read text).goal? = some goal → goal.validate = .ok () ∧
      ∀ s : KnowledgeStore, (∀ e, s.query goal ≠ .error (.malformedGoal e)) ∧
        ∀ c, (read text).clause? = some c → ∀ id, (s.assert .fact ⟨id, c⟩).1 = .ok id := by
  have htrim : (Text.trim text).toList = Text.trimList text.toList := String.toList_ofList
  have hread : read text = (shape? (Text.trimList text.toList)).getD (.unknown (Text.trim text)) := rfl
  have hshape : ∀ i, shape? (Text.trimList text.toList) = some i ↔ HasShape (Text.trim text).toList i := by
    intro i
    rw [htrim]
    exact shape?_eq_some_iff (head_trimList _)
  refine ⟨fun i => ?_, fun goal hgoal => ?_⟩
  · rw [hread]
    simp only [← hshape]
    cases shape? (Text.trimList text.toList) with
    | none => simp [eq_comm]
    | some j => simp
  · have hvalid := validate_goal (smallLetters_read text) hgoal
    refine ⟨hvalid, fun s => ⟨fun e => ?_, fun c hc id => ?_⟩⟩
    · rw [KnowledgeStore.query_eq_solve s hvalid, solve_eq]
      split <;> nofun
    · have hfact : c = .fact goal := by
        unfold Intent.clause? at hc
        rw [hgoal] at hc
        split at hc <;> cases hc
        rfl
      subst hfact
      obtain ⟨s', hs', -⟩ := s.assert_of_accepted .fact (a := ⟨id, .fact goal⟩) rfl
        (Clause.validate_fact.trans hvalid)
      rw [hs']

/-- A question that starts with a hard space, ends with a new line and has the word "IS" for a subject. -/
theorem exoticQuestion_read :
    let text := "\u00a0Is  IS\u2003Human?\n"
    let goal : Atom String := ⟨"human", [.const "is"]⟩
    read text = .question (.yesNo "is" "human") ∧
    HasShape (Text.trim text).toList (.question (.yesNo "is" "human")) ∧
    (read text).goal? = some goal ∧ goal.validate = .ok () := by
  intro text goal
  have hread : read text = .question (.yesNo "is" "human") := by decide +kernel
  have hgoal : (read text).goal? = some goal := by rw [hread]; rfl
  obtain ⟨hshape, hvalid⟩ := read_iff_hasShape text
  refine ⟨hread, ((hshape _).mp hread).resolve_right nofun, hgoal, (hvalid goal hgoal).1⟩

end Sentence
end HornReasoner
