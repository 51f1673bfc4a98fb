/-
# What is written is read back

An atom is written as its tokens with a blank after each comma, and a clause with blanks
around its neck as well, so the written text spells the tokens (`Clause.spells_text`).
Hence a grammatical clause is read back from its text (`Clause.read_text`), and so is a
well-formed atom (`Atom.read_text`). Whatever was read is grammatical, so a text that
reads as a clause and the clause as written read alike.

Key theorems: `Clause.spells_text`, `Clause.read_text`, `Atom.read_text`.
-/
import HornReasoner.Proofs.Logic.Grammar
import Mathlib.Data.List.Forall2

namespace HornReasoner

theorem spells_token (t : Token) : Spells [t] t.spelling := by
  have h := (Spells.gap isGap_nil).next t
  rwa [List.append_nil] at h

/-- A comma is written with a blank after it. -/
theorem spells_comma : Spells [.comma] [',', ' '] :=
  (Spells.gap (List.forall_mem_singleton.mpr rfl)).next .comma

/-- The neck is written with a blank on either side. -/
theorem spells_neck : Spells [.neck] [' ', ':', '-', ' '] :=
  ((Spells.gap (List.forall_mem_singleton.mpr rfl)).next .neck).blank rfl

/-- Texts joined by commas and blanks spell their rows with a comma between each two. -/
theorem spells_commaSeparated {rows : List (List Token)} {texts : List (List Char)}
    (h : List.Forall₂ Spells rows texts) :
    Spells (commaSeparated rows) ([',', ' '].intercalate texts) := by
  induction h with
  | nil => exact .gap isGap_nil
  | @cons row text rows texts hrow hrest ih =>
    cases hrest with
    | nil => simpa using hrow
    | cons hrow' hrest =>
      rw [commaSeparated, List.intercalate_cons_cons, List.intercalate_cons_cons]
      exact (hrow.append spells_comma).append ih

theorem forall₂_map_map {α β γ : Type} {R : β → γ → Prop} {f : α → β} {g : α → γ} {l : List α}
    (h : ∀ a ∈ l, R (f a) (g a)) : List.Forall₂ R (l.map f) (l.map g) :=
  List.forall₂_map_left_iff.mpr (List.forall₂_map_right_iff.mpr (List.forall₂_same.mpr h))

/-- **The written atom spells its tokens.** -/
theorem Atom.spells_text (a : Atom String) : Spells a.asTokens a.text.toList := by
  have hargs : Spells (commaSeparated (a.args.map Term.asTokens))
      ([',', ' '].intercalate ((a.args.map Term.name).map String.toList)) := by
    rw [List.map_map]
    exact spells_commaSeparated (forall₂_map_map fun t _ => spells_token (.name t.name.toList))
  have htext : a.text.toList = a.predicate.toList ++ ('(' ::
      ([',', ' '].intercalate ((a.args.map Term.name).map String.toList) ++ [')'])) := by
    unfold text
    rw [String.toList_append, String.toList_append, String.toList_append, String.toList_intercalate]
    simp
  rw [htext]
  exact ((hargs.append (spells_token .closing)).next .opening).next (.name a.predicate.toList)

/-- **The written clause spells its tokens.** -/
theorem Clause.spells_text (c : Clause String) : Spells c.asTokens c.text.toList := by
  obtain ⟨head, body⟩ := c
  cases body with
  | nil =>
    show Spells (head.asTokens ++ [.stop]) (head.text ++ ".").toList
    rw [String.toList_append]
    exact head.spells_text.append (spells_token .stop)
  | cons a more =>
    have hbody : Spells (commaSeparated ((a :: more).map Atom.asTokens))
        ([',', ' '].intercalate (((a :: more).map Atom.text).map String.toList)) := by
      rw [List.map_map]
      exact spells_commaSeparated (forall₂_map_map fun b _ => b.spells_text)
    have htext : (Clause.mk head (a :: more)).text.toList = head.text.toList ++ ([' ', ':', '-', ' '] ++
        ([',', ' '].intercalate (((a :: more).map Atom.text).map String.toList) ++ ['.'])) := by
      show (head.text ++ " :- " ++ String.intercalate ", " ((a :: more).map Atom.text) ++ ".").toList = _
      rw [String.toList_append, String.toList_append, String.toList_append, String.toList_intercalate,
        List.append_assoc, List.append_assoc]
      rfl
    rw [htext]
    exact head.spells_text.append (spells_neck.append (hbody.append (spells_token .stop)))

/-! ### Reading back -/

theorem Clause.validate_eq_ok_iff {c : Clause String} :
    c.validate = .ok () ↔ c.head.validate = .ok () ∧ ∀ a ∈ c.body, a.validate = .ok () := by
  rw [← forM_eq_ok_iff]
  unfold Clause.validate
  cases c.head.validate with
  | error e => simp [bind, Except.bind]
  | ok u => simp [bind, Except.bind]

/-- A well-formed clause is grammatical. -/
theorem Clause.grammatical_of_validate {c : Clause String} (h : c.validate = .ok ()) : c.Grammatical := by
  obtain ⟨hhead, hbody⟩ := Clause.validate_eq_ok_iff.mp h
  exact ⟨(Atom.validate_iff_grammatical.mp hhead).1, fun a ha =>
    (Atom.validate_iff_grammatical.mp (hbody a ha)).1⟩

/-- **A grammatical clause is read back** from its text. -/
theorem Clause.read_text {c : Clause String} (h : c.Grammatical) : Clause.read c.text = .ok c :=
  Clause.read_eq_ok_iff.mpr ⟨h, c.spells_text⟩

/-- **A well-formed atom is read back** from its text. -/
theorem Atom.read_text {a : Atom String} (h : a.validate = .ok ()) : Atom.read a.text = .ok a :=
  Atom.read_eq_ok_iff.mpr ⟨Atom.validate_iff_grammatical.mp h, Or.inl a.spells_text⟩

/-- Blanks and an odd name do not stand in the way of a second reading. -/
example : (Clause.read "Likes( ann ,_x)\n:-9lives( ann ) .").map Clause.text =
    .ok "Likes(ann, _x) :- 9lives(ann)." := by
  decide +kernel

end HornReasoner
