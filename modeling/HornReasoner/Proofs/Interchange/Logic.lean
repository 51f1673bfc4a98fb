/-
# Logical values survive JSON

Terms, atoms, clauses with their identifiers, answers, questions and intents are read
back from their texts, compact or indented, whatever strings stand in them
(`values_survive`). No two values of one type have the same text, then. A question inside
an intent stands in one object with the intent's tag, its own tag and its fields; both
tags are found and taken out there, one after the other.

Key definition: `Survives`.
Key theorems: `survives_of`, `Uuid.read?_text`, `Intent.ofDocument?_toJson`, `values_survive`.
-/
import HornReasoner.Interchange.Intent
import HornReasoner.Interchange.Logic
import HornReasoner.Proofs.Json.Decoding

namespace HornReasoner

/-! ### Values that are read back -/

/-- The values are read back from both of their texts, and no two have the same text. -/
structure Survives {α : Type} (toJson : α → Json) (ofDocument? : Document → Option α) : Prop where
  compact : ∀ a, (Document.read? (toJson a).compact).bind ofDocument? = some a
  pretty : ∀ a, (Document.read? (toJson a).pretty).bind ofDocument? = some a
  apart : ∀ a b, (toJson a).compact = (toJson b).compact ∨ (toJson a).pretty = (toJson b).pretty → a = b

section

variable {α : Type} {toJson : α → Json} {ofDocument? : Document → Option α}

/-- Values without numbers survive if each is what its document says. -/
theorem survives_of (hnumbers : ∀ a, (toJson a).numbers = [])
    (hdocument : ∀ a, ofDocument? (toJson a).toDocument = some a) : Survives toJson ofDocument? := by
  have hreadsBack : ∀ a, ∀ n ∈ (toJson a).numbers, n.ReadsBack := fun a n hn => by
    rw [hnumbers a] at hn
    cases hn
  have hcompact : ∀ a, (Document.read? (toJson a).compact).bind ofDocument? = some a := fun a => by
    rw [Document.read?_compact (hreadsBack a), Option.bind_some, hdocument a]
  have hpretty : ∀ a, (Document.read? (toJson a).pretty).bind ofDocument? = some a := fun a => by
    rw [Document.read?_pretty (hreadsBack a), Option.bind_some, hdocument a]
  refine ⟨hcompact, hpretty, fun a b h => ?_⟩
  rcases h with h | h
  · exact Option.some.inj ((hcompact a).symm.trans (h ▸ hcompact b))
  · exact Option.some.inj ((hpretty a).symm.trans (h ▸ hpretty b))

end

/-- A row has no numbers if its items have none. -/
theorem Json.numbers_list {α : Type} {f : α → Json} {xs : List α} (h : ∀ x ∈ xs, (f x).numbers = []) :
    (Json.list f xs).numbers = [] := by
  refine List.eq_nil_iff_forall_not_mem.mpr fun n hn => ?_
  obtain ⟨x, hx, hn⟩ := mem_numbers_list.mp hn
  rw [h x hx] at hn
  cases hn

/-! ### Terms and atoms -/

theorem Term.numbers_toJson (t : Term String) : t.toJson.numbers = [] := by
  cases t <;> rfl

theorem Term.ofDocument?_toJson (t : Term String) : ofDocument? t.toJson.toDocument = some t := by
  cases t <;> rfl

theorem Atom.numbers_toJson (a : Atom String) : a.toJson.numbers = [] := by
  have hargs := Json.numbers_list fun t (_ : t ∈ a.args) => t.numbers_toJson
  simp [toJson, Json.numbers, Json.membersNumbers, hargs]

theorem Atom.ofDocument?_toJson (a : Atom String) : ofDocument? a.toJson.toDocument = some a := by
  have hargs : (Json.list Term.toJson a.args).toDocument.list? Term.ofDocument? = some a.args :=
    Document.list?_toDocument fun t _ => t.ofDocument?_toJson
  have hrecord : a.toJson.toDocument.record? ["predicate", "args"] = _ :=
    Document.record?_fields [("predicate", .string (some a.predicate)),
      ("args", (Json.list Term.toJson a.args).toDocument)] (by simp) (by simp)
  rw [ofDocument?, hrecord]
  simp [Record.field?, Record.find?, SortedMap.lookup, Document.text?, hargs]

/-! ### Identifiers -/

namespace Uuid

theorem length_chars (u : Uuid) : u.chars.length = 32 := by
  rw [chars, List.length_map, u.length_eq]

theorem digit?_hexChar : ∀ d : Fin 16, digit? (Json.hexChar d.val) = some d := by
  decide

theorem readSimple?_chars (u : Uuid) : readSimple? u.chars = some u := by
  have hdigits : u.chars.mapM digit? = some u.digits :=
    Document.mapM_map_eq_some fun d _ => digit?_hexChar d
  unfold readSimple?
  rw [hdigits]
  exact dif_pos u.length_eq

/-- 32 characters fall into groups of 8, 4, 4, 4 and 12. -/
theorem exists_groups {cs : List Char} (h : cs.length = 32) :
    ∃ p q r s t, cs = p ++ (q ++ (r ++ (s ++ t))) ∧ p.length = 8 ∧ q.length = 4 ∧ r.length = 4 ∧
      s.length = 4 ∧ t.length = 12 := by
  refine ⟨cs.take 8, (cs.drop 8).take 4, (cs.drop 12).take 4, (cs.drop 16).take 4, cs.drop 20, ?_, ?_⟩
  · have hnext : ∀ n, (cs.drop n).take 4 ++ cs.drop (n + 4) = cs.drop n := fun n => by
      rw [← List.drop_drop, List.take_append_drop]
    rw [hnext 16, hnext 12, hnext 8, List.take_append_drop]
  · simp only [List.length_take, List.length_drop]
    omega

theorem group_append {p q r s t : List Char} (hp : p.length = 8) (hq : q.length = 4)
    (hr : r.length = 4) (hs : s.length = 4) :
    group (p ++ (q ++ (r ++ (s ++ t)))) = p ++ '-' :: (q ++ '-' :: (r ++ '-' :: (s ++ '-' :: t))) := by
  simp [group, List.drop_append, List.drop_of_length_le, hp, hq, hr, hs]

theorem readGrouped?_group (u : Uuid) : readGrouped? (group u.chars) = some u := by
  obtain ⟨p, q, r, s, t, hchars, hp, hq, hr, hs, ht⟩ := exists_groups u.length_chars
  have hdigits : (group u.chars).take 8 ++ ((group u.chars).drop 9).take 4 ++
      ((group u.chars).drop 14).take 4 ++ ((group u.chars).drop 19).take 4 ++
      (group u.chars).drop 24 = u.chars := by
    rw [hchars, group_append hp hq hr hs]
    simp [List.drop_append, List.drop_of_length_le, hp, hq, hr, hs]
  rw [readGrouped?, hdigits, if_pos rfl, readSimple?_chars]

theorem hexChar_ne : ∀ d : Fin 16, Json.hexChar d.val ≠ '\x7b' ∧ (Json.hexChar d.val).toLower ≠ 'u' := by
  decide

/-- **An identifier is read back.** -/
theorem read?_text (u : Uuid) : read? u.text = some u := by
  obtain ⟨p, q, r, s, t, hchars, hp, hq, hr, hs, ht⟩ := exists_groups u.length_chars
  have hgroup := group_append (t := t) hp hq hr hs
  have hlength : (group u.chars).length ≠ 32 := by
    simp [hchars, hgroup, hp, hq, hr, hs, ht]
  obtain ⟨c, p, rfl⟩ := List.exists_cons_of_length_eq_add_one hp
  obtain ⟨d, -, hd⟩ : ∃ d ∈ u.digits, Json.hexChar d.val = c :=
    List.mem_map.mp (hchars ▸ List.mem_cons_self : c ∈ u.chars)
  obtain ⟨hbrace, hmark⟩ := hd ▸ hexChar_ne d
  obtain ⟨cs, hcs⟩ : ∃ cs, group u.chars = c :: cs := ⟨_, hchars ▸ hgroup⟩
  have hunmarked : ((c :: cs).take urnMark.length).map Char.toLower ≠ urnMark := fun h =>
    hmark (List.cons.inj (h : c.toLower :: _ = 'u' :: _)).1
  rw [read?, text, String.toList_ofList, hcs]
  split
  next h => exact absurd (List.cons.inj h).1 hbrace
  next =>
    rw [if_neg hunmarked, if_neg (hcs ▸ hlength), ← hcs]
    exact u.readGrouped?_group

end Uuid

/-! ### Clauses and answers -/

theorem Assertion.numbers_toJson (a : Assertion) : a.toJson.numbers = [] := by
  have hbody := Json.numbers_list fun x (_ : x ∈ a.clause.body) => x.numbers_toJson
  simp [toJson, Uuid.toJson, Json.numbers, Json.membersNumbers, hbody, Atom.numbers_toJson]

theorem Assertion.ofDocument?_toJson (a : Assertion) : ofDocument? a.toJson.toDocument = some a := by
  have hid : Uuid.ofDocument? a.id.toJson.toDocument = some a.id := a.id.read?_text
  have hbody : (Json.list Atom.toJson a.clause.body).toDocument.list? Atom.ofDocument? =
      some a.clause.body := Document.list?_toDocument fun x _ => x.ofDocument?_toJson
  have hrecord : a.toJson.toDocument.record? ["id", "head", "body"] = _ :=
    Document.record?_fields [("id", a.id.toJson.toDocument), ("head", a.clause.head.toJson.toDocument),
      ("body", (Json.list Atom.toJson a.clause.body).toDocument)] (by simp) (by simp)
  rw [ofDocument?, hrecord]
  simp [Record.field?, Record.find?, SortedMap.lookup, hid, Atom.ofDocument?_toJson, hbody]

theorem Binding.numbers_toJson (b : Binding) : (Binding.toJson b).numbers = [] := by
  refine List.eq_nil_iff_forall_not_mem.mpr fun n hn => ?_
  obtain ⟨e, -, hn⟩ := Json.mem_numbers_map.mp hn
  cases hn

theorem Binding.ofDocument?_toJson (b : Binding) :
    Binding.ofDocument? (Binding.toJson b).toDocument = some b :=
  Document.map?_toDocument fun _ _ => rfl

/-! ### Questions and intents -/

theorem Question.numbers_toJson (q : Question) : q.toJson.numbers = [] := by
  cases q <;> rfl

theorem Question.ofDocument?_toJson (q : Question) : ofDocument? q.toJson.toDocument = some q := by
  cases q <;> rfl

theorem Intent.numbers_toJson (i : Intent) : i.toJson.numbers = [] := by
  rcases i with _ | _ | (_ | _ | _) | _ <;> rfl

theorem Intent.ofDocument?_toJson (i : Intent) : ofDocument? i.toJson.toDocument = some i := by
  rcases i with _ | _ | (_ | _ | _) | _ <;> rfl

/-! ### All of them -/

/-- **Logical values survive JSON**: each is read back from its text, and two values of one type
never share one. A question intent is the question with one more tag in front. -/
theorem values_survive :
    Survives Term.toJson Term.ofDocument? ∧ Survives Atom.toJson Atom.ofDocument? ∧
      Survives Assertion.toJson Assertion.ofDocument? ∧ Survives Binding.toJson Binding.ofDocument? ∧
      Survives Question.toJson Question.ofDocument? ∧ Survives Intent.toJson Intent.ofDocument? ∧
      ∀ q : Question, ∃ kind fields,
        q.toJson = .object (("kind", .string kind) :: fields) ∧
        (Intent.question q).toJson =
          .object (("type", .string "question") :: ("kind", .string kind) :: fields) ∧
        (Document.read? (Intent.question q).toJson.compact).bind Intent.ofDocument? =
          some (.question q) := by
  have hintents := survives_of Intent.numbers_toJson Intent.ofDocument?_toJson
  refine ⟨survives_of Term.numbers_toJson Term.ofDocument?_toJson,
    survives_of Atom.numbers_toJson Atom.ofDocument?_toJson,
    survives_of Assertion.numbers_toJson Assertion.ofDocument?_toJson,
    survives_of Binding.numbers_toJson Binding.ofDocument?_toJson,
    survives_of Question.numbers_toJson Question.ofDocument?_toJson, hintents, fun q => ?_⟩
  have htags : ∃ kind fields, q.members = ("kind", .string kind) :: fields := by
    cases q <;> exact ⟨_, _, rfl⟩
  obtain ⟨kind, fields, hmembers⟩ := htags
  exact ⟨kind, fields, congrArg Json.object hmembers,
    congrArg (fun members => Json.object (("type", .string "question") :: members)) hmembers,
    hintents.compact (.question q)⟩

end HornReasoner
