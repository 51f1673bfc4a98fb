/-
# Written values are read back

A value is written with or without blanks between its parts. Either way the reader
gives back the document that says the value: strings through their escapes, numbers up
to what follows them, arrays and objects part by part (`Document.readValue_write`). The
reader takes at most two steps for a character, so it has steps enough for a text of any
length and nesting (`Document.read?_pretty`, `Document.read?_compact`).

Key definitions: `Layout`, `Layout.write`, `Json.numbers`.
Key theorems: `Document.readString_quoted`, `Document.readValue_write`,
`Document.read?_pretty`, `Document.read?_compact`.
-/
import HornReasoner.Proofs.Json.Numeral

namespace HornReasoner

variable {rest : List Char}

/-! ### Strings -/

namespace Document

open Json (escape quoted hexChar)

theorem hexDigit?_hexChar : ∀ n < 16, hexDigit? (hexChar n) = some n := by
  decide

/-- The pieces after a character, with this character before them. -/
def pieceThen (c : Char) (cs : List Char) : Option (List Piece × List Char) :=
  (readPieces cs).map fun r => (.char c :: r.1, r.2)

theorem readPieces_letter {e c : Char} (he : escaped? e = some c) (cs : List Char) :
    readPieces ('\\' :: e :: cs) = pieceThen c cs := by
  have hunit : e ≠ 'u' := by
    rintro rfl
    cases he
  unfold pieceThen
  rw [readPieces]
  · rw [he]
    cases readPieces cs <;> rfl
  · intro _ _ _ _ _ h
    exact absurd h hunit

/-- The sixteen bits of a control character. -/
theorem readPieces_control {c : Char} (hc : c < ' ') (cs : List Char) :
    readPieces ('\\' :: 'u' :: '0' :: '0' :: hexChar (c.toNat / 16) :: hexChar (c.toNat % 16) :: cs) =
      pieceThen c cs := by
  have hlow : c.toNat < 32 := hc
  have hunit : Piece.ofUnit (((0 * 16 + 0) * 16 + c.toNat / 16) * 16 + c.toNat % 16) = .char c := by
    have hvalue : ((0 * 16 + 0) * 16 + c.toNat / 16) * 16 + c.toNat % 16 = c.toNat := by omega
    rw [hvalue, Piece.ofUnit, if_neg (by omega), if_neg (by omega), Char.ofNat_toNat]
  unfold pieceThen
  rw [readPieces, hexDigit?_hexChar _ (by omega), hexDigit?_hexChar _ (by omega)]
  have hzero : hexDigit? '0' = some 0 := rfl
  simp only [hzero, Option.bind_eq_bind, Option.bind_some, hunit]
  cases readPieces cs <;> rfl

theorem readPieces_plain {c : Char} (hquote : c ≠ '"') (hback : c ≠ '\\') (hc : ¬ c < ' ')
    (cs : List Char) : readPieces (c :: cs) = pieceThen c cs := by
  unfold pieceThen
  rw [readPieces]
  · rw [if_neg (not_or.mpr ⟨hc, hback⟩)]
    cases readPieces cs <;> rfl
  · exact hquote
  · intro _ _ _ _ _ h
    exact absurd h hback
  · intro _ _ h
    exact absurd h hback

/-- A character is read back from its escape. -/
theorem readPieces_escape (c : Char) (cs : List Char) : readPieces (escape c ++ cs) = pieceThen c cs := by
  unfold escape
  by_cases hquote : c = '"'
  · subst hquote
    exact readPieces_letter rfl cs
  by_cases hback : c = '\\'
  · subst hback
    exact readPieces_letter rfl cs
  rw [if_neg hquote, if_neg hback]
  by_cases hbackspace : c = '\x08'
  · subst hbackspace
    exact readPieces_letter rfl cs
  by_cases hfeed : c = '\x0c'
  · subst hfeed
    exact readPieces_letter rfl cs
  by_cases hnewline : c = '\n'
  · subst hnewline
    exact readPieces_letter rfl cs
  by_cases hreturn : c = '\r'
  · subst hreturn
    exact readPieces_letter rfl cs
  by_cases htab : c = '\t'
  · subst htab
    exact readPieces_letter rfl cs
  rw [if_neg hbackspace, if_neg hfeed, if_neg hnewline, if_neg hreturn, if_neg htab]
  by_cases hcontrol : c < ' '
  · rw [if_pos hcontrol]
    exact readPieces_control hcontrol cs
  · rw [if_neg hcontrol]
    exact readPieces_plain hquote hback hcontrol cs

theorem readPieces_quoted (cs : List Char) :
    readPieces (cs.flatMap escape ++ '"' :: rest) = some (cs.map .char, rest) := by
  induction cs with
  | nil => rfl
  | cons c cs ih =>
    rw [List.flatMap_cons, List.append_assoc, readPieces_escape, pieceThen, ih]
    rfl

theorem joinPieces_chars : ∀ cs : List Char, joinPieces (cs.map .char) = some cs
  | [] => rfl
  | c :: cs => by rw [List.map_cons, joinPieces, joinPieces_chars cs]; rfl

/-- **A string is read back** from its text in quotes. -/
theorem readString_quoted (s : String) (rest : List Char) :
    ∃ cs, quoted s = '"' :: cs ∧ readString (cs ++ rest) = some (some s, rest) := by
  refine ⟨_, rfl, ?_⟩
  unfold readString
  rw [List.append_assoc]
  show (readPieces (s.toList.flatMap escape ++ '"' :: rest)).map _ = _
  rw [readPieces_quoted, Option.map_some]
  dsimp only
  rw [joinPieces_chars, Option.map_some, String.ofList_toList]

end Document

/-! ### Numbers of a value -/

/-- A number starts with a digit or a minus sign. -/
theorem Number.ReadsBack.exists_cons {n : Number} (hn : n.ReadsBack) :
    ∃ c cs, Json.numberText n = c :: cs ∧ (c = '-' ∨ c.isDigit = true) := by
  have hread := hn [] endsNumeral_nil
  rw [List.append_nil] at hread
  cases htext : Json.numberText n with
  | nil =>
    rw [htext] at hread
    cases hread
  | cons c cs =>
    refine ⟨c, cs, rfl, or_iff_not_imp_left.mpr fun hc => ?_⟩
    have hhead : ∀ d ∈ (c :: cs).head?, d ≠ '-' := fun d hd => Option.some.inj hd ▸ hc
    rw [htext, Document.readNumber_of_head_ne hhead] at hread
    by_contra hdigit
    have hzero : c ≠ '0' := by
      rintro rfl
      exact hdigit rfl
    have hwhole : Document.readWhole (c :: cs) = none := by
      rw [Document.readWhole, if_neg hdigit]
      exact hzero
    rw [Document.readUnsigned, hwhole] at hread
    cases hread

namespace Json

mutual

/-- The numbers of a value. -/
def numbers : Json → List Number
  | .number n => [n]
  | .array items => itemsNumbers items
  | .object members => membersNumbers members
  | _ => []

/-- The numbers of the items. -/
def itemsNumbers : List Json → List Number
  | [] => []
  | j :: js => numbers j ++ itemsNumbers js

/-- The numbers of the members. -/
def membersNumbers : List (String × Json) → List Number
  | [] => []
  | (_, j) :: ms => numbers j ++ membersNumbers ms

end

end Json

/-! ### Two ways of writing -/

/-- How the parts of arrays and objects are set apart: what stands before a part at each depth, and
what stands after a colon. -/
structure Layout where
  gap : Nat → List Char
  colon : List Char
  gapSpaces : ∀ d, ∀ c ∈ gap d, Document.isSpace c = true
  colonSpaces : ∀ c ∈ colon, Document.isSpace c = true

namespace Layout

open Json (numberText boolText quoted)

variable (l : Layout)

mutual

/-- The text of a value at a depth. -/
def write : Nat → Json → List Char
  | _, .null => "null".toList
  | _, .bool b => boolText b
  | _, .number n => numberText n
  | _, .string s => quoted s
  | _, .array [] => ['[', ']']
  | d, .array (j :: js) => '[' :: (l.gap (d + 1) ++ write (d + 1) j ++ writeItems d js)
  | _, .object [] => ['{', '}']
  | d, .object ((k, j) :: ms) =>
    '{' :: (l.gap (d + 1) ++ quoted k ++ ':' :: (l.colon ++ write (d + 1) j) ++ writeMembers d ms)

/-- The items after the first, each after a comma, and the closing bracket. -/
def writeItems : Nat → List Json → List Char
  | d, [] => l.gap d ++ [']']
  | d, j :: js => ',' :: (l.gap (d + 1) ++ write (d + 1) j ++ writeItems d js)

/-- The members after the first, each after a comma, and the closing brace. -/
def writeMembers : Nat → List (String × Json) → List Char
  | d, [] => l.gap d ++ ['}']
  | d, (k, j) :: ms =>
    ',' :: (l.gap (d + 1) ++ quoted k ++ ':' :: (l.colon ++ write (d + 1) j) ++ writeMembers d ms)

end

/-- Each part on a line of its own. -/
def indented : Layout where
  gap := Json.newline
  colon := [' ']
  gapSpaces d c hc := by
    rcases List.mem_cons.mp hc with rfl | hc
    · rfl
    · rw [List.eq_of_mem_replicate hc]
      rfl
  colonSpaces c hc := by
    rw [List.mem_singleton.mp hc]
    rfl

/-- No blank anywhere. -/
def dense : Layout where
  gap _ := []
  colon := []
  gapSpaces _ _ hc := absurd hc List.not_mem_nil
  colonSpaces _ hc := absurd hc List.not_mem_nil

mutual

theorem prettyList_eq : ∀ (d : Nat) (j : Json), j.prettyList d = indented.write d j
  | _, .null => rfl
  | _, .bool _ => rfl
  | _, .number _ => rfl
  | _, .string _ => rfl
  | _, .array [] => rfl
  | d, .array (j :: js) => by
    rw [Json.prettyList, write, prettyList_eq (d + 1) j, prettyItems_eq d js]
    rfl
  | _, .object [] => rfl
  | d, .object ((k, j) :: ms) => by
    rw [Json.prettyList, write, prettyList_eq (d + 1) j, prettyMembers_eq d ms]
    rfl

theorem prettyItems_eq : ∀ (d : Nat) (js : List Json), Json.prettyItems d js = indented.writeItems d js
  | _, [] => rfl
  | d, j :: js => by
    rw [Json.prettyItems, writeItems, prettyList_eq (d + 1) j, prettyItems_eq d js]
    rfl

theorem prettyMembers_eq : ∀ (d : Nat) (ms : List (String × Json)),
    Json.prettyMembers d ms = indented.writeMembers d ms
  | _, [] => rfl
  | d, (k, j) :: ms => by
    rw [Json.prettyMembers, writeMembers, prettyList_eq (d + 1) j, prettyMembers_eq d ms]
    rfl

end

mutual

theorem compactList_eq : ∀ (d : Nat) (j : Json), j.compactList = dense.write d j
  | _, .null => rfl
  | _, .bool _ => rfl
  | _, .number _ => rfl
  | _, .string _ => rfl
  | _, .array [] => rfl
  | d, .array (j :: js) => by
    rw [Json.compactList, write, compactList_eq (d + 1) j, compactItems_eq d js]
    rfl
  | _, .object [] => rfl
  | d, .object ((k, j) :: ms) => by
    rw [Json.compactList, write, compactList_eq (d + 1) j, compactMembers_eq d ms]
    rfl

theorem compactItems_eq : ∀ (d : Nat) (js : List Json), Json.compactItems js = dense.writeItems d js
  | _, [] => rfl
  | d, j :: js => by
    rw [Json.compactItems, writeItems, compactList_eq (d + 1) j, compactItems_eq d js]
    rfl

theorem compactMembers_eq : ∀ (d : Nat) (ms : List (String × Json)),
    Json.compactMembers ms = dense.writeMembers d ms
  | _, [] => rfl
  | d, (k, j) :: ms => by
    rw [Json.compactMembers, writeMembers, compactList_eq (d + 1) j, compactMembers_eq d ms]
    rfl

end

end Layout

/-! ### Values -/

namespace Document

variable {cs : List Char}

theorem skipSpace_append (hcs : ∀ c ∈ cs, isSpace c = true) (rest : List Char) :
    skipSpace (cs ++ rest) = skipSpace rest :=
  List.dropWhile_append_of_pos hcs

theorem skipSpace_cons {c : Char} (hc : isSpace c = false) (cs : List Char) :
    skipSpace (c :: cs) = c :: cs :=
  List.dropWhile_cons_of_neg (by simp [hc])

theorem readValue_append (hcs : ∀ c ∈ cs, isSpace c = true) (n : Nat) (rest : List Char) :
    readValue n (cs ++ rest) = readValue n rest := by
  cases n with
  | zero => rfl
  | succ n => rw [readValue, readValue, skipSpace_append hcs]

theorem readItems_append (hcs : ∀ c ∈ cs, isSpace c = true) (n : Nat) (rest : List Char) :
    readItems n (cs ++ rest) = readItems n rest := by
  cases n with
  | zero => rfl
  | succ n => rw [readItems, readItems, readValue_append hcs]

theorem readMembers_append (hcs : ∀ c ∈ cs, isSpace c = true) (n : Nat) (rest : List Char) :
    readMembers n (cs ++ rest) = readMembers n rest := by
  cases n with
  | zero => rfl
  | succ n => rw [readMembers, readMembers, skipSpace_append hcs]

/-- The items after one that was read, and the closing bracket. -/
def readMoreItems (n : Nat) (cs : List Char) : Option (List Document × List Char) :=
  match skipSpace cs with
  | ',' :: cs => readItems n cs
  | ']' :: cs => some ([], cs)
  | _ => none

/-- The members after one that was read, and the closing brace. -/
def readMoreMembers (n : Nat) (cs : List Char) :
    Option (List (Option String × Document) × List Char) :=
  match skipSpace cs with
  | ',' :: cs => readMembers n cs
  | '}' :: cs => some ([], cs)
  | _ => none

theorem readItems_succ {n : Nat} {d : Document} (h : readValue n cs = some (d, rest)) :
    readItems (n + 1) cs = (readMoreItems n rest).map fun r => (d :: r.1, r.2) := by
  rw [readItems, h, readMoreItems]
  simp only [Option.bind_eq_bind, Option.bind_some]
  cases skipSpace rest with
  | nil => rfl
  | cons c more =>
    by_cases hcomma : c = ','
    · subst hcomma
      show ((readItems n more).bind fun r => some (d :: r.1, r.2)) = (readItems n more).map _
      cases readItems n more <;> rfl
    · by_cases hbracket : c = ']'
      · subst hbracket
        rfl
      · simp [hcomma, hbracket]

/-- A member is read by its key and its value, and then those after it are read. -/
theorem readMembers_succ {n : Nat} {d : Document} (k : String) {more : List Char}
    (hcs : ∀ c ∈ cs, isSpace c = true) (h : readValue n more = some (d, rest)) :
    readMembers (n + 1) (Json.quoted k ++ ':' :: (cs ++ more)) =
      (readMoreMembers n rest).map fun r => ((some k, d) :: r.1, r.2) := by
  obtain ⟨text, hquoted, hread⟩ := readString_quoted k (':' :: (cs ++ more))
  have hquote : skipSpace (Json.quoted k ++ ':' :: (cs ++ more)) = '"' :: (text ++ ':' :: (cs ++ more)) := by
    rw [hquoted]
    exact skipSpace_cons rfl _
  have hcolon : skipSpace (':' :: (cs ++ more)) = ':' :: (cs ++ more) := skipSpace_cons rfl _
  rw [readMembers, hquote, readMoreMembers]
  simp only [hread, hcolon, readValue_append hcs, h, Option.bind_eq_bind, Option.bind_some]
  cases skipSpace rest with
  | nil => rfl
  | cons c more =>
    by_cases hcomma : c = ','
    · subst hcomma
      show ((readMembers n more).bind fun r => some ((some k, d) :: r.1, r.2)) = (readMembers n more).map _
      cases readMembers n more <;> rfl
    · by_cases hbrace : c = '}'
      · subst hbrace
        rfl
      · simp [hcomma, hbrace]

/-- What starts a number starts nothing else. -/
theorem ne_of_starts_number {c : Char} (hc : c = '-' ∨ c.isDigit = true) {d : Char}
    (hd : (decide (d = '-') || d.isDigit) = false) : c ≠ d := by
  rintro rfl
  rcases hc with hc | hc <;> simp [hc] at hd

theorem isSpace_of_starts_number {c : Char} (hc : c = '-' ∨ c.isDigit = true) : isSpace c = false := by
  simp [isSpace, ne_of_starts_number hc]

theorem readValue_number {n : Nat} {c : Char} (hc : c = '-' ∨ c.isDigit = true) (cs : List Char) :
    readValue (n + 1) (c :: cs) = (readNumber (c :: cs)).map fun r => (.number r.1, r.2) := by
  rw [readValue, skipSpace_cons (isSpace_of_starts_number hc)]
  split
  case h_7 => rfl
  all_goals
    next h =>
    exact absurd (List.cons.inj h).1 (ne_of_starts_number hc rfl)

theorem readValue_array {n : Nat} {c : Char} {more : List Char} (hcs : skipSpace cs = c :: more)
    (hc : c ≠ ']') :
    readValue (n + 1) ('[' :: cs) = (readItems n (c :: more)).map fun r => (.array r.1, r.2) := by
  rw [readValue, skipSpace_cons rfl]
  split
  case h_2 h =>
    obtain rfl := (List.cons.inj h).2
    rw [hcs]
    split
    · next he => exact absurd (List.cons.inj he).1 hc
    · rfl
  case h_7 hother _ _ _ _ => exact (hother cs rfl).elim
  all_goals
    next h =>
    exact absurd (List.cons.inj h).1 (by decide)

theorem readValue_object {n : Nat} {more : List Char} (hcs : skipSpace cs = '"' :: more) :
    readValue (n + 1) ('{' :: cs) = (readMembers n ('"' :: more)).map fun r => (.object r.1, r.2) := by
  rw [readValue, skipSpace_cons rfl]
  split
  case h_1 h =>
    obtain rfl := (List.cons.inj h).2
    rw [hcs]
    rfl
  case h_7 hother _ _ _ _ _ => exact (hother cs rfl).elim
  all_goals
    next h =>
    exact absurd (List.cons.inj h).1 (by decide)

variable (l : Layout)

/-- A value starts with a character that is no blank and closes no array. -/
theorem exists_write_cons {j : Json} (hj : ∀ n ∈ j.numbers, n.ReadsBack) (d : Nat) :
    ∃ c cs, l.write d j = c :: cs ∧ isSpace c = false ∧ c ≠ ']' := by
  cases j with
  | null => exact ⟨'n', _, rfl, rfl, by decide⟩
  | bool b =>
    cases b
    · exact ⟨'f', _, rfl, rfl, by decide⟩
    · exact ⟨'t', _, rfl, rfl, by decide⟩
  | number n =>
    obtain ⟨c, cs, htext, hc⟩ := (hj n List.mem_cons_self).exists_cons
    exact ⟨c, cs, htext, isSpace_of_starts_number hc, ne_of_starts_number hc rfl⟩
  | string s => exact ⟨'"', _, rfl, rfl, by decide⟩
  | array items =>
    cases items with
    | nil => exact ⟨'[', _, rfl, rfl, by decide⟩
    | cons j js => exact ⟨'[', _, rfl, rfl, by decide⟩
  | object members =>
    cases members with
    | nil => exact ⟨'{', _, rfl, rfl, by decide⟩
    | cons m ms => exact ⟨'{', _, rfl, rfl, by decide⟩

/-- A row of spaces and a comma or a bracket end a numeral. -/
theorem endsNumeral_append {gap : List Char} (hgap : ∀ c ∈ gap, isSpace c = true) {cs : List Char}
    (hcs : EndsNumeral cs) : EndsNumeral (gap ++ cs) := by
  cases gap with
  | nil => exact hcs
  | cons c gap =>
    have hc := hgap c List.mem_cons_self
    refine endsNumeral_cons ?_
    unfold isSpace at hc
    simp only [Bool.or_eq_true, beq_iff_eq] at hc
    rcases hc with ((rfl | rfl) | rfl) | rfl <;> decide

theorem endsNumeral_writeItems (d : Nat) (js : List Json) (rest : List Char) :
    EndsNumeral (l.writeItems d js ++ rest) := by
  cases js with
  | nil =>
    rw [Layout.writeItems, List.append_assoc]
    exact endsNumeral_append (l.gapSpaces d) (endsNumeral_cons (by decide))
  | cons j js => exact endsNumeral_cons (by decide)

theorem endsNumeral_writeMembers (d : Nat) (ms : List (String × Json)) (rest : List Char) :
    EndsNumeral (l.writeMembers d ms ++ rest) := by
  cases ms with
  | nil =>
    rw [Layout.writeMembers, List.append_assoc]
    exact endsNumeral_append (l.gapSpaces d) (endsNumeral_cons (by decide))
  | cons m ms => exact endsNumeral_cons (by decide)

mutual

/-- **A written value is read back**, up to its end, in two steps for each character. -/
theorem readValue_write : ∀ (j : Json) (d n : Nat) (rest : List Char),
    (∀ m ∈ j.numbers, m.ReadsBack) → EndsNumeral rest → 2 * (l.write d j).length ≤ n →
      readValue n (l.write d j ++ rest) = some (j.toDocument, rest)
  | j, d, 0, rest, hj, _, hn => by
    obtain ⟨c, cs, hcons, -⟩ := exists_write_cons l hj d
    rw [hcons] at hn
    simp at hn
  | .null, d, n + 1, rest, _, _, _ => rfl
  | .bool false, d, n + 1, rest, _, _, _ => rfl
  | .bool true, d, n + 1, rest, _, _, _ => rfl
  | .number m, d, n + 1, rest, hj, hrest, _ => by
    have hm := hj m List.mem_cons_self
    obtain ⟨c, cs, htext, hc⟩ := hm.exists_cons
    have hread := hm rest hrest
    rw [htext, List.cons_append] at hread
    rw [Layout.write, htext, List.cons_append, readValue_number hc, hread]
    rfl
  | .string s, d, n + 1, rest, _, _, _ => by
    obtain ⟨cs, hquoted, hread⟩ := readString_quoted s rest
    rw [Layout.write, hquoted]
    show (readString (cs ++ rest)).map _ = _
    rw [hread]
    rfl
  | .array [], d, n + 1, rest, _, _, _ => rfl
  | .array (j :: js), d, n + 1, rest, hj, _, hn => by
    rw [Layout.write] at hn ⊢
    simp only [List.length_cons, List.length_append] at hn
    obtain ⟨n, rfl⟩ : ∃ m, n = m + 1 := ⟨n - 1, by omega⟩
    have hfirst : ∀ m ∈ j.numbers, m.ReadsBack := fun m hm => hj m (List.mem_append_left _ hm)
    have hvalue := readValue_write j (d + 1) n (l.writeItems d js ++ rest) hfirst
      (endsNumeral_writeItems l d js rest) (by omega)
    have hmore := readMoreItems_write js d n rest (fun m hm => hj m (List.mem_append_right _ hm)) (by omega)
    obtain ⟨c, cs, hcons, hspace, hbracket⟩ := exists_write_cons l hfirst (d + 1)
    rw [hcons, List.cons_append] at hvalue
    rw [List.cons_append, List.append_assoc, List.append_assoc, hcons, List.cons_append,
      readValue_array ((skipSpace_append (l.gapSpaces (d + 1)) _).trans (skipSpace_cons hspace _)) hbracket,
      readItems_succ hvalue, hmore]
    rfl
  | .object [], d, n + 1, rest, _, _, _ => rfl
  | .object ((k, j) :: ms), d, n + 1, rest, hj, _, hn => by
    rw [Layout.write] at hn ⊢
    simp only [List.length_cons, List.length_append] at hn
    obtain ⟨n, rfl⟩ : ∃ m, n = m + 1 := ⟨n - 1, by omega⟩
    have hvalue := readValue_write j (d + 1) n (l.writeMembers d ms ++ rest)
      (fun m hm => hj m (List.mem_append_left _ hm)) (endsNumeral_writeMembers l d ms rest) (by omega)
    have hmore := readMoreMembers_write ms d n rest (fun m hm => hj m (List.mem_append_right _ hm))
      (by omega)
    have hmembers := readMembers_succ k l.colonSpaces hvalue
    obtain ⟨cs, hquoted, -⟩ := readString_quoted k rest
    rw [hquoted, List.cons_append] at hmembers
    simp only [List.cons_append, List.append_assoc, hquoted]
    rw [readValue_object ((skipSpace_append (l.gapSpaces (d + 1)) _).trans (skipSpace_cons rfl _)),
      hmembers, hmore]
    rfl

theorem readMoreItems_write : ∀ (js : List Json) (d n : Nat) (rest : List Char),
    (∀ m ∈ Json.itemsNumbers js, m.ReadsBack) → 2 * (l.writeItems d js).length ≤ n + 1 →
      readMoreItems n (l.writeItems d js ++ rest) = some (Json.itemsToDocuments js, rest)
  | [], d, n, rest, _, _ => by
    rw [Layout.writeItems, List.append_assoc, readMoreItems, skipSpace_append (l.gapSpaces d)]
    rfl
  | j :: js, d, n, rest, hjs, hn => by
    rw [Layout.writeItems] at hn ⊢
    simp only [List.length_cons, List.length_append] at hn
    obtain ⟨n, rfl⟩ : ∃ m, n = m + 1 := ⟨n - 1, by omega⟩
    have hvalue := readValue_write j (d + 1) n (l.writeItems d js ++ rest)
      (fun m hm => hjs m (List.mem_append_left _ hm)) (endsNumeral_writeItems l d js rest) (by omega)
    have hmore := readMoreItems_write js d n rest (fun m hm => hjs m (List.mem_append_right _ hm))
      (by omega)
    rw [List.cons_append, readMoreItems, skipSpace_cons rfl, List.append_assoc, List.append_assoc]
    show readItems (n + 1) _ = _
    rw [readItems_append (l.gapSpaces (d + 1)), readItems_succ hvalue, hmore]
    rfl

theorem readMoreMembers_write : ∀ (ms : List (String × Json)) (d n : Nat) (rest : List Char),
    (∀ m ∈ Json.membersNumbers ms, m.ReadsBack) → 2 * (l.writeMembers d ms).length ≤ n + 1 →
      readMoreMembers n (l.writeMembers d ms ++ rest) = some (Json.membersToDocuments ms, rest)
  | [], d, n, rest, _, _ => by
    rw [Layout.writeMembers, List.append_assoc, readMoreMembers, skipSpace_append (l.gapSpaces d)]
    rfl
  | (k, j) :: ms, d, n, rest, hms, hn => by
    rw [Layout.writeMembers] at hn ⊢
    simp only [List.length_cons, List.length_append] at hn
    obtain ⟨n, rfl⟩ : ∃ m, n = m + 1 := ⟨n - 1, by omega⟩
    have hvalue := readValue_write j (d + 1) n (l.writeMembers d ms ++ rest)
      (fun m hm => hms m (List.mem_append_left _ hm)) (endsNumeral_writeMembers l d ms rest) (by omega)
    have hmore := readMoreMembers_write ms d n rest (fun m hm => hms m (List.mem_append_right _ hm))
      (by omega)
    simp only [List.cons_append, List.append_assoc]
    rw [readMoreMembers, skipSpace_cons rfl]
    show readMembers (n + 1) _ = _
    rw [readMembers_append (l.gapSpaces (d + 1)), readMembers_succ k l.colonSpaces hvalue, hmore]
    rfl

end

/-- A value written either way is all that its text says. -/
theorem readList?_write {j : Json} (hj : ∀ n ∈ j.numbers, n.ReadsBack) :
    readList? (l.write 0 j) = some j.toDocument := by
  have hread := readValue_write l j 0 (2 * (l.write 0 j).length + 2) [] hj endsNumeral_nil (by omega)
  rw [List.append_nil] at hread
  rw [readList?, hread]
  rfl

/-- **The indented text of a value is read back.** -/
theorem read?_pretty {j : Json} (hj : ∀ n ∈ j.numbers, n.ReadsBack) :
    read? j.pretty = some j.toDocument := by
  rw [read?, Json.pretty, String.toList_ofList, Layout.prettyList_eq, readList?_write _ hj]

/-- **The text of a value without blanks is read back.** -/
theorem read?_compact {j : Json} (hj : ∀ n ∈ j.numbers, n.ReadsBack) :
    read? j.compact = some j.toDocument := by
  rw [read?, Json.compact, String.toList_ofList, Layout.compactList_eq 0, readList?_write _ hj]

end Document

end HornReasoner
