/-
# Blank characters and trimming

A character is blank when it has the Unicode property `White_Space`. Readers of
clauses and sentences skip blanks between words, and a name that consists of
blanks only names nothing.

Key definitions: `Text.isBlank`, `Text.trim`, `Text.isBlankText`.
Key theorems: `Text.trimList_eq_nil_iff`, `Text.isBlankText_iff_trim_eq`,
`Text.isBlankText_eq_false_iff`.
-/
namespace HornReasoner
namespace Text

/-- The characters with the Unicode property `White_Space`. -/
def isBlank (c : Char) : Bool :=
  ('\t' ≤ c && c ≤ '\r') || c == ' ' || c == '\u0085' || c == '\u00a0' || c == '\u1680' ||
    ('\u2000' ≤ c && c ≤ '\u200a') || c == '\u2028' || c == '\u2029' || c == '\u202f' ||
    c == '\u205f' || c == '\u3000'

/-- The characters between the first and the last that is not blank. -/
def trimList (cs : List Char) : List Char :=
  ((cs.dropWhile isBlank).reverse.dropWhile isBlank).reverse

/-- A text without the blanks at either end. -/
def trim (s : String) : String :=
  String.ofList (trimList s.toList)

/-- A text that holds blanks only; the empty text is one. -/
def isBlankText (s : String) : Bool :=
  s.toList.all isBlank

theorem dropWhile_eq_nil_iff_all {p : Char → Bool} :
    ∀ {cs : List Char}, cs.dropWhile p = [] ↔ cs.all p = true
  | [] => by simp
  | c :: cs => by
    cases hc : p c
    · simp [hc]
    · simp [hc, @dropWhile_eq_nil_iff_all p cs]

/-- Trimming leaves nothing exactly of a text of blanks. -/
theorem trimList_eq_nil_iff {cs : List Char} : trimList cs = [] ↔ cs.all isBlank = true := by
  constructor
  · intro h
    have h1 : ((cs.dropWhile isBlank).reverse.all isBlank) = true :=
      dropWhile_eq_nil_iff_all.1 (by simpa [trimList] using h)
    rw [List.all_reverse] at h1
    have h2 : cs.takeWhile isBlank ++ cs.dropWhile isBlank = cs := List.takeWhile_append_dropWhile
    rw [← h2, List.all_append, h1, Bool.and_true, List.all_takeWhile]
  · intro h
    simp [trimList, dropWhile_eq_nil_iff_all.2 h]

theorem isBlankText_iff_trim_eq {s : String} : isBlankText s = true ↔ trim s = "" := by
  rw [isBlankText, ← trimList_eq_nil_iff, trim]
  constructor
  · intro h
    rw [h, String.ofList_nil]
  · intro h
    simpa using congrArg String.toList h

theorem isBlankText_eq_false_iff {s : String} : isBlankText s = false ↔ trim s ≠ "" := by
  rw [Ne, ← isBlankText_iff_trim_eq, Bool.not_eq_true]

end Text
end HornReasoner
