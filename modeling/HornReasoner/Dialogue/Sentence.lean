/-
# Sentences

Five shapes of sentences are understood. Words are runs of ASCII letters with
blanks between them, and the final mark follows the last word at once:

- `socrates is human.` is a fact,
- `socrates teaches plato.` is a relation,
- `Is socrates mortal?`, `Who is human?` and `What is socrates?` are questions.

Names are put into small letters; the words that make the shape must stand as
shown. Any other text is unknown and kept without the blanks at its ends.

Key definitions: `Sentence.words`, `Sentence.statement?`, `Sentence.question?`,
`Sentence.read`.
-/
import HornReasoner.Dialogue.Intent

namespace HornReasoner
namespace Sentence

/-- The runs of characters between blanks. -/
def words : List Char → List (List Char)
  | [] => []
  | c :: cs =>
    if Text.isBlank c then words cs
    else
      match cs.head?, words cs with
      | some d, w :: ws => if Text.isBlank d then [c] :: w :: ws else (c :: w) :: ws
      | _, ws => [c] :: ws

/-- A word as a name: in small letters. -/
def name (w : List Char) : String :=
  String.ofList (w.map Char.toLower)

/-- The three words of a sentence before its mark; each consists of letters, and no blank stands
before the mark. -/
def threeWords? (body : List Char) : Option (List Char × List Char × List Char) :=
  if body.getLast?.any Text.isBlank then none
  else
    match words body with
    | [a, b, c] =>
      if a.all Char.isAlpha && b.all Char.isAlpha && c.all Char.isAlpha then some (a, b, c) else none
    | _ => none

/-- The meaning of three words with a full stop. -/
def statement? (body : List Char) : Option Intent :=
  (threeWords? body).map fun (a, b, c) =>
    if b = ['i', 's'] then .fact (name a) (name c) else .relation (name a) (name b) (name c)

/-- The meaning of three words with a question mark. -/
def question? (body : List Char) : Option Intent :=
  (threeWords? body).bind fun (a, b, c) =>
    if a = ['I', 's'] then some (.question (.yesNo (name b) (name c)))
    else if b = ['i', 's'] then
      if a = ['W', 'h', 'o'] then some (.question (.who (name c)))
      else if a = ['W', 'h', 'a', 't'] then some (.question (.what (name c)))
      else none
    else none

/-- The meaning of a text without blanks at its ends, if it has one of the five shapes. -/
def shape? (cs : List Char) : Option Intent :=
  match cs.getLast? with
  | some '.' => statement? cs.dropLast
  | some '?' => question? cs.dropLast
  | _ => none

/-- The meaning of a text. -/
def read (s : String) : Intent :=
  let cs := Text.trimList s.toList
  (shape? cs).getD (.unknown (String.ofList cs))

end Sentence
end HornReasoner
