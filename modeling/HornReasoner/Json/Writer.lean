/-
# Writing JSON

A value has a compact text without blanks and a pretty one with each item and
member on a line of its own, two spaces deeper than what holds it. Only quotes,
backslashes and the characters below the space are escaped.

Key definitions: `Json.compact`, `Json.pretty`, `Json.quoted`.
-/
import HornReasoner.Json.Value
import HornReasoner.Decimal.Text

namespace HornReasoner
namespace Json

/-- A hexadecimal digit in lower case. -/
def hexChar (n : Nat) : Char :=
  if n < 10 then Char.ofNat ('0'.toNat + n) else Char.ofNat ('a'.toNat + (n - 10))

/-- How a character is written inside quotes. -/
def escape (c : Char) : List Char :=
  if c = '"' then ['\\', '"']
  else if c = '\\' then ['\\', '\\']
  else if c = '\x08' then ['\\', 'b']
  else if c = '\x0c' then ['\\', 'f']
  else if c = '\n' then ['\\', 'n']
  else if c = '\r' then ['\\', 'r']
  else if c = '\t' then ['\\', 't']
  else if c < ' ' then ['\\', 'u', '0', '0', hexChar (c.toNat / 16), hexChar (c.toNat % 16)]
  else [c]

/-- A string in quotes. -/
def quoted (s : String) : List Char :=
  '"' :: (s.toList.flatMap escape ++ ['"'])

/-- The text of a number: an integer has digits only, a float always a point or an exponent. -/
def numberText : Number → List Char
  | .int i => (Decimal.intText i).toList
  | .float x => (Decimal.compact x).toList

/-- The text of a leaf. -/
def boolText (b : Bool) : List Char :=
  if b then "true".toList else "false".toList

mutual

/-- The text without blanks. -/
def compactList : Json → List Char
  | .null => "null".toList
  | .bool b => boolText b
  | .number n => numberText n
  | .string s => quoted s
  | .array [] => ['[', ']']
  | .array (j :: js) => '[' :: (compactList j ++ compactItems js)
  | .object [] => ['{', '}']
  | .object ((k, j) :: ms) => '{' :: (quoted k ++ ':' :: compactList j ++ compactMembers ms)

/-- The items after the first, each after a comma, and the closing bracket. -/
def compactItems : List Json → List Char
  | [] => [']']
  | j :: js => ',' :: (compactList j ++ compactItems js)

/-- The members after the first, each after a comma, and the closing brace. -/
def compactMembers : List (String × Json) → List Char
  | [] => ['}']
  | (k, j) :: ms => ',' :: (quoted k ++ ':' :: compactList j ++ compactMembers ms)

end

/-- The text without blanks. -/
def compact (j : Json) : String :=
  String.ofList j.compactList

/-- A line end and the indentation of a depth. -/
def newline (depth : Nat) : List Char :=
  '\n' :: List.replicate (2 * depth) ' '

mutual

/-- The indented text of a value at a depth. -/
def prettyList : Nat → Json → List Char
  | _, .null => "null".toList
  | _, .bool b => boolText b
  | _, .number n => numberText n
  | _, .string s => quoted s
  | _, .array [] => ['[', ']']
  | d, .array (j :: js) => '[' :: (newline (d + 1) ++ prettyList (d + 1) j ++ prettyItems d js)
  | _, .object [] => ['{', '}']
  | d, .object ((k, j) :: ms) =>
    '{' :: (newline (d + 1) ++ quoted k ++ ':' :: ' ' :: prettyList (d + 1) j ++ prettyMembers d ms)

/-- The items after the first, each on a line after a comma, and the closing bracket. -/
def prettyItems : Nat → List Json → List Char
  | d, [] => newline d ++ [']']
  | d, j :: js => ',' :: (newline (d + 1) ++ prettyList (d + 1) j ++ prettyItems d js)

/-- The members after the first, each on a line after a comma, and the closing brace. -/
def prettyMembers : Nat → List (String × Json) → List Char
  | d, [] => newline d ++ ['}']
  | d, (k, j) :: ms =>
    ',' :: (newline (d + 1) ++ quoted k ++ ':' :: ' ' :: prettyList (d + 1) j ++ prettyMembers d ms)

end

/-- The indented text. -/
def pretty (j : Json) : String :=
  String.ofList (j.prettyList 0)

end Json
end HornReasoner
