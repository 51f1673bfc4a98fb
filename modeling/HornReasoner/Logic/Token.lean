/-
# Tokens of clauses

The text of a clause is a row of names and marks with blanks between them. A name
is a longest run of ASCII letters, digits and underscores. Positions count UTF-8
bytes from the start of the text.

Key definitions: `Token`, `Fault`, `SyntaxError`, `tokens`.
-/
import HornReasoner.Text.Blank

namespace HornReasoner

/-- A name or mark of a clause. -/
inductive Token
  | name (chars : List Char)
  | opening
  | closing
  | comma
  | neck
  | stop
  deriving DecidableEq, Repr

namespace Token

/-- The token in single quotes. -/
def describe : Token → String
  | name cs => "'" ++ String.ofList cs ++ "'"
  | opening => "'('"
  | closing => "')'"
  | comma => "','"
  | neck => "':-'"
  | stop => "'.'"

end Token

/-- What a clause needs next. -/
inductive Wanted
  | name
  | opening
  | closing
  | stop
  deriving DecidableEq, Repr

/-- The wanted token in words. -/
def Wanted.describe : Wanted → String
  | name => "a name"
  | opening => Token.opening.describe
  | closing => Token.closing.describe
  | stop => Token.stop.describe

/-- Why a text is no clause. -/
inductive Fault
  | loneColon
  | strayCharacter (c : Char)
  | missing (wanted : Wanted) (found : Option Token)
  | trailing (found : Token)
  deriving DecidableEq, Repr

/-- The fault in words. -/
def Fault.message : Fault → String
  | loneColon => "expected ':-'"
  | strayCharacter c => "unexpected character '" ++ String.ofList [c] ++ "'"
  | missing wanted (some found) => "expected " ++ wanted.describe ++ " but found " ++ found.describe
  | missing wanted none => "expected " ++ wanted.describe ++ " but input ended"
  | trailing found => "unexpected trailing " ++ found.describe

/-- A fault and the position where it shows. -/
structure SyntaxError where
  offset : Nat
  fault : Fault
  deriving DecidableEq, Repr

/-- The error in words. -/
def SyntaxError.message (e : SyntaxError) : String :=
  "syntax error at offset " ++ String.ofList (Nat.toDigits 10 e.offset) ++ ": " ++ e.fault.message

/-- The characters of names. -/
def isNameChar (c : Char) : Bool :=
  c.isAlphanum || c == '_'

/-- Puts a name character before the tokens that follow it: it joins a name that starts right after
it and is a name of its own otherwise. -/
def joinName (offset : Nat) (c : Char) : List (Nat × Token) → List (Nat × Token)
  | (o, .name cs) :: ts =>
    if o = offset + 1 then (offset, .name (c :: cs)) :: ts
    else (offset, .name [c]) :: (o, .name cs) :: ts
  | ts => (offset, .name [c]) :: ts

/-- The tokens of a text that starts at a position, each with its own position. The first character
that no token can hold is the fault. -/
def tokens (offset : Nat) : List Char → Except SyntaxError (List (Nat × Token))
  | [] => .ok []
  | ':' :: '-' :: cs => ((offset, .neck) :: ·) <$> tokens (offset + 2) cs
  | c :: cs =>
    if Text.isBlank c then tokens (offset + c.utf8Size) cs
    else if isNameChar c then joinName offset c <$> tokens (offset + 1) cs
    else
      match c with
      | '(' => ((offset, .opening) :: ·) <$> tokens (offset + 1) cs
      | ')' => ((offset, .closing) :: ·) <$> tokens (offset + 1) cs
      | ',' => ((offset, .comma) :: ·) <$> tokens (offset + 1) cs
      | '.' => ((offset, .stop) :: ·) <$> tokens (offset + 1) cs
      | ':' => .error ⟨offset, .loneColon⟩
      | c => .error ⟨offset, .strayCharacter c⟩

end HornReasoner
