/-
# Reading JSON

The strict grammar: no comment, no trailing comma, no plus sign or leading zero,
no control character in a string, and nothing but blanks around the value. Only
space, tab and the two line ends are blanks here.

Key definitions: `Document.read?`, `Document.readValue`, `Document.readString`,
`Document.readNumber`.
-/
import HornReasoner.Json.Document
import HornReasoner.Decimal.Scaling

namespace HornReasoner
namespace Document

/-- The blanks between the tokens of a document. -/
def isSpace (c : Char) : Bool :=
  c == ' ' || c == '\n' || c == '\t' || c == '\r'

/-- The text after its leading blanks. -/
def skipSpace (cs : List Char) : List Char :=
  cs.dropWhile isSpace

/-- The value of a hexadecimal digit of either case. -/
def hexDigit? (c : Char) : Option Nat :=
  if c.isDigit then some (c.toNat - '0'.toNat)
  else if 'a' ≤ c ∧ c ≤ 'f' then some (c.toNat - 'a'.toNat + 10)
  else if 'A' ≤ c ∧ c ≤ 'F' then some (c.toNat - 'A'.toNat + 10)
  else none

/-- The character that a one-letter escape stands for. -/
def escaped? : Char → Option Char
  | '"' => some '"'
  | '\\' => some '\\'
  | '/' => some '/'
  | 'b' => some '\x08'
  | 'f' => some '\x0c'
  | 'n' => some '\n'
  | 'r' => some '\r'
  | 't' => some '\t'
  | _ => none

/-- A piece of a string: a character, or half of a surrogate pair written as an escape. -/
inductive Piece
  | char (c : Char)
  | high (bits : Nat)
  | low (bits : Nat)

/-- The piece that a 16-bit escape stands for. -/
def Piece.ofUnit (u : Nat) : Piece :=
  if 0xD800 ≤ u ∧ u < 0xDC00 then .high (u - 0xD800)
  else if 0xDC00 ≤ u ∧ u < 0xE000 then .low (u - 0xDC00)
  else .char (Char.ofNat u)

/-- The pieces of a string up to its closing quote, and the text after it. -/
def readPieces : List Char → Option (List Piece × List Char)
  | [] => none
  | '"' :: cs => some ([], cs)
  | '\\' :: 'u' :: a :: b :: c :: d :: cs => do
    let a ← hexDigit? a
    let b ← hexDigit? b
    let c ← hexDigit? c
    let d ← hexDigit? d
    let (ps, cs) ← readPieces cs
    return (Piece.ofUnit (((a * 16 + b) * 16 + c) * 16 + d) :: ps, cs)
  | '\\' :: e :: cs => do
    let c ← escaped? e
    let (ps, cs) ← readPieces cs
    return (.char c :: ps, cs)
  | c :: cs =>
    if c < ' ' ∨ c = '\\' then none
    else do
      let (ps, cs) ← readPieces cs
      return (.char c :: ps, cs)

/-- Joins pieces to characters; a half without its other half has no character. -/
def joinPieces : List Piece → Option (List Char)
  | [] => some []
  | .char c :: ps => (joinPieces ps).map (c :: ·)
  | .high h :: .low l :: ps => (joinPieces ps).map (Char.ofNat (0x10000 + h * 1024 + l) :: ·)
  | .high _ :: _ => none
  | .low _ :: _ => none

/-- A string after its opening quote. -/
def readString (cs : List Char) : Option (Option String × List Char) :=
  (readPieces cs).map fun (ps, cs) => ((joinPieces ps).map String.ofList, cs)

/-- The digits before the point: a zero alone, or digits that start with no zero. -/
def readWhole : List Char → Option (List Char × List Char)
  | [] => none
  | '0' :: cs => some (['0'], cs)
  | c :: cs => if c.isDigit then some ((c :: cs).span Char.isDigit) else none

/-- The digits after the point, if one follows; there must be at least one. -/
def readFraction : List Char → Option (List Char × List Char)
  | '.' :: cs =>
    let (digits, cs) := cs.span Char.isDigit
    if digits.isEmpty then none else some (digits, cs)
  | cs => some ([], cs)

/-- The exponent, if its mark follows; there must be at least one digit. -/
def readExponent : List Char → Option (Option Int × List Char)
  | [] => some (none, [])
  | c :: cs =>
    if c = 'e' ∨ c = 'E' then
      let (negative, cs) := Decimal.readSign cs
      let (digits, cs) := cs.span Char.isDigit
      if digits.isEmpty then none
      else
        let size : Int := Decimal.digitsValue digits
        some (some (if negative then -size else size), cs)
    else some (none, c :: cs)

/-- The number of a numeral without fraction and exponent: an integer if it fits, and else a float.
A negative zero is a float. -/
def wholeNumber (negative : Bool) (digits : List Char) : Option Number :=
  let size : Int := Decimal.digitsValue digits
  let value := if negative then -size else size
  if Number.fits value ∧ ¬ (negative ∧ value = 0) then some (.int value)
  else (Decimal.scaleDigits? negative digits [] 0).map .float

/-- A numeral and what follows it. -/
def readNumber (cs : List Char) : Option (Option Number × List Char) := do
  let (negative, cs) := match cs with
    | '-' :: cs => (true, cs)
    | cs => (false, cs)
  let (whole, cs) ← readWhole cs
  let (fraction, cs) ← readFraction cs
  let (exponent, cs) ← readExponent cs
  if fraction.isEmpty && exponent.isNone then return (wholeNumber negative whole, cs)
  else return ((Decimal.scaleDigits? negative whole fraction (exponent.getD 0)).map .float, cs)

mutual

/-- A value and what follows it. The first argument bounds the recursion. -/
def readValue : Nat → List Char → Option (Document × List Char)
  | 0, _ => none
  | n + 1, cs =>
    match skipSpace cs with
    | '{' :: cs =>
      match skipSpace cs with
      | '}' :: cs => some (.object [], cs)
      | cs => (readMembers n cs).map fun (ms, cs) => (.object ms, cs)
    | '[' :: cs =>
      match skipSpace cs with
      | ']' :: cs => some (.array [], cs)
      | cs => (readItems n cs).map fun (ds, cs) => (.array ds, cs)
    | '"' :: cs => (readString cs).map fun (s, cs) => (.string s, cs)
    | 'n' :: 'u' :: 'l' :: 'l' :: cs => some (.null, cs)
    | 't' :: 'r' :: 'u' :: 'e' :: cs => some (.bool true, cs)
    | 'f' :: 'a' :: 'l' :: 's' :: 'e' :: cs => some (.bool false, cs)
    | cs => (readNumber cs).map fun (n, cs) => (.number n, cs)

/-- The items of an array up to its closing bracket; there is at least one. -/
def readItems : Nat → List Char → Option (List Document × List Char)
  | 0, _ => none
  | n + 1, cs => do
    let (d, cs) ← readValue n cs
    match skipSpace cs with
    | ',' :: cs =>
      let (ds, cs) ← readItems n cs
      return (d :: ds, cs)
    | ']' :: cs => return ([d], cs)
    | _ => none

/-- The members of an object up to its closing brace; there is at least one. -/
def readMembers : Nat → List Char → Option (List (Option String × Document) × List Char)
  | 0, _ => none
  | n + 1, cs => do
    match skipSpace cs with
    | '"' :: cs =>
      let (k, cs) ← readString cs
      match skipSpace cs with
      | ':' :: cs =>
        let (d, cs) ← readValue n cs
        match skipSpace cs with
        | ',' :: cs =>
          let (ms, cs) ← readMembers n cs
          return ((k, d) :: ms, cs)
        | '}' :: cs => return ([(k, d)], cs)
        | _ => none
      | _ => none
    | _ => none

end

/-- The document that a list of characters says. Each character takes at most two steps. -/
def readList? (cs : List Char) : Option Document := do
  let (d, cs) ← readValue (2 * cs.length + 2) cs
  if (skipSpace cs).isEmpty then some d else none

/-- The document that a text says. -/
def read? (s : String) : Option Document :=
  readList? s.toList

end Document
end HornReasoner
