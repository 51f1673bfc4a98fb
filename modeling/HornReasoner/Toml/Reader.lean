/-
# Reading TOML

A text is a row of lines: blank ones, key-value pairs, and headers that say which
table the pairs after them belong to. Arrays may go over several lines, inline
tables may not. Arrays and inline tables stand less than 80 deep in one another,
and a key has less than 80 parts.

Key definitions: `Toml.readKey`, `Toml.readValue`, `Toml.readStatements`, `Toml.read?`.
-/
import HornReasoner.Toml.Scalar

namespace HornReasoner
namespace Toml

/-- The number of levels and of parts of a key that are too many. -/
def tooMany : Nat := 80

/-- The characters of keys without quotes. -/
def isKeyChar (c : Char) : Bool :=
  c.isAlphanum || c == '_' || c == '-'

/-- One part of a key. -/
def readKeyPart (cs : List Char) : Option (String × List Char) :=
  match cs with
  | '"' :: rest => (readBasic (cs.length + 1) rest).map fun (s, cs) => (String.ofList s, cs)
  | '\'' :: rest => (readLiteral rest).map fun (s, cs) => (String.ofList s, cs)
  | cs =>
    let (s, cs) := cs.span isKeyChar
    if s.isEmpty then none else some (String.ofList s, cs)

/-- The parts of a key, with blanks around each. The first argument bounds the recursion. -/
def readKeyParts : Nat → List Char → Option (List String × List Char)
  | 0, _ => none
  | n + 1, cs => do
    let (part, cs) ← readKeyPart (skipSpace cs)
    match skipSpace cs with
    | '.' :: cs =>
      let (parts, cs) ← readKeyParts n cs
      return (part :: parts, cs)
    | cs => return ([part], cs)

/-- A key: the path of tables to it, and its last part. -/
def readKey (cs : List Char) : Option ((List String × String) × List Char) := do
  let (parts, cs) ← readKeyParts (cs.length + 1) cs
  if tooMany ≤ parts.length then none
  return ((parts.dropLast, ← parts.getLast?), cs)

/-- The text after a comment. -/
def skipComment (cs : List Char) : List Char :=
  match cs with
  | '#' :: rest => rest.dropWhile isText
  | cs => cs

/-- The text after the end of a line: blanks, a comment, and a line end or the end of the text. -/
def endLine? (cs : List Char) : Option (List Char) :=
  match skipComment (skipSpace cs) with
  | [] => some []
  | cs => newline? cs

/-- The text after blanks, comments and line ends. The first argument bounds the recursion. -/
def skipLines : Nat → List Char → List Char
  | 0, cs => cs
  | n + 1, cs =>
    match newline? (skipComment (skipSpace cs)) with
    | some cs => skipLines n cs
    | none => skipSpace cs

mutual

/-- A value that stands `depth` arrays and inline tables deep. The first argument bounds the
recursion. -/
def readValue : Nat → Nat → List Char → Option (Value × List Char)
  | 0, _, _ => none
  | n + 1, depth, cs =>
    match cs with
    | '[' :: cs => if tooMany ≤ depth + 1 then none else readArray n (depth + 1) cs
    | '{' :: cs => if tooMany ≤ depth + 1 then none else readInline n (depth + 1) cs
    | 't' :: 'r' :: 'u' :: 'e' :: cs => some (.boolean true, cs)
    | 'f' :: 'a' :: 'l' :: 's' :: 'e' :: cs => some (.boolean false, cs)
    | cs =>
      ((readString cs).map fun (s, cs) => (.string s, cs)) <|> readDateTime cs <|> readFloat cs <|>
        readInteger cs

/-- An array after its opening bracket. -/
def readArray : Nat → Nat → List Char → Option (Value × List Char)
  | 0, _, _ => none
  | n + 1, depth, cs =>
    match skipLines (cs.length + 1) cs with
    | ']' :: cs => some (.array [], cs)
    | cs => (readItems n depth cs).map fun (vs, cs) => (.array vs, cs)

/-- The items of an array up to its closing bracket, before which a comma may stand. -/
def readItems : Nat → Nat → List Char → Option (List Value × List Char)
  | 0, _, _ => none
  | n + 1, depth, cs => do
    let (v, cs) ← readValue n depth (skipLines (cs.length + 1) cs)
    match skipLines (cs.length + 1) cs with
    | ']' :: cs => return ([v], cs)
    | ',' :: cs =>
      match skipLines (cs.length + 1) cs with
      | ']' :: cs => return ([v], cs)
      | cs =>
        let (vs, cs) ← readItems n depth cs
        return (v :: vs, cs)
    | _ => none

/-- An inline table after its opening brace. -/
def readInline : Nat → Nat → List Char → Option (Value × List Char)
  | 0, _, _ => none
  | n + 1, depth, cs =>
    match skipSpace cs with
    | '}' :: cs => some (.table [], cs)
    | cs => (readPairs n depth [] cs).map fun (ms, cs) => (.table (finish ms), cs)

/-- The pairs of an inline table up to its closing brace, added to those before. -/
def readPairs : Nat → Nat → Members → List Char → Option (Members × List Char)
  | 0, _, _, _ => none
  | n + 1, depth, ms, cs => do
    let ((path, key), cs) ← readKey cs
    let (v, cs) ← readValue n depth (skipSpace (← expect? '=' cs))
    let ms ← insertKey path key v ms
    match skipSpace cs with
    | '}' :: cs => return (ms, cs)
    | ',' :: cs => readPairs n depth ms cs
    | _ => none

end

/-- Puts a key-value pair into the table that the last header opened. -/
def putPair (header path : List String) (key : String) (v : Value) (root : Members) :
    Option Members :=
  insertUnder header (insertKey path key v) root

/-- Reads lines to the end of the text: the tables read so far and the path of the last header. The
first argument bounds the recursion. -/
def readStatements : Nat → Members → List String → List Char → Option Members
  | 0, _, _, _ => none
  | n + 1, root, header, cs =>
    match skipSpace cs with
    | [] => some root
    | '#' :: cs => do readStatements n root header (← endLine? ('#' :: cs))
    | '[' :: '[' :: cs => do
      let ((path, key), cs) ← readKey cs
      let cs ← expect? ']' (← expect? ']' cs)
      let root ← insertUnder path (openItem key) root
      readStatements n root (path ++ [key]) (← endLine? cs)
    | '[' :: cs => do
      let ((path, key), cs) ← readKey cs
      let cs ← expect? ']' cs
      let root ← insertUnder path (openTable key) root
      readStatements n root (path ++ [key]) (← endLine? cs)
    | cs =>
      match newline? cs with
      | some cs => readStatements n root header cs
      | none => do
        let ((path, key), cs) ← readKey cs
        let (v, cs) ← readValue (2 * cs.length + 2) 0 (skipSpace (← expect? '=' cs))
        let root ← putPair header path key v root
        readStatements n root header (← endLine? cs)

/-- The top table of a text. A byte order mark may stand before it. -/
def read? (s : String) : Option (List (String × Value)) :=
  let cs := match s.toList with
    | '\ufeff' :: cs => cs
    | cs => cs
  (readStatements (cs.length + 1) [] [] cs).map finish

end Toml
end HornReasoner
