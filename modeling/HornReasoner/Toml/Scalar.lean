/-
# Scalars of TOML

Each reader takes the longest scalar of its kind from the front of a text and gives
what follows it. A number that is followed by anything but blanks, a comment or a
separator is refused by what comes after, so readers of numbers need not look.

Key definitions: `Toml.readBasic`, `Toml.readLiteral`, `Toml.readString`,
`Toml.readDateTime`, `Toml.readFloat`, `Toml.readInteger`.
-/
import HornReasoner.Json.Reader
import HornReasoner.Toml.Value

namespace HornReasoner
namespace Toml

/-- Blanks within a line. -/
def isSpace (c : Char) : Bool :=
  c == ' ' || c == '\t'

/-- The text after its leading blanks. -/
def skipSpace (cs : List Char) : List Char :=
  cs.dropWhile isSpace

/-- The text after a line end. -/
def newline? : List Char → Option (List Char)
  | '\n' :: cs => some cs
  | '\r' :: '\n' :: cs => some cs
  | _ => none

/-- The characters of comments, literals and strings: no control character but the tab. -/
def isText (c : Char) : Bool :=
  c == '\t' || (' ' ≤ c && c ≤ '~') || '\u0080' ≤ c

/-- The character of a code point, unless it is half of a pair or too great. -/
def scalar? (n : Nat) : Option Char :=
  if h : n.isValidChar then some (Char.ofNatAux n h) else none

/-- Reads a number of hexadecimal digits. -/
def readHex? : Nat → Nat → List Char → Option (Nat × List Char)
  | 0, value, cs => some (value, cs)
  | n + 1, value, c :: cs => do readHex? n (value * 16 + (← Document.hexDigit? c)) cs
  | _ + 1, _, [] => none

/-- The escape after a backslash. -/
def readEscape? : List Char → Option (Char × List Char)
  | 'b' :: cs => some ('\x08', cs)
  | 'f' :: cs => some ('\x0c', cs)
  | 'n' :: cs => some ('\n', cs)
  | 'r' :: cs => some ('\r', cs)
  | 't' :: cs => some ('\t', cs)
  | '"' :: cs => some ('"', cs)
  | '\\' :: cs => some ('\\', cs)
  | 'u' :: cs => do
    let (n, cs) ← readHex? 4 0 cs
    return (← scalar? n, cs)
  | 'U' :: cs => do
    let (n, cs) ← readHex? 8 0 cs
    return (← scalar? n, cs)
  | _ => none

/-- A string in double quotes after the opening quote. The first argument bounds the recursion. -/
def readBasic : Nat → List Char → Option (List Char × List Char)
  | 0, _ => none
  | _ + 1, [] => none
  | _ + 1, '"' :: cs => some ([], cs)
  | n + 1, '\\' :: cs => do
    let (c, cs) ← readEscape? cs
    let (s, cs) ← readBasic n cs
    return (c :: s, cs)
  | n + 1, c :: cs =>
    if isText c then do
      let (s, cs) ← readBasic n cs
      return (c :: s, cs)
    else none

/-- A string in single quotes after the opening quote. -/
def readLiteral : List Char → Option (List Char × List Char)
  | [] => none
  | '\'' :: cs => some ([], cs)
  | c :: cs =>
    if isText c then do
      let (s, cs) ← readLiteral cs
      return (c :: s, cs)
    else none

/-- The quotes that end a string of several lines: three, and before them up to two that belong to
the string. -/
def closing? (quote : Char) (cs : List Char) : Option (List Char × List Char) :=
  let (quotes, rest) := cs.span (· == quote)
  if 3 ≤ quotes.length ∧ quotes.length ≤ 5 then some (quotes.drop 3, rest) else none

/-- The text after a line break that a backslash takes out: all blanks and line ends. -/
def skipBreak? (cs : List Char) : Option (List Char) :=
  (newline? (skipSpace cs)).map fun cs => skip (cs.length + 1) cs
where
  /-- Takes out blanks and line ends; the first argument bounds the recursion. -/
  skip : Nat → List Char → List Char
    | 0, cs => cs
    | n + 1, cs =>
      match newline? (skipSpace cs) with
      | some cs => skip n cs
      | none => skipSpace cs

/-- A string of several lines after its opening quotes. Line ends become single ones, and escapes
are read if the string has them. The first argument bounds the recursion. -/
def readLines (quote : Char) (escapes : Bool) : Nat → List Char → Option (List Char × List Char)
  | 0, _ => none
  | _ + 1, [] => none
  | n + 1, c :: cs =>
    if c = quote then
      match closing? quote (c :: cs) with
      | some closed => some closed
      | none =>
        let (quotes, rest) := (c :: cs).span (· == quote)
        if quotes.length < 3 then do
          let (s, rest) ← readLines quote escapes n rest
          return (quotes ++ s, rest)
        else none
    else if c = '\\' ∧ escapes then
      match skipBreak? cs with
      | some cs => readLines quote escapes n cs
      | none => do
        let (e, cs) ← readEscape? cs
        let (s, cs) ← readLines quote escapes n cs
        return (e :: s, cs)
    else
      match newline? (c :: cs) with
      | some cs => do
        let (s, cs) ← readLines quote escapes n cs
        return ('\n' :: s, cs)
      | none =>
        if isText c then do
          let (s, cs) ← readLines quote escapes n cs
          return (c :: s, cs)
        else none

/-- A string of one of the four kinds. A line end right after three opening quotes is left out. -/
def readString (cs : List Char) : Option (String × List Char) :=
  let bound := cs.length + 1
  let body (cs : List Char) := (newline? cs).getD cs
  let read := match cs with
    | '"' :: '"' :: '"' :: cs => readLines '"' true bound (body cs)
    | '\'' :: '\'' :: '\'' :: cs => readLines '\'' false bound (body cs)
    | '"' :: cs => readBasic bound cs
    | '\'' :: cs => readLiteral cs
    | _ => none
  read.map fun (s, cs) => (String.ofList s, cs)

/-- Exactly `n` digits with a value in a range. -/
def readDigits? (n low high : Nat) (cs : List Char) : Option (Nat × List Char) :=
  let digits := cs.take n
  let value := Decimal.digitsValue digits
  if digits.length = n ∧ digits.all Char.isDigit ∧ low ≤ value ∧ value ≤ high then
    some (value, cs.drop n)
  else none

/-- A given character. -/
def expect? (c : Char) : List Char → Option (List Char)
  | d :: cs => if d = c then some cs else none
  | [] => none

/-- The number of days of a month. -/
def daysIn (year month : Nat) : Nat :=
  if month = 2 then
    if year % 4 = 0 ∧ (year % 100 ≠ 0 ∨ year % 400 = 0) then 29 else 28
  else if month = 4 ∨ month = 6 ∨ month = 9 ∨ month = 11 then 30
  else 31

/-- A date. -/
def readDate? (cs : List Char) : Option (List Char) := do
  let (year, cs) ← readDigits? 4 0 9999 cs
  let (month, cs) ← readDigits? 2 1 12 (← expect? '-' cs)
  let (_, cs) ← readDigits? 2 1 (daysIn year month) (← expect? '-' cs)
  return cs

/-- Hours and minutes. -/
def readHourMinute? (cs : List Char) : Option (List Char) := do
  let (_, cs) ← readDigits? 2 0 23 cs
  let (_, cs) ← readDigits? 2 0 59 (← expect? ':' cs)
  return cs

/-- The text after a fraction of a second, if there is one; it has at least one digit. -/
def skipFraction? (cs : List Char) : Option (List Char) :=
  match cs with
  | '.' :: cs => if cs.head?.any Char.isDigit then some (cs.dropWhile Char.isDigit) else none
  | cs => some cs

/-- A time of day. -/
def readTime? (cs : List Char) : Option (List Char) := do
  let cs ← readHourMinute? cs
  let (_, cs) ← readDigits? 2 0 60 (← expect? ':' cs)
  skipFraction? cs

/-- The text after an offset from universal time, if there is one. -/
def skipOffset? : List Char → Option (List Char)
  | 'Z' :: cs => some cs
  | 'z' :: cs => some cs
  | '+' :: cs => readHourMinute? cs
  | '-' :: cs => readHourMinute? cs
  | cs => some cs

/-- The text after the time that follows a date, if there is one. -/
def skipTimeOfDate (cs : List Char) : List Char :=
  match cs with
  | [] => []
  | c :: rest =>
    if c = 'T' ∨ c = 't' ∨ c = ' ' then ((readTime? rest).bind skipOffset?).getD cs else cs

/-- A date, a time, or both. -/
def readDateTime (cs : List Char) : Option (Value × List Char) := do
  let rest ← ((readDate? cs).map skipTimeOfDate) <|> readTime? cs
  return (.dateTime (String.ofList (cs.take (cs.length - rest.length))), rest)

/-- Digits of a kind, single underscores between them: the digits without the underscores. -/
def readRun (isDigit : Char → Bool) : List Char → Option (List Char × List Char)
  | [] => none
  | [c] => if isDigit c then some ([c], []) else none
  | c :: '_' :: cs => do
    if !isDigit c then none
    let (digits, cs) ← readRun isDigit cs
    return (c :: digits, cs)
  | c :: d :: cs =>
    if !isDigit c then none
    else if isDigit d then do
      let (digits, cs) ← readRun isDigit (d :: cs)
      return (c :: digits, cs)
    else some ([c], d :: cs)

/-- A decimal integer without sign: a zero, or digits that start with no zero. -/
def readWhole (cs : List Char) : Option (List Char × List Char) :=
  match cs with
  | '0' :: cs => some (['0'], cs)
  | cs => readRun Char.isDigit cs

/-- A fraction, if a point follows. -/
def readFraction (cs : List Char) : Option (List Char × List Char) :=
  match cs with
  | '.' :: cs => readRun Char.isDigit cs
  | cs => some ([], cs)

/-- An exponent, if its mark follows. -/
def readExponent (cs : List Char) : Option (Option Int × List Char) :=
  match cs with
  | [] => some (none, [])
  | c :: rest =>
    if c = 'e' ∨ c = 'E' then do
      let (negative, rest) := Decimal.readSign rest
      let (digits, rest) ← readRun Char.isDigit rest
      let size : Int := Decimal.digitsValue digits
      return (some (if negative then -size else size), rest)
    else some (none, cs)

/-- Infinity or no number, with an optional sign. -/
def readSpecial (negative : Bool) : List Char → Option (Float × List Char)
  | 'i' :: 'n' :: 'f' :: cs => some (if negative then -(1.0 / 0.0) else 1.0 / 0.0, cs)
  | 'n' :: 'a' :: 'n' :: cs => some (0.0 / 0.0, cs)
  | _ => none

/-- A decimal with a fraction or an exponent. One that is too great is refused, unless it is
negative. -/
def readDecimal (cs : List Char) : Option (Float × List Char) := do
  let (negative, cs) := Decimal.readSign cs
  let (whole, cs) ← readWhole cs
  let (fraction, cs) ← readFraction cs
  let (exponent, cs) ← readExponent cs
  if fraction.isEmpty && exponent.isNone then none
  let x := (Decimal.Numeral.ofParts negative whole fraction (exponent.getD 0)).toFloat
  if x == 1.0 / 0.0 then none else return (x, cs)

/-- A float. -/
def readFloat (cs : List Char) : Option (Value × List Char) :=
  let (negative, unsigned) := Decimal.readSign cs
  (readSpecial negative unsigned <|> readDecimal cs).map fun (x, cs) => (.float x, cs)

/-- Digits of a base as a number. -/
def runValue (base : Nat) (digits : List Char) : Nat :=
  digits.foldl (fun n c => base * n + (Document.hexDigit? c).getD 0) 0

/-- A signed integer of 64 bits. -/
def readInteger (cs : List Char) : Option (Value × List Char) := do
  let (value, cs) ← match cs with
    | '0' :: 'x' :: cs => unsigned 16 cs
    | '0' :: 'o' :: cs => unsigned 8 cs
    | '0' :: 'b' :: cs => unsigned 2 cs
    | cs => do
      let (negative, cs) := Decimal.readSign cs
      let (digits, cs) ← readWhole cs
      let size : Int := Decimal.digitsValue digits
      some (if negative then -size else size, cs)
  if -Int.pow 2 63 ≤ value ∧ value < Int.pow 2 63 then some (.integer value, cs) else none
where
  /-- Digits of a base. -/
  unsigned (base : Nat) (cs : List Char) : Option (Int × List Char) := do
    let isDigit (c : Char) : Bool := ((Document.hexDigit? c).map (decide <| · < base)).getD false
    let (digits, cs) ← readRun isDigit cs
    return ((runValue base digits : Int), cs)

end Toml
end HornReasoner
