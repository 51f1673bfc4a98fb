/-
# Identifiers of 128 bits

An identifier is 32 hexadecimal digits. It is written in lower case in groups of
8, 4, 4, 4 and 12, and read in either case: grouped, grouped in braces or after
`urn:uuid:` (which may be in either case too), or as digits alone.

Key definitions: `Uuid`, `Uuid.ofNat`, `Uuid.text`, `Uuid.read?`.
-/
import HornReasoner.Json.Reader
import HornReasoner.Json.Writer

namespace HornReasoner

/-- 32 hexadecimal digits, the highest first. -/
structure Uuid where
  digits : List (Fin 16)
  length_eq : digits.length = 32
  deriving DecidableEq

namespace Uuid

/-- The identifier whose digits spell a number, taken modulo `16 ^ 32`. -/
def ofNat (n : Nat) : Uuid :=
  ⟨(List.range 32).map fun i => Fin.ofNat 16 (n / Nat.pow 16 (31 - i)), by simp⟩

instance : Inhabited Uuid := ⟨ofNat 0⟩

/-- The digits in lower case. -/
def chars (u : Uuid) : List Char :=
  u.digits.map fun d => Json.hexChar d.val

/-- Puts hyphens between groups of 8, 4, 4, 4 and 12 characters. -/
def group (cs : List Char) : List Char :=
  cs.take 8 ++ '-' :: (cs.drop 8).take 4 ++ '-' :: (cs.drop 12).take 4 ++
    '-' :: (cs.drop 16).take 4 ++ '-' :: cs.drop 20

/-- The written form. -/
def text (u : Uuid) : String :=
  String.ofList (group u.chars)

/-- Reads one hexadecimal digit of either case. -/
def digit? (c : Char) : Option (Fin 16) :=
  (Document.hexDigit? c).map (Fin.ofNat 16)

/-- Reads 32 digits. -/
def readSimple? (cs : List Char) : Option Uuid :=
  match cs.mapM digit? with
  | some ds => if h : ds.length = 32 then some ⟨ds, h⟩ else none
  | none => none

/-- Reads 32 digits with hyphens after the groups of 8, 4, 4 and 4. -/
def readGrouped? (cs : List Char) : Option Uuid :=
  let digits := cs.take 8 ++ (cs.drop 9).take 4 ++ (cs.drop 14).take 4 ++ (cs.drop 19).take 4 ++
    cs.drop 24
  if group digits = cs then readSimple? digits else none

/-- What may stand before the groups, in either case. -/
def urnMark : List Char :=
  "urn:uuid:".toList

/-- Reads an identifier in any of its forms. -/
def read? (s : String) : Option Uuid :=
  match s.toList with
  | '{' :: cs => if cs.getLast? = some '}' then readGrouped? cs.dropLast else none
  | cs =>
    if (cs.take urnMark.length).map Char.toLower = urnMark then
      readGrouped? (cs.drop urnMark.length)
    else if cs.length = 32 then readSimple? cs
    else readGrouped? cs

end Uuid
end HornReasoner
