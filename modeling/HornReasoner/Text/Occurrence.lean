/-
# Occurrences of one text in another

A text mentions another when it holds it as a run of adjacent characters; every
text mentions the empty one.

Key definition: `Text.mentions`.
Key theorem: `Text.occursIn_iff_isInfix`.
-/
namespace HornReasoner
namespace Text

/-- The first list is a run of adjacent elements of the second. -/
def occursIn (needle : List Char) : List Char → Bool
  | [] => needle.isEmpty
  | c :: cs => needle.isPrefixOf (c :: cs) || occursIn needle cs

/-- The text holds the needle somewhere. -/
def mentions (text needle : String) : Bool :=
  occursIn needle.toList text.toList

theorem occursIn_iff_isInfix {needle : List Char} :
    ∀ {cs : List Char}, occursIn needle cs = true ↔ needle <:+: cs
  | [] => by simp [occursIn]
  | c :: cs => by
    simp [occursIn, @occursIn_iff_isInfix needle cs, List.infix_cons_iff]

end Text
end HornReasoner
