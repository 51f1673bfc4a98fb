/-
# Answers to a goal

An answer gives each variable that the goal asks for the constant that a proof
binds it to, or an underscore where any value would do. Variables whose name
starts with an underscore are not asked for.

Key definitions: `Binding`, `Atom.asked`, `solve`.
-/
import HornReasoner.Resolution.Search
import HornReasoner.Map.Sorted

namespace HornReasoner

/-- Variables of a goal with their values, in ascending order. -/
abbrev Binding := SortedMap String

/-- The variables that the goal asks for, in order, repeats kept. -/
def Atom.asked (goal : Atom String) : List String :=
  goal.namedVariables.filter fun v => v.toList.head? ≠ some '_'

/-- How the value of a variable is shown: by its constant, or as an underscore if it has none. -/
def Term.shown {ν : Type} : Term ν → String
  | .const c => c
  | .var _ => "_"

/-- The answers to a goal, one for each proof, in the order found. At most `depth` rules stand on a
path of a proof, and at most `room` answers are given. When nothing is found and some branch was cut
the goal is undecided, which is an error. -/
def solve (clauses : List (Clause String)) (goal : Atom String) (depth room : Nat) :
    Except QueryError (List Binding) :=
  match prove (clauses.map Clause.apart) (goal.apart 0)
      (goal.asked.map fun v => .var (.named v)) depth room with
  | .undecided => .error (.depthLimitExceeded depth)
  | .answers found =>
    .ok (found.map fun values => SortedMap.ofList (goal.asked.zip (values.map Term.shown)))

end HornReasoner
