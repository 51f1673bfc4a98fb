/-
# Errors of clauses and queries

A clause is refused for its text, for a name in it, or for being a fact where a
rule was wanted or the other way round. A goal is refused for its text or its
names, and a query whose every branch was cut has no answer.

Key definitions: `ClauseError`, `QueryError`, `QueryError.ofClauseError`.
-/
import HornReasoner.Logic.Token

namespace HornReasoner

/-- What a name stands for. -/
inductive NameKind
  | predicate
  | const
  | var
  deriving DecidableEq, Repr

/-- The kind in words. -/
def NameKind.text : NameKind → String
  | predicate => "predicate"
  | const => "constant"
  | var => "variable"

/-- Why a clause is refused. -/
inductive ClauseError
  | unreadable (error : SyntaxError)
  | invalidName (kind : NameKind) (name : String)
  | noArguments (predicate : String)
  | expectedFact (clause : String)
  | expectedRule (clause : String)
  deriving DecidableEq, Repr

/-- The error in words. -/
def ClauseError.message : ClauseError → String
  | unreadable e => e.message
  | invalidName kind name => "invalid " ++ kind.text ++ " name '" ++ name ++ "'"
  | noArguments predicate => "atom '" ++ predicate ++ "' has no arguments"
  | expectedFact clause => "expected a fact but got the rule '" ++ clause ++ "'"
  | expectedRule clause => "expected a rule but got the fact '" ++ clause ++ "'"

/-- Why a query has no answer. -/
inductive QueryError
  | unreadableGoal (error : SyntaxError)
  | malformedGoal (error : ClauseError)
  | depthLimitExceeded (limit : Nat)
  deriving DecidableEq, Repr

/-- The error in words. -/
def QueryError.message : QueryError → String
  | unreadableGoal e => "syntax error in goal: " ++ e.message
  | malformedGoal e => "malformed goal: " ++ e.message
  | depthLimitExceeded limit =>
    "resolution exceeded the depth limit of " ++ String.ofList (Nat.toDigits 10 limit)

/-- A goal refused as an atom is refused as a query. -/
def QueryError.ofClauseError : ClauseError → QueryError
  | .unreadable e => .unreadableGoal e
  | e => .malformedGoal e

end HornReasoner
