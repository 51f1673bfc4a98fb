/-
# Horn clauses

A clause says that its head holds when every atom of its body holds. With an empty
body it is a fact, and otherwise a rule.

Before a proof uses a clause, its variables are told apart by place: a named
variable is one place wherever it stands, and each underscore is a place of its
own.

Key definitions: `Clause`, `Clause.text`, `Clause.validate`, `Slot`, `Clause.apart`.
-/
import HornReasoner.Logic.Term
import HornReasoner.Text.Occurrence

namespace HornReasoner

/-- The head holds when every atom of the body does. -/
structure Clause (ν : Type) where
  head : Atom ν
  body : List (Atom ν)
  deriving DecidableEq, Repr

/-- A variable of one clause: a name, or the underscore at an argument of an atom. Atom 0 is the
head. -/
inductive Slot
  | named (name : String)
  | blank (atom argument : Nat)
  deriving DecidableEq, Repr

/-- Tells the variables of the atom at a place of its clause apart. -/
def Atom.apart (place : Nat) (a : Atom String) : Atom Slot :=
  ⟨a.predicate, a.args.mapIdx fun i t => match t with
    | .const c => .const c
    | .var v => if v = "_" then .var (.blank place i) else .var (.named v)⟩

namespace Clause

variable {ν μ : Type}

/-- Renames each variable. -/
def map (f : ν → μ) (c : Clause ν) : Clause μ :=
  ⟨c.head.map f, c.body.map (Atom.map f)⟩

/-- The clause has no condition. -/
def isFact (c : Clause ν) : Bool :=
  c.body.isEmpty

/-- The clause has a condition. -/
def isRule (c : Clause ν) : Bool :=
  !c.body.isEmpty

/-- A clause without condition. -/
def fact (a : Atom ν) : Clause ν :=
  ⟨a, []⟩

/-- The clause as written: `mortal(X) :- human(X).` -/
def text (c : Clause String) : String :=
  match c.body with
  | [] => c.head.text ++ "."
  | body => c.head.text ++ " :- " ++ String.intercalate ", " (body.map Atom.text) ++ "."

/-- The written clause holds the needle somewhere. -/
def mentions (c : Clause String) (needle : String) : Bool :=
  Text.mentions c.text needle

/-- Refuses the first atom that is not well formed, the head first. -/
def validate (c : Clause String) : Except ClauseError Unit := do
  c.head.validate
  c.body.forM Atom.validate

/-- The clause with its variables told apart by place. -/
def apart (c : Clause String) : Clause Slot :=
  ⟨c.head.apart 0, c.body.mapIdx fun i a => a.apart (i + 1)⟩

end Clause
end HornReasoner
