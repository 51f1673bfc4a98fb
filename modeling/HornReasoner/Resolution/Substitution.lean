/-
# Unification of flat atoms

Arguments are constants and variables only, so unifying two atoms goes through
their arguments from left to right and binds one variable at a time. A
substitution lists its bindings in the order made. A binding is made only for a
variable that the earlier ones leave free, and to a term that they leave as it is;
following a term is then one pass over the list, whatever chains the bindings
form.

Key definitions: `Substitution`, `Substitution.walk`, `Substitution.unify`,
`Substitution.unifyAtoms`.
-/
import HornReasoner.Logic.Term

namespace HornReasoner

/-- Writes a term for one variable. -/
def Term.replace {ν : Type} [DecidableEq ν] (t : Term ν) (v : ν) (value : Term ν) : Term ν :=
  match t with
  | .const c => .const c
  | .var w => if w = v then value else .var w

@[simp] theorem Term.replace_const {ν : Type} [DecidableEq ν] (c : String) (v : ν) (value : Term ν) :
    (const c).replace v value = const c := rfl

theorem Term.replace_var {ν : Type} [DecidableEq ν] (w v : ν) (value : Term ν) :
    (var w).replace v value = if w = v then value else var w := rfl

/-- Variables bound to terms, in the order bound. -/
structure Substitution (ν : Type) where
  bindings : List (ν × Term ν)
  deriving DecidableEq, Repr

namespace Substitution

variable {ν : Type} [DecidableEq ν]

/-- Nothing is bound. -/
def empty : Substitution ν :=
  ⟨[]⟩

/-- What a term stands for: a constant or a free variable. -/
def walk (s : Substitution ν) (t : Term ν) : Term ν :=
  s.bindings.foldl (fun t b => t.replace b.1 b.2) t

/-- Binds one more variable. -/
def bind (s : Substitution ν) (v : ν) (t : Term ν) : Substitution ν :=
  ⟨s.bindings ++ [(v, t)]⟩

/-- Makes two terms equal, binding a variable on the left before one on the right. -/
def unify (s : Substitution ν) (left right : Term ν) : Option (Substitution ν) :=
  match s.walk left, s.walk right with
  | .const a, .const b => if a = b then some s else none
  | .var v, t => if t = .var v then some s else some (s.bind v t)
  | t, .var v => some (s.bind v t)

/-- Makes two rows of terms equal, place by place. -/
def unifyArgs (s : Substitution ν) : List (Term ν) → List (Term ν) → Option (Substitution ν)
  | [], [] => some s
  | l :: ls, r :: rs => (s.unify l r).bind fun s => unifyArgs s ls rs
  | _, _ => none

/-- Makes two atoms equal; predicates and numbers of arguments must agree. -/
def unifyAtoms (s : Substitution ν) (left right : Atom ν) : Option (Substitution ν) :=
  if left.predicate = right.predicate then s.unifyArgs left.args right.args else none

/-- Writes what every variable of a term stands for. -/
def apply (s : Substitution ν) (v : ν) : Term ν :=
  s.walk (.var v)

end Substitution
end HornReasoner
