/-
# Terms and atoms

A term is a constant or a variable, and an atom is a predicate applied to terms.
Both are parametric in what names a variable: a text in clauses as written, a
place in a clause once its variables are told apart, a place and a use during a
proof, and nothing at all in ground atoms.

As written, the first character tells constants from variables: a variable starts
with a capital letter or an underscore, and each underscore alone is a variable of
its own.

Key definitions: `Term`, `Atom`, `Term.ofIdentifier`, `Atom.validate`, `Atom.subst`.
-/
import HornReasoner.Logic.Error

namespace HornReasoner

/-- An argument of an atom; `ν` names variables. -/
inductive Term (ν : Type)
  | const (name : String)
  | var (name : ν)
  deriving DecidableEq, Repr

/-- A predicate applied to arguments. -/
structure Atom (ν : Type) where
  predicate : String
  args : List (Term ν)
  deriving DecidableEq, Repr

namespace Term

variable {ν μ : Type}

/-- Replaces each variable by a term. -/
def subst (σ : ν → Term μ) : Term ν → Term μ
  | const c => const c
  | var v => σ v

/-- Renames each variable. -/
def map (f : ν → μ) : Term ν → Term μ
  | const c => const c
  | var v => var (f v)

@[simp] theorem subst_const (σ : ν → Term μ) (c : String) : (const c : Term ν).subst σ = const c := rfl

@[simp] theorem subst_var (σ : ν → Term μ) (v : ν) : (var v).subst σ = σ v := rfl

@[simp] theorem map_const (f : ν → μ) (c : String) : (const c : Term ν).map f = const c := rfl

@[simp] theorem map_var (f : ν → μ) (v : ν) : (var v).map f = var (f v) := rfl

/-- Renaming first is substituting for the new names. -/
@[simp] theorem subst_map {κ : Type} (f : ν → κ) (σ : κ → Term μ) (t : Term ν) :
    (t.map f).subst σ = t.subst fun v => σ (f v) := by
  cases t <;> rfl

/-- Two substitutions in a row are one. -/
@[simp] theorem subst_subst {κ : Type} (σ : ν → Term κ) (τ : κ → Term μ) (t : Term ν) :
    (t.subst σ).subst τ = t.subst fun v => (σ v).subst τ := by
  cases t <;> rfl

/-- The term is a variable. -/
def isVariable : Term ν → Bool
  | const _ => false
  | var _ => true

/-- The name of the constant or variable. -/
def name : Term String → String
  | const c => c
  | var v => v

/-- The term is an underscore alone. -/
def isAnonymous : Term String → Bool
  | const _ => false
  | var v => v == "_"

end Term

/-- Names that start with a capital letter or an underscore. -/
def startsVariable (s : String) : Bool :=
  match s.toList with
  | [] => false
  | c :: _ => c.isUpper || c == '_'

/-- Names of variables: such a start and name characters after it. -/
def isVariableName (s : String) : Bool :=
  startsVariable s && s.toList.all isNameChar

/-- Names of constants: a small letter or digit and name characters after it. -/
def isConstantName (s : String) : Bool :=
  match s.toList with
  | [] => false
  | c :: cs => (c.isLower || c.isDigit) && cs.all isNameChar

/-- Names of predicates: a small letter and name characters after it. -/
def isPredicateName (s : String) : Bool :=
  match s.toList with
  | [] => false
  | c :: cs => c.isLower && cs.all isNameChar

namespace Term

/-- The term that a name denotes. -/
def ofIdentifier (s : String) : Term String :=
  if startsVariable s then var s else const s

/-- Refuses a name that does not fit the term. -/
def validate : Term String → Except ClauseError Unit
  | const c => if isConstantName c then .ok () else .error (.invalidName .const c)
  | var v => if isVariableName v then .ok () else .error (.invalidName .var v)

end Term

namespace Atom

variable {ν μ : Type}

/-- Replaces each variable by a term. -/
def subst (σ : ν → Term μ) (a : Atom ν) : Atom μ :=
  ⟨a.predicate, a.args.map (Term.subst σ)⟩

/-- Renames each variable. -/
def map (f : ν → μ) (a : Atom ν) : Atom μ :=
  ⟨a.predicate, a.args.map (Term.map f)⟩

/-- Renaming first is substituting for the new names. -/
@[simp] theorem subst_map {κ : Type} (f : ν → κ) (σ : κ → Term μ) (a : Atom ν) :
    (a.map f).subst σ = a.subst fun v => σ (f v) := by
  simp [subst, map, Function.comp_def]

/-- Two substitutions in a row are one. -/
@[simp] theorem subst_subst {κ : Type} (σ : ν → Term κ) (τ : κ → Term μ) (a : Atom ν) :
    (a.subst σ).subst τ = a.subst fun v => (σ v).subst τ := by
  simp [subst, Function.comp_def]

/-- The number of arguments. -/
def arity (a : Atom ν) : Nat :=
  a.args.length

/-- Predicate and number of arguments agree. -/
def sameSymbol (a : Atom ν) (b : Atom μ) : Bool :=
  a.predicate == b.predicate && a.args.length == b.args.length

/-- The atom has no variable. -/
def isGround (a : Atom ν) : Bool :=
  a.args.all fun t => !t.isVariable

/-- The named variables in order, repeats kept. -/
def namedVariables (a : Atom String) : List String :=
  (a.args.filter fun t => t.isVariable && !t.isAnonymous).map Term.name

/-- The atom as written: `teacher(socrates, X)`. -/
def text (a : Atom String) : String :=
  a.predicate ++ "(" ++ String.intercalate ", " (a.args.map Term.name) ++ ")"

/-- Refuses, in this order, a bad predicate name, an empty row of arguments and the first bad
argument. -/
def validate (a : Atom String) : Except ClauseError Unit :=
  if !isPredicateName a.predicate then .error (.invalidName .predicate a.predicate)
  else if a.args.isEmpty then .error (.noArguments a.predicate)
  else a.args.forM Term.validate

end Atom
end HornReasoner
