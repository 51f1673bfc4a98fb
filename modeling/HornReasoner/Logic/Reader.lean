/-
# Reading clauses and goals

Atoms do not stand in one another, so a reader of clauses needs no stack: it is a
finite automaton over tokens that keeps the atoms read so far. At each token it
knows what may follow, and the first token that may not is the fault.

```text
clause := atom [ ":-" atom { "," atom } ] "."
goal   := atom [ "." ]
atom   := name "(" name { "," name } ")"
```

Key definitions: `Form`, `Stage`, `Reading`, `Reading.step`, `Clause.read`, `Atom.read`.
-/
import HornReasoner.Logic.Clause

namespace HornReasoner

/-- What a text is read as. -/
inductive Form
  | clause
  | goal
  deriving DecidableEq, Repr

/-- Where a reader stands: before an atom, inside one, after one, or after the final stop. -/
inductive Stage
  | predicate
  | opening (predicate : String)
  | argument (predicate : String) (args : List (Term String))
  | closing (predicate : String) (args : List (Term String))
  | between
  | finished
  deriving DecidableEq, Repr

/-- The atoms read so far and where the reader stands. -/
structure Reading where
  atoms : List (Atom String)
  stage : Stage
  deriving DecidableEq, Repr

namespace Reading

/-- Nothing is read yet. -/
def start : Reading :=
  ⟨[], .predicate⟩

/-- After an atom of a clause, the neck follows the first atom only and a comma the others. -/
def stepBetween (form : Form) (atoms : List (Atom String)) (t : Token) : Except Fault Reading :=
  match form, t with
  | _, .stop => .ok ⟨atoms, .finished⟩
  | .goal, t => .error (.trailing t)
  | .clause, .neck => if atoms.length = 1 then .ok ⟨atoms, .predicate⟩ else .error (.missing .stop (some t))
  | .clause, .comma => if 1 < atoms.length then .ok ⟨atoms, .predicate⟩ else .error (.missing .stop (some t))
  | .clause, t => .error (.missing .stop (some t))

/-- Reads one token. -/
def step (form : Form) (r : Reading) (t : Token) : Except Fault Reading :=
  match r.stage, t with
  | .predicate, .name p => .ok ⟨r.atoms, .opening (String.ofList p)⟩
  | .predicate, t => .error (.missing .name (some t))
  | .opening p, .opening => .ok ⟨r.atoms, .argument p []⟩
  | .opening _, t => .error (.missing .opening (some t))
  | .argument p args, .name n =>
    .ok ⟨r.atoms, .closing p (args ++ [Term.ofIdentifier (String.ofList n)])⟩
  | .argument _ _, t => .error (.missing .name (some t))
  | .closing p args, .comma => .ok ⟨r.atoms, .argument p args⟩
  | .closing p args, .closing => .ok ⟨r.atoms ++ [⟨p, args⟩], .between⟩
  | .closing _ _, t => .error (.missing .closing (some t))
  | .between, t => stepBetween form r.atoms t
  | .finished, t => .error (.trailing t)

/-- What is missing when the text ends here; a goal may end after its atom. -/
def atEnd (form : Form) (r : Reading) : Except Fault (List (Atom String)) :=
  match r.stage with
  | .predicate | .argument _ _ => .error (.missing .name none)
  | .opening _ => .error (.missing .opening none)
  | .closing _ _ => .error (.missing .closing none)
  | .between => if form = .goal then .ok r.atoms else .error (.missing .stop none)
  | .finished => .ok r.atoms

/-- Reads tokens to the end of the text, which is at position `size`. -/
def run (form : Form) (size : Nat) : Reading → List (Nat × Token) → Except SyntaxError (List (Atom String))
  | r, [] => (r.atEnd form).mapError (⟨size, ·⟩)
  | r, (offset, t) :: ts =>
    match r.step form t with
    | .ok r => run form size r ts
    | .error fault => .error ⟨offset, fault⟩

end Reading

/-- The atoms of a text read in a form. Every token is found before the first is read. -/
def readAtoms (form : Form) (s : String) : Except SyntaxError (List (Atom String)) := do
  Reading.run form s.utf8ByteSize Reading.start (← tokens 0 s.toList)

/-- Reads a clause. Names are not checked. -/
def Clause.read (s : String) : Except SyntaxError (Clause String) := do
  match ← readAtoms .clause s with
  | head :: body => return ⟨head, body⟩
  | [] => throw ⟨s.utf8ByteSize, .missing .name none⟩

/-- Reads an atom, after which a stop may stand, and checks its names. -/
def Atom.read (s : String) : Except ClauseError (Atom String) := do
  match readAtoms .goal s with
  | .ok (a :: _) =>
    a.validate
    return a
  | .ok [] => throw (.unreadable ⟨s.utf8ByteSize, .missing .name none⟩)
  | .error e => throw (.unreadable e)

end HornReasoner
