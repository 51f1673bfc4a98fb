/-
# The knowledge store

Clauses are asserted one after another and never withdrawn; the same clause
asserted twice stands twice. Only well-formed clauses get in, so a search need not
check them again. A clause comes with an identifier, and so does a text that is to
be read as one.

An assertion may fail. What it comes to is then an error, and in either case also the
store as it is afterwards.

Key definitions: `Assertion`, `ClauseKind`, `Addition`, `KnowledgeStore`,
`KnowledgeStore.empty`, `KnowledgeStore.assert`, `KnowledgeStore.assertText`,
`KnowledgeStore.query`.
-/
import HornReasoner.Config.Basic
import HornReasoner.Logic.Reader
import HornReasoner.Resolution.Answer
import HornReasoner.Uuid

namespace HornReasoner

/-- A clause with its identifier. -/
structure Assertion where
  id : Uuid
  clause : Clause String
  deriving DecidableEq

/-- As what a clause is asserted: without a body, or with one. -/
inductive ClauseKind
  | fact
  | rule
  deriving DecidableEq, Repr

namespace ClauseKind

/-- The clause is of the kind. -/
def fits : ClauseKind → Clause String → Bool
  | fact => Clause.isFact
  | rule => Clause.isRule

/-- The error for a clause of the other kind. -/
def unfit : ClauseKind → Clause String → ClauseError
  | fact => fun c => .expectedFact c.text
  | rule => fun c => .expectedRule c.text

end ClauseKind

/-- A request to assert a clause, given as such or as a text. -/
inductive Addition
  | clause (kind : ClauseKind) (assertion : Assertion)
  | text (kind : ClauseKind) (id : Uuid) (text : String)
  deriving DecidableEq

/-- Asserted clauses in order, and the settings of queries. -/
structure KnowledgeStore where
  config : StoreConfig := {}
  assertions : List Assertion := []
  /-- Every asserted clause is well formed. -/
  wellFormed : ∀ a ∈ assertions, a.clause.validate = .ok () := by
    intro a ha
    cases ha

namespace KnowledgeStore

/-- A store in which nothing is asserted. -/
def empty (config : StoreConfig) : KnowledgeStore where
  config := config

/-- The clauses in the order asserted. -/
def clauses (s : KnowledgeStore) : List (Clause String) :=
  s.assertions.map Assertion.clause

/-- The number of clauses. -/
def size (s : KnowledgeStore) : Nat :=
  s.assertions.length

/-- Appends a clause, unless a name in it is malformed. -/
def append (s : KnowledgeStore) (a : Assertion) : Except ClauseError Uuid × KnowledgeStore :=
  match h : a.clause.validate with
  | .error e => (.error e, s)
  | .ok () => (.ok a.id, { s with
      assertions := s.assertions ++ [a]
      wellFormed := by
        intro b hb
        rcases List.mem_append.1 hb with hb | hb
        · exact s.wellFormed b hb
        · simp only [List.mem_singleton] at hb
          exact hb ▸ h })

/-- Asserts a clause as one of a kind. -/
def assert (s : KnowledgeStore) (kind : ClauseKind) (a : Assertion) :
    Except ClauseError Uuid × KnowledgeStore :=
  if kind.fits a.clause then s.append a else (.error (kind.unfit a.clause), s)

/-- Reads a clause, which gets an identifier, and asserts it as one of a kind. -/
def assertText (s : KnowledgeStore) (kind : ClauseKind) (id : Uuid) (text : String) :
    Except ClauseError Uuid × KnowledgeStore :=
  match Clause.read text with
  | .error e => (.error (.unreadable e), s)
  | .ok c => s.assert kind ⟨id, c⟩

/-- Answers a request: the identifier of the clause asserted, or the error for which it is refused. -/
def add (s : KnowledgeStore) : Addition → Except ClauseError Uuid × KnowledgeStore
  | .clause kind a => s.assert kind a
  | .text kind id text => s.assertText kind id text

/-- Answers requests one after another up to the first that is refused. What was asserted before stays
asserted. -/
def addEach (s : KnowledgeStore) : List Addition → Except ClauseError Unit × KnowledgeStore
  | [] => (.ok (), s)
  | a :: more =>
    match s.add a with
    | (.ok _, s) => s.addEach more
    | (.error e, s) => (.error e, s)

/-- The answers to a goal. A predicate that no clause has gives none; a malformed goal is an error. -/
def query (s : KnowledgeStore) (goal : Atom String) : Except QueryError (List Binding) := do
  goal.validate.mapError .ofClauseError
  solve s.clauses goal s.config.maxDepth s.config.maxSolutions

/-- Reads a goal and gives its answers. -/
def queryText (s : KnowledgeStore) (text : String) : Except QueryError (List Binding) := do
  s.query (← (Atom.read text).mapError .ofClauseError)

/-- The clauses whose text holds a predicate name somewhere. -/
def mentioning (s : KnowledgeStore) (predicate : String) : List (Clause String) :=
  s.clauses.filter fun c => c.mentions predicate

end KnowledgeStore
end HornReasoner
