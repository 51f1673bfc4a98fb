/-
# The world mirrors what was learned

A conversation is a row of questions and lessons, in any order, told as intents or as
sentences. With a reasoner that knew nothing at first, the facts in the store are
those of the lessons it accepted, in order, and the world is what these facts say
(`Reasoner.world_mirrors_store`): one edge for each pair of names in the order in
which pairs were first linked, labelled by the last fact on the pair, and one entity
for each name in the order in which names were first mentioned, of the type that the
last mention gives it. Questions change neither, and so do lessons that are refused.

The store keeps every lesson and proves it. The world shows of a pair its last lesson
only, so a lesson stays visible there until another one relabels its pair
(`Reasoner.lessons_stay_visible`).

Key definitions: `Turn`, `Reasoner.converse`, `Reasoner.lessons`, `WorldGraph.Mirrors`,
`lastLabel`.
Key theorems: `Reasoner.take_cases`, `Reasoner.world_mirrors_store`,
`Reasoner.lessons_stay_visible`.
-/
import HornReasoner.Proofs.Reasoner.Answer
import HornReasoner.Proofs.Reasoner.Learning
import Mathlib.Data.List.Forall2

namespace HornReasoner

/-! ### Conversations -/

/-- One turn of a conversation: a question or a lesson, as an intent or as a sentence. The identifier is
for the record of a revision or for the clause. -/
inductive Turn
  | ask (id : Uuid) (intent : Intent)
  | askText (id : Uuid) (text : String)
  | tell (id : Uuid) (intent : Intent)
  | tellText (id : Uuid) (text : String)

namespace Reasoner

variable {r r' : Reasoner} {i : Intent} {c : Clause String}

/-- The reasoner after a turn. -/
def take (r : Reasoner) : Turn → Reasoner
  | .ask id i => (r.ask id i).2
  | .askText id text => (r.askText id text).2
  | .tell id i => (r.tell id i).2
  | .tellText id text => (r.tellText id text).2

/-- The lesson of a turn, if the reasoner reports that it was learned. -/
def accepted (r : Reasoner) : Turn → List Intent
  | .ask _ _ => []
  | .askText _ _ => []
  | .tell id i => if (r.tell id i).1.success then [i] else []
  | .tellText id text => if (r.tellText id text).1.success then [r.parse text] else []

/-- The reasoner after a conversation. -/
def converse (r : Reasoner) (turns : List Turn) : Reasoner :=
  turns.foldl take r

/-- The lessons learned in a conversation, in order. -/
def lessons (r : Reasoner) : List Turn → List Intent
  | [] => []
  | t :: ts => r.accepted t ++ (r.take t).lessons ts

/-- What a turn comes to: a lesson is learned, or at most the histories change. -/
inductive TurnResult (r : Reasoner) : List Intent → Reasoner → Prop
  | learned {i : Intent} {c : Clause String} {r' : Reasoner} (asserts : i.Asserts c)
      (learned : Learned r c r') : TurnResult r [i] r'
  | unchanged (e : ConfidenceEvaluator) : TurnResult r [] { r with evaluator := e }

theorem turnResult_tellAs (r : Reasoner) (id : Uuid) (i : Intent) (label : String) :
    TurnResult r (if (r.tellAs id i label).1.success then [i] else []) (r.tellAs id i label).2 := by
  obtain ⟨hsuccess, ⟨c, hc, hlearned⟩, -⟩ | ⟨hfailure, hsame, -⟩ := r.allOrNothing_tellAs id i label
  · rw [if_pos hsuccess]
    exact .learned (Intent.clause?_eq_some_iff.mp hc) hlearned
  · rw [hfailure, hsame, if_neg Bool.false_ne_true]
    exact .unchanged r.evaluator

/-- **A turn** learns its lesson as a whole or leaves store and world alone. -/
theorem take_cases (r : Reasoner) (t : Turn) : TurnResult r (r.accepted t) (r.take t) := by
  cases t with
  | ask id i =>
    obtain ⟨e, he⟩ := r.exists_evaluator_ask id i
    exact (congrArg (TurnResult r []) he).mpr (.unchanged e)
  | askText id text =>
    obtain ⟨e, he⟩ := r.exists_evaluator_ask id (r.parse text)
    exact (congrArg (TurnResult r []) he).mpr (.unchanged e)
  | tell id i => exact r.turnResult_tellAs id i _
  | tellText id text => exact r.turnResult_tellAs id (r.parse text) text

/-! ### The world of a conversation -/

/-- Store and world hold the facts of some lessons and nothing else. -/
structure Knows (lessons : List Intent) (r : Reasoner) : Prop where
  clauses : List.Forall₂ Intent.Asserts lessons r.store.clauses
  entities : r.world.entities = .ofList (Clause.entities r.store.clauses)
  edges : r.world.edges = .ofList (Clause.edges r.store.clauses)

theorem Knows.learned {lessons : List Intent} (h : Knows lessons r) (hasserts : i.Asserts c)
    (hlearned : Learned r c r') : Knows (lessons ++ [i]) r' where
  clauses := by
    rw [hlearned.clauses]
    exact List.rel_append h.clauses (.cons hasserts .nil)
  entities := by
    rw [hlearned.entities, h.entities, OrderedMap.insertAll_ofList, hlearned.clauses]
    unfold Clause.entities
    rw [List.flatMap_append, List.map_append]
  edges := by
    rw [hlearned.edges, h.edges, OrderedMap.insertAll_ofList, hlearned.clauses]
    unfold Clause.edges
    rw [List.flatMap_append, List.map_append]

/-- Along a conversation the lessons known are those known before and those learned in it. -/
theorem Knows.converse {past : List Intent} (h : Knows past r) (turns : List Turn) :
    Knows (past ++ r.lessons turns) (r.converse turns) := by
  induction turns generalizing r past with
  | nil => simpa [lessons, Reasoner.converse] using h
  | cons t ts ih =>
    have hcases := r.take_cases t
    rw [lessons, ← List.append_assoc]
    refine ih ?_
    generalize r.accepted t = learned, r.take t = r' at hcases
    cases hcases with
    | learned hasserts hlearned => exact h.learned hasserts hlearned
    | unchanged e => simpa using (⟨h.clauses, h.entities, h.edges⟩ : Knows past { r with evaluator := e })

theorem knows_new (config : ReasonerConfig) (parse : String → Intent) : Knows [] (new config parse) :=
  ⟨.nil, rfl, rfl⟩

/-- A conversation that starts with nothing ends with its lessons. -/
theorem knows_converse (config : ReasonerConfig) (parse : String → Intent) (turns : List Turn) :
    Knows ((new config parse).lessons turns) ((new config parse).converse turns) :=
  (knows_new config parse).converse turns

end Reasoner

/-- The world is what a row of facts says of it. -/
structure WorldGraph.Mirrors (g : WorldGraph) (cs : List (Clause String)) : Prop where
  /-- There is one edge for each pair that a fact links, in the order in which they were first linked. -/
  pairs : g.edges.keys = ((cs.flatMap Clause.links).map Prod.fst).eraseDups
  /-- An edge has the label that the last fact on its pair gives it, and no attributes. -/
  labels : ∀ pair, g.edges.get? pair = (lastUnder pair (cs.flatMap Clause.links)).map Edge.plain
  /-- There is one entity for each name that a fact mentions, in the order of first mention. -/
  names : g.entities.keys = ((cs.flatMap Clause.mentioned).map Prod.fst).eraseDups
  /-- An entity has the type that its last mention gives it, and no other attribute. -/
  types : ∀ name, g.entities.get? name =
    (lastUnder name (cs.flatMap Clause.mentioned)).map WorldGraph.typeOnly

namespace Reasoner

variable {r : Reasoner} {lessons : List Intent}

theorem Knows.mirrors (h : Knows lessons r) : r.world.Mirrors r.store.clauses where
  pairs := by
    rw [h.edges, OrderedMap.keys_ofList, Clause.edges, List.map_map]
    rfl
  labels pair := by rw [h.edges, OrderedMap.get?_ofList, Clause.edges, lastUnder_map]
  names := by
    rw [h.entities, OrderedMap.keys_ofList, Clause.entities, List.map_map]
    rfl
  types name := by rw [h.entities, OrderedMap.get?_ofList, Clause.entities, lastUnder_map]

/-- **The world mirrors the store.** After any conversation with a reasoner that knew nothing, the
clauses are the facts of the lessons learned, in order, and the world is what these facts say. -/
theorem world_mirrors_store (config : ReasonerConfig) (parse : String → Intent) (turns : List Turn) :
    List.Forall₂ Intent.Asserts ((new config parse).lessons turns)
        ((new config parse).converse turns).store.clauses ∧
      ((new config parse).converse turns).world.Mirrors
        ((new config parse).converse turns).store.clauses :=
  have h := knows_converse config parse turns
  ⟨h.clauses, h.mirrors⟩

/-- A pair that is linked twice keeps its place and takes the second label; what is told to be itself
is a class; a malformed name is not learned. -/
example :
    let id := Uuid.ofNat 0
    let turns : List Turn := [.tell id (.fact "a" "b"), .tellText id "B likes c.", .ask id (.fact "a" "b"),
      .tell id (.relation "a" "likes" "b"), .tell id (.fact "A" "b"), .tell id (.fact "c" "c")]
    let r := (new {} Sentence.read).converse turns
    r.world.relationships.map (fun e => (e.subject, e.predicate, e.object)) =
        [("a", "likes", "b"), ("b", "likes", "c"), ("c", "is_a", "c")] ∧
      r.world.entities.keys = ["a", "b", "c"] := by
  decide +kernel

/-! ### What stays visible -/

theorem clauses_eq {cs : List (Clause String)} (h : List.Forall₂ Intent.Asserts lessons cs) :
    lessons.filterMap Intent.clause? = cs := by
  induction h with
  | nil => rfl
  | cons hi _ ih => rw [List.filterMap_cons_some (Intent.clause?_eq_some_iff.mpr hi), ih]

end Reasoner

/-- The label that a pair has from the last of some lessons on it. -/
def lastLabel (lessons : List Intent) (pair : String × String) : Option String :=
  lastUnder pair ((lessons.filterMap Intent.clause?).flatMap Clause.links)

namespace Reasoner

variable {r : Reasoner} {lessons : List Intent}

/-- The edge of a pair has the label of the last lesson on it. -/
theorem Knows.get?_edges (h : Knows lessons r) (pair : String × String) :
    r.world.edges.get? pair = (lastLabel lessons pair).map Edge.plain := by
  rw [h.mirrors.labels, lastLabel, clauses_eq h.clauses]

/-- The facts of lessons are provable. -/
theorem Knows.proves (h : Knows lessons r) (hroom : 1 ≤ r.store.config.maxSolutions) {i : Intent}
    {a : Atom String} (hi : i ∈ lessons) (ha : i.Asserts (.fact a)) : r.store.Proves a := by
  refine KnowledgeStore.proves_of_fact ?_ hroom
  rw [← clauses_eq h.clauses]
  exact List.mem_filterMap.mpr ⟨i, hi, Intent.clause?_eq_some_iff.mpr ha⟩

theorem config_converse (r : Reasoner) (turns : List Turn) :
    (r.converse turns).store.config = r.store.config := by
  induction turns generalizing r with
  | nil => rfl
  | cons t ts ih =>
    have hcases := r.take_cases t
    refine (ih (r.take t)).trans ?_
    generalize r.accepted t = learned, r.take t = r' at hcases
    cases hcases with
    | learned _ hlearned => exact hlearned.config
    | unchanged e => rfl

/-- **Lessons stay visible.** After any conversation with a reasoner that knew nothing the store proves
every lesson that was learned. In the world, a class told of an entity is among its classes exactly if
the last lesson on the two classifies, and a relation told is found exactly if the last lesson on its
pair has its verb. -/
theorem lessons_stay_visible (config : ReasonerConfig) (parse : String → Intent) (turns : List Turn)
    (hroom : 1 ≤ config.store.maxSolutions) :
    let lessons := (new config parse).lessons turns
    let r := (new config parse).converse turns
    (∀ s p, .fact s p ∈ lessons → r.store.Proves ⟨p, [.const s]⟩ ∧
        (p ∈ r.world.typesOf s ↔
          lastLabel lessons (s, p) = some "is_a" ∨ lastLabel lessons (s, p) = some "type")) ∧
      ∀ s v o, .relation s v o ∈ lessons → r.store.Proves ⟨v, [.const s, .const o]⟩ ∧
        (r.world.matching (some s) (some v) (some o) ≠ [] ↔ lastLabel lessons (s, o) = some v) := by
  intro lessons r
  have h : Knows lessons r := knows_converse config parse turns
  have hroom' : 1 ≤ r.store.config.maxSolutions := by
    rw [config_converse]
    exact hroom
  refine ⟨fun s p hi => ⟨h.proves hroom' hi (.fact s p), ?_⟩,
    fun s v o hi => ⟨h.proves hroom' hi (.relation s v o), ?_⟩⟩
  · rw [WorldGraph.mem_typesOf, h.get?_edges]
    cases lastLabel lessons (s, p) <;> simp [Edge.plain]
  · rw [WorldGraph.matching_ne_nil_iff, h.get?_edges]
    cases lastLabel lessons (s, o) <;> simp [Edge.plain]

/-- A fact and a relation on different pairs are both visible. -/
theorem socrates_stays_visible :
    let r := (new {} Sentence.read).converse
      [.tell (.ofNat 0) (.fact "socrates" "human"), .tell (.ofNat 1) (.relation "socrates" "teaches" "plato")]
    r.store.Proves ⟨"human", [.const "socrates"]⟩ ∧ "human" ∈ r.world.typesOf "socrates" ∧
      r.store.Proves ⟨"teaches", [.const "socrates", .const "plato"]⟩ ∧
      r.world.matching (some "socrates") (some "teaches") (some "plato") ≠ [] := by
  obtain ⟨hfacts, hrelations⟩ := lessons_stay_visible {} Sentence.read
    [.tell (.ofNat 0) (.fact "socrates" "human"), .tell (.ofNat 1) (.relation "socrates" "teaches" "plato")]
    (by decide)
  obtain ⟨hhuman, htypes⟩ := hfacts "socrates" "human" (by decide +kernel)
  obtain ⟨hteaches, hmatching⟩ := hrelations "socrates" "teaches" "plato" (by decide +kernel)
  exact ⟨hhuman, htypes.mpr (by decide +kernel), hteaches, hmatching.mpr (by decide +kernel)⟩

/-- A relation told later takes the pair of a fact from the classes, and one verb takes the pair of
another, though both lessons were learned. -/
theorem relabelled_pair_hides_lesson :
    let gossip : List Turn := [.tell (.ofNat 0) (.fact "a" "b"), .tell (.ofNat 1) (.relation "a" "likes" "b"),
      .tell (.ofNat 2) (.relation "b" "likes" "c"), .tell (.ofNat 3) (.relation "b" "knows" "c")]
    let r := (new {} Sentence.read).converse gossip
    (1 ≤ r.store.config.maxSolutions ∧ .fact "a" "b" ∈ (new {} Sentence.read).lessons gossip ∧
        "b" ∉ r.world.typesOf "a") ∧
      .relation "b" "likes" "c" ∈ (new {} Sentence.read).lessons gossip ∧
        r.world.matching (some "b") (some "likes") (some "c") = [] := by
  decide +kernel

end Reasoner
end HornReasoner
