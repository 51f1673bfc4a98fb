/-
# Learning takes all of an intent or nothing

Learning asserts a clause and then makes three changes of the world, and nothing is
taken back when a later step fails. It is all or nothing for a reason outside of it:
a clause is asserted only if its names are well formed, well-formed names are not
blank, and the world refuses nothing but blank names and labels. So an intent whose
clause is well formed is learned as a whole, and any other leaves the reasoner as it
was (`Reasoner.learn_cases`); that the world refuses what the store took does not
happen.

A clause with one argument makes it an entity of the class that its predicate names,
and a clause with two relates the first to the second.

Key definitions: `Intent.Asserts`, `Clause.links`, `Clause.mentioned`, `Reasoner.Learned`,
`WorldGraph.Depicts`, `Reasoner.AllOrNothing`.
Key theorems: `Reasoner.learn_cases`, `Reasoner.tell_all_or_nothing`.
-/
import HornReasoner.Proofs.Logic.Names
import HornReasoner.Proofs.Store.Facts
import HornReasoner.Proofs.World.Graph
import HornReasoner.Reasoner.Basic

namespace HornReasoner

/-! ### Clauses of intents -/

/-- The fact that an intent asserts when it is learned. -/
inductive Intent.Asserts : Intent → Clause String → Prop
  | fact (subject predicate : String) :
      Asserts (.fact subject predicate) (.fact ⟨predicate, [.const subject]⟩)
  | relation (subject verb object : String) :
      Asserts (.relation subject verb object) (.fact ⟨verb, [.const subject, .const object]⟩)

theorem Intent.clause?_eq_some_iff {i : Intent} {c : Clause String} :
    i.clause? = some c ↔ i.Asserts c := by
  constructor
  · intro h
    cases i with
    | fact s p => cases h; exact .fact s p
    | relation s v o => cases h; exact .relation s v o
    | question q => cases h
    | unknown t => cases h
  · rintro (⟨s, p⟩ | ⟨s, v, o⟩) <;> rfl

theorem Intent.Asserts.isFact {i : Intent} {c : Clause String} (h : i.Asserts c) : c.isFact = true := by
  cases h <;> rfl

/-- The pairs of entities that a fact links, each with its label: `p(s)` makes `s` a `p`, and `v(s, o)`
relates `s` to `o` by `v`. -/
def Clause.links (c : Clause String) : List ((String × String) × String) :=
  match c.head.args with
  | [.const s] => [((s, c.head.predicate), "is_a")]
  | [.const s, .const o] => [((s, o), c.head.predicate)]
  | _ => []

/-- The entities that a fact mentions, in order, each with its type: in `p(s)` the entity `s` and the
class `p`, in `v(s, o)` the entities `s` and `o`. -/
def Clause.mentioned (c : Clause String) : List (String × String) :=
  match c.head.args with
  | [.const s] => [(s, "entity"), (c.head.predicate, "class")]
  | [.const s, .const o] => [(s, "entity"), (o, "entity")]
  | _ => []

/-- An edge without attributes. -/
def Edge.plain (label : String) : Edge := ⟨label, .empty⟩

/-- The edges of a row of facts, in order. -/
def Clause.edges (cs : List (Clause String)) : List ((String × String) × Edge) :=
  (cs.flatMap Clause.links).map fun l => (l.1, Edge.plain l.2)

/-- The entities of a row of facts, in order. -/
def Clause.entities (cs : List (Clause String)) : List (String × Attributes) :=
  (cs.flatMap Clause.mentioned).map fun m => (m.1, WorldGraph.typeOnly m.2)

/-- What a well-formed fact of an intent tells the world is taken in as a whole. -/
theorem WorldGraph.exists_depicting (g : WorldGraph) {i : Intent} {c : Clause String}
    (h : i.Asserts c) (hc : c.validate = .ok ()) :
    ∃ g', g.applyAll i.updates = (.ok (), g') ∧ g'.entities = g.entities.insertAll (Clause.entities [c]) ∧
      g'.edges = g.edges.insertAll (Clause.edges [c]) := by
  obtain ⟨hpred, -, hargs⟩ := Atom.validate_eq_ok_iff.mp (Clause.validate_head hc)
  have hlabel := isBlankText_of_isConstantName (isConstantName_of_isPredicateName hpred)
  have hname : ∀ n, .const n ∈ c.head.args → Text.isBlankText n = false := fun n hn =>
    isBlankText_of_isConstantName (Term.validate_const.mp (hargs _ hn))
  cases h with
  | fact s p =>
    exact exists_linked g "entity" "class" (hname s List.mem_cons_self) hlabel (by decide)
  | relation s v o =>
    exact exists_linked g "entity" "entity" (hname s List.mem_cons_self)
      (hname o (List.mem_cons_of_mem _ List.mem_cons_self)) hlabel

namespace Reasoner

variable {r r' : Reasoner} {i : Intent} {c : Clause String}

/-! ### One lesson -/

/-- The second reasoner is the first with one more fact, in the store and in the world. -/
structure Learned (r : Reasoner) (c : Clause String) (r' : Reasoner) : Prop where
  parse : r'.parse = r.parse
  evaluator : r'.evaluator = r.evaluator
  config : r'.store.config = r.store.config
  clauses : r'.store.clauses = r.store.clauses ++ [c]
  entities : r'.world.entities = r.world.entities.insertAll (Clause.entities [c])
  edges : r'.world.edges = r.world.edges.insertAll (Clause.edges [c])

/-- What learning an intent comes to: its fact is learned under its identifier, or nothing happens. -/
inductive LearnResult (r : Reasoner) (id : Uuid) (i : Intent) :
    Except KnowledgeAdditionError Uuid × Reasoner → Prop
  | learned {c : Clause String} {r' : Reasoner} (asserts : i.Asserts c) (valid : c.validate = .ok ())
      (learned : Learned r c r') : LearnResult r id i (.ok id, r')
  | notKnowledge (none : i.clause? = none) : LearnResult r id i (.error .notKnowledge, r)
  | refused {c : Clause String} {e : ClauseError} (asserts : i.Asserts c)
      (invalid : c.validate = .error e) : LearnResult r id i (.error (.clause e), r)

/-- **An intent is learned as a whole or not at all.** -/
theorem learn_cases (r : Reasoner) (id : Uuid) (i : Intent) : LearnResult r id i (r.learn id i) := by
  unfold learn
  cases hi : i.clause? with
  | none => exact .notKnowledge hi
  | some c =>
    have hasserts := Intent.clause?_eq_some_iff.mp hi
    have hfits : ClauseKind.fact.fits c = true := hasserts.isFact
    dsimp only
    cases hc : c.validate with
    | error e =>
      rw [KnowledgeStore.assert_of_fits (a := ⟨id, c⟩) hfits,
        KnowledgeStore.append_of_invalid (a := ⟨id, c⟩) _ hc]
      exact .refused hasserts hc
    | ok _ =>
      obtain ⟨s', hs', happends⟩ := r.store.assert_of_accepted _ (a := ⟨id, c⟩) hfits hc
      obtain ⟨g', hg', hentities, hedges⟩ := r.world.exists_depicting hasserts hc
      rw [hs']
      dsimp only
      rw [hg']
      exact .learned hasserts hc ⟨rfl, rfl, happends.config, happends.clauses, hentities, hedges⟩

end Reasoner

/-! ### All or nothing -/

/-- The world holds what an intent tells: the edge, and both its ends with their types. What is told
to be itself is a class. -/
def WorldGraph.Depicts (g : WorldGraph) : Intent → Prop
  | .fact s p => g.edges.get? (s, p) = some (.plain "is_a") ∧
      g.attributes? s = some (typeOnly (if s = p then "class" else "entity")) ∧
      g.attributes? p = some (typeOnly "class")
  | .relation s v o => g.edges.get? (s, o) = some (.plain v) ∧
      g.attributes? s = some (typeOnly "entity") ∧ g.attributes? o = some (typeOnly "entity")
  | _ => False

namespace Reasoner

variable {r r' : Reasoner} {i : Intent} {c : Clause String}

theorem Learned.depicts (hasserts : i.Asserts c) (h : Learned r c r') : r'.world.Depicts i := by
  cases hasserts with
  | fact s p =>
    have hentities : r'.world.entities = (r.world.entities.insert s (WorldGraph.typeOnly "entity")).insert p
        (WorldGraph.typeOnly "class") := h.entities
    have hedges : r'.world.edges = r.world.edges.insert (s, p) (.plain "is_a") := h.edges
    refine ⟨?_, ?_, ?_⟩
    · rw [hedges, OrderedMap.get?_insert_self]
    · rw [WorldGraph.attributes?, hentities, OrderedMap.get?_insert_insert, apply_ite WorldGraph.typeOnly]
    · rw [WorldGraph.attributes?, hentities, OrderedMap.get?_insert_self]
  | relation s v o =>
    have hentities : r'.world.entities = (r.world.entities.insert s (WorldGraph.typeOnly "entity")).insert o
        (WorldGraph.typeOnly "entity") := h.entities
    have hedges : r'.world.edges = r.world.edges.insert (s, o) (.plain v) := h.edges
    refine ⟨?_, ?_, ?_⟩
    · rw [hedges, OrderedMap.get?_insert_self]
    · rw [WorldGraph.attributes?, hentities, OrderedMap.get?_insert_insert, ite_self]
    · rw [WorldGraph.attributes?, hentities, OrderedMap.get?_insert_self]

/-- Success is reported, the store has one clause more, and the world holds what it tells; or failure is
reported, the reasoner is the one before, and there was no well-formed clause to learn. -/
def AllOrNothing (r : Reasoner) (i : Intent) (outcome : KnowledgeUpdate × Reasoner) : Prop :=
  (outcome.1.success = true ∧ (∃ c, i.clause? = some c ∧ Learned r c outcome.2) ∧
      outcome.2.world.Depicts i) ∨
    (outcome.1.success = false ∧ outcome.2 = r ∧ ∀ c, i.clause? = some c → c.validate ≠ .ok ())

theorem allOrNothing_tellAs (r : Reasoner) (id : Uuid) (i : Intent) (label : String) :
    r.AllOrNothing i (r.tellAs id i label) := by
  unfold tellAs
  have hcases := r.learn_cases id i
  generalize r.learn id i = outcome at hcases
  cases hcases with
  | learned hasserts _ hlearned =>
    have hclause := Intent.clause?_eq_some_iff.mpr hasserts
    exact Or.inl ⟨rfl, ⟨_, hclause, hlearned⟩, hlearned.depicts hasserts⟩
  | notKnowledge hnone =>
    refine Or.inr ⟨rfl, rfl, fun c hc => ?_⟩
    rw [hnone] at hc
    cases hc
  | refused hasserts hinvalid =>
    refine Or.inr ⟨rfl, rfl, fun c hc => ?_⟩
    rw [Intent.clause?_eq_some_iff.mpr hasserts] at hc
    cases hc
    rw [hinvalid]
    simp

/-- **Knowledge is added as a whole or not at all.** However an intent is told, success means one more
clause in the store and its edge and typed ends in the world, and failure means that nothing has
changed. The world never refuses what the store took. -/
theorem tell_all_or_nothing (r : Reasoner) :
    (∀ id i, r.AllOrNothing i (r.tell id i)) ∧
      (∀ id text, r.AllOrNothing (r.parse text) (r.tellText id text)) ∧
      ∀ id i e, (r.learn id i).1 ≠ .error (.graph e) := by
  refine ⟨fun id i => r.allOrNothing_tellAs id i _, fun id text => r.allOrNothing_tellAs id _ text,
    fun id i e h => ?_⟩
  have hcases := r.learn_cases id i
  generalize r.learn id i = outcome at h hcases
  cases hcases <;> cases h

end Reasoner
end HornReasoner
