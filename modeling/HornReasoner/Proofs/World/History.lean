/-
# The world follows its log

Changes are tried one after another on a world without entities. An entity can be given by
its name and attributes or as a whole, and a relationship with attributes, without (then
they are empty) or as a whole: these are the two kinds of change. A change is refused
exactly when it names something blank, and then the world stays as it was, so a run is
the run of the changes that were made (`WorldGraph.run_filter`). Each change that is made
extends what the world records of the log (`WorldGraph.Follows.concat`): pairs in the
order in which they were first related, as they were related last, and names in the order
in which they were first mentioned, with the attributes they were last registered with.

Key definitions: `GraphUpdate.fault?`, `GraphUpdate.mentions`, `WorldGraph.run`,
`WorldGraph.Follows`, `WorldGraph.ListsLog`.
Key theorems: `WorldGraph.apply_of_fault?`, `WorldGraph.apply_of_isSound`,
`WorldGraph.Follows.concat`, `WorldGraph.Follows.listsLog`, `WorldGraph.run_follows_log`.
-/
import HornReasoner.Proofs.World.Graph

namespace HornReasoner

/-- The ends of a relationship. -/
def Relationship.pair (r : Relationship) : String × String :=
  (r.subject, r.object)

/-- What a relationship puts on the edge of its pair. -/
def Relationship.edge (r : Relationship) : Edge :=
  ⟨r.predicate, r.attributes⟩

theorem Relationship.eq_iff {r t : Relationship} : r = t ↔ r.pair = t.pair ∧ r.edge = t.edge := by
  cases r
  cases t
  simp only [pair, edge, Relationship.mk.injEq, Prod.mk.injEq, Edge.mk.injEq]
  tauto

namespace GraphUpdate

/-- The first thing a change names blank: the subject before the object, and both before the label. -/
def fault? : GraphUpdate → Option GraphError
  | .register e => if Text.trim e.name = "" then some .blankEntityName else none
  | .relate r =>
    if Text.trim r.subject = "" then some .blankEntityName
    else if Text.trim r.object = "" then some .blankEntityName
    else if Text.trim r.predicate = "" then some (.blankPredicate r.subject r.object)
    else none

/-- The change names nothing blank. -/
def isSound (u : GraphUpdate) : Bool :=
  u.fault?.isNone

theorem isSound_register_iff {e : Entity} :
    (register e).isSound = true ↔ Text.isBlankText e.name = false := by
  simp [isSound, fault?, ← Text.isBlankText_iff_trim_eq]

theorem isSound_relate_iff {r : Relationship} : (relate r).isSound = true ↔
    Text.isBlankText r.subject = false ∧ Text.isBlankText r.object = false ∧
      Text.isBlankText r.predicate = false := by
  simp [isSound, fault?, ← Text.isBlankText_iff_trim_eq, ite_eq_iff]

/-- The names in a change in the order in which it mentions them. -/
def mentions : GraphUpdate → List String
  | .register e => [e.name]
  | .relate r => [r.subject, r.object]

/-- The attributes that a change registers, under their name. -/
def registered? : GraphUpdate → Option (String × Attributes)
  | .register e => some (e.name, e.attributes)
  | .relate _ => none

/-- The relationship that a change makes, under its pair. -/
def related? : GraphUpdate → Option ((String × String) × Relationship)
  | .register _ => none
  | .relate r => some (r.pair, r)

end GraphUpdate

namespace WorldGraph

variable {g g' : WorldGraph} {done : List GraphUpdate} {u : GraphUpdate}

/-- The world after a change is tried. -/
def attempt (g : WorldGraph) (u : GraphUpdate) : WorldGraph :=
  (g.apply u).2

/-- The world after changes are tried one after another, from a world without entities. -/
def run (us : List GraphUpdate) : WorldGraph :=
  us.foldl attempt .empty

theorem run_concat (us : List GraphUpdate) (u : GraphUpdate) : run (us ++ [u]) = (run us).attempt u :=
  List.foldl_concat ..

/-! ### What is refused -/

/-- **A change that names something blank is refused**, and the world stays as it was. -/
theorem apply_of_fault? (g : WorldGraph) {e : GraphError} (h : u.fault? = some e) :
    g.apply u = (.error e, g) := by
  cases u with
  | register d =>
    simp only [GraphUpdate.fault?, ← Text.isBlankText_iff_trim_eq] at h
    simp only [apply, register]
    split at h
    · next hname => cases h; rw [dif_pos hname]
    · cases h
  | relate r =>
    simp only [GraphUpdate.fault?, ← Text.isBlankText_iff_trim_eq] at h
    simp only [apply, relate]
    split at h
    · next hs => cases h; rw [dif_pos hs]
    · next hs =>
      rw [dif_neg hs]
      split at h
      · next ho => cases h; rw [dif_pos ho]
      · next ho =>
        rw [dif_neg ho]
        split at h
        · next hp => cases h; rw [dif_pos hp]
        · cases h

/-- A change that names nothing blank is made. -/
theorem apply_of_isSound (g : WorldGraph) (h : u.isSound = true) : g.apply u = (.ok (), g.attempt u) := by
  refine Prod.ext ?_ rfl
  cases u with
  | register d =>
    obtain ⟨g', hg', -⟩ := exists_register (g := g) (GraphUpdate.isSound_register_iff.mp h)
    rw [hg']
  | relate r =>
    obtain ⟨hs, ho, hp⟩ := GraphUpdate.isSound_relate_iff.mp h
    obtain ⟨g', hg', -⟩ := exists_relate (g := g) hs ho hp
    rw [hg']

/-- **A change is refused exactly when it names something blank**, with the error of the first. -/
theorem apply_eq_error_iff {e : GraphError} : (g.apply u).1 = .error e ↔ u.fault? = some e := by
  cases hfault : u.fault? with
  | some e' =>
    rw [g.apply_of_fault? hfault]
    simp
  | none =>
    rw [g.apply_of_isSound (by rw [GraphUpdate.isSound, hfault]; rfl)]
    simp

theorem attempt_of_not_isSound (g : WorldGraph) (h : u.isSound = false) : g.attempt u = g := by
  obtain ⟨e, he⟩ := Option.isSome_iff_exists.mp (Option.isNone_eq_false_iff.mp h)
  rw [attempt, g.apply_of_fault? he]

/-- The changes that are refused leave no trace. -/
theorem run_filter (us : List GraphUpdate) : run us = run (us.filter GraphUpdate.isSound) := by
  induction us using List.reverseRecOn with
  | nil => rfl
  | append_singleton us u ih =>
    rw [run_concat, List.filter_append, ih]
    cases hu : u.isSound with
    | true => rw [List.filter_cons_of_pos hu, List.filter_nil, run_concat]
    | false =>
      rw [List.filter_cons_of_neg (by rw [hu]; exact Bool.false_ne_true), List.filter_nil,
        List.append_nil, attempt_of_not_isSound _ hu]

/-! ### What is made -/

theorem attempt_register {e : Entity} (h : (GraphUpdate.register e).isSound = true) :
    (g.attempt (.register e)).entities = g.entities.insert e.name e.attributes ∧
      (g.attempt (.register e)).edges = g.edges := by
  obtain ⟨g', hg', hentities, hedges⟩ := exists_register (g := g) (GraphUpdate.isSound_register_iff.mp h)
  rw [attempt, hg']
  exact ⟨hentities, hedges⟩

theorem attempt_relate {r : Relationship} (h : (GraphUpdate.relate r).isSound = true) :
    (g.attempt (.relate r)).entities =
        (g.entities.insertIfNew r.subject .empty).insertIfNew r.object .empty ∧
      (g.attempt (.relate r)).edges = g.edges.insert r.pair r.edge := by
  obtain ⟨hs, ho, hp⟩ := GraphUpdate.isSound_relate_iff.mp h
  obtain ⟨g', hg', hentities, hedges⟩ := exists_relate (g := g) hs ho hp
  rw [attempt, hg']
  exact ⟨hentities, hedges⟩

/-- The entities and edges of a world are those that its changes mention and write. -/
structure Follows (g : WorldGraph) (done : List GraphUpdate) : Prop where
  entities : g.entities.Mentions .empty (done.flatMap GraphUpdate.mentions)
    (done.filterMap GraphUpdate.registered?)
  edges : g.edges = .ofList ((done.filterMap GraphUpdate.related?).map fun e => (e.1, e.2.edge))

/-- **A change that is made extends the log** that the world follows. -/
theorem Follows.concat (h : g.Follows done) (hu : u.isSound = true) :
    (g.attempt u).Follows (done ++ [u]) := by
  cases u with
  | register e =>
    obtain ⟨hentities, hedges⟩ := attempt_register (g := g) hu
    have hrelated : [GraphUpdate.register e].filterMap GraphUpdate.related? = [] := rfl
    constructor
    · rw [hentities, List.flatMap_append, List.filterMap_append]
      exact h.entities.insert e.name e.attributes
    · rw [hedges, h.edges, List.filterMap_append, hrelated, List.append_nil]
  | relate r =>
    obtain ⟨hentities, hedges⟩ := attempt_relate (g := g) hu
    have hregistered : [GraphUpdate.relate r].filterMap GraphUpdate.registered? = [] := rfl
    have hmentions : [GraphUpdate.relate r].flatMap GraphUpdate.mentions = [r.subject] ++ [r.object] := rfl
    have hrelated : [GraphUpdate.relate r].filterMap GraphUpdate.related? = [(r.pair, r)] := rfl
    constructor
    · rw [hentities, List.flatMap_append, List.filterMap_append, hregistered, List.append_nil, hmentions,
        ← List.append_assoc]
      exact (h.entities.insertIfNew r.subject).insertIfNew r.object
    · rw [hedges, h.edges, List.filterMap_append, hrelated, List.map_append, List.map_singleton,
        OrderedMap.ofList_concat]

theorem follows_run (done : List GraphUpdate) (hsound : ∀ u ∈ done, u.isSound = true) :
    (run done).Follows done := by
  induction done using List.reverseRecOn with
  | nil => exact ⟨⟨rfl, fun k hk => absurd hk List.not_mem_nil, fun e he => absurd he List.not_mem_nil⟩, rfl⟩
  | append_singleton done u ih =>
    rw [run_concat]
    have hdone := ih fun v hv => hsound v (List.mem_append_left _ hv)
    exact hdone.concat (hsound u (List.mem_append_right _ (List.mem_singleton_self u)))

/-! ### What the world lists -/

/-- The lists of a world are what its log says: each pair that was related stands once, in the order
in which pairs were first related, and as it was related last. Each name that was mentioned stands
once, in the order in which names were first mentioned, with the attributes it was last registered
with, or with empty ones if it never was. -/
structure ListsLog (g : WorldGraph) (done : List GraphUpdate) : Prop where
  pairs : g.relationships.map Relationship.pair =
    ((done.filterMap GraphUpdate.related?).map Prod.fst).eraseDups
  pairs_nodup : (g.relationships.map Relationship.pair).Nodup
  mem_relationships (r : Relationship) : r ∈ g.relationships ↔
    lastUnder r.pair (done.filterMap GraphUpdate.related?) = some r
  names : g.entities.keys = (done.flatMap GraphUpdate.mentions).eraseDups
  names_nodup : g.entities.keys.Nodup
  mem_entities (n : String) (a : Attributes) : (n, a) ∈ g.entities.toList ↔
    n ∈ done.flatMap GraphUpdate.mentions ∧
      a = (lastUnder n (done.filterMap GraphUpdate.registered?)).getD .empty

theorem map_pair_relationships (g : WorldGraph) : g.relationships.map Relationship.pair = g.edges.keys :=
  List.map_map

theorem pair_of_related? {e : (String × String) × Relationship} (h : u.related? = some e) :
    e.2.pair = e.1 := by
  cases u with
  | register d => cases h
  | relate r =>
    cases h
    rfl

theorem Follows.listsLog (h : g.Follows done) : g.ListsLog done where
  pairs := by
    rw [map_pair_relationships, h.edges, OrderedMap.keys_ofList, List.map_map]
    rfl
  pairs_nodup := by
    rw [map_pair_relationships]
    exact g.edges.nodup
  mem_relationships r := by
    rw [WorldGraph.mem_relationships, h.edges, OrderedMap.get?_ofList]
    show lastUnder r.pair _ = some r.edge ↔ _
    rw [lastUnder_map Relationship.edge, Option.map_eq_some_iff]
    constructor
    · rintro ⟨t, ht, hedge⟩
      obtain ⟨u, -, hu⟩ := List.mem_filterMap.mp (mem_of_lastUnder ht)
      rw [ht, Option.some_inj, Relationship.eq_iff]
      exact ⟨pair_of_related? hu, hedge⟩
    · intro hr
      exact ⟨r, hr, rfl⟩
  names := h.entities.keys
  names_nodup := g.entities.nodup
  mem_entities _ _ := h.entities.mem_toList_iff

/-- **The world follows its log.** A change is refused exactly when it names something blank, with the
error of the first name or label that is, and then the world stays as it was. After a run of changes
from the world without entities, the world lists what the changes that were made say
(`ListsLog`): the others leave no trace. Both ends of a relationship are entities, and no name or label
is blank. -/
theorem run_follows_log :
    (∀ (g : WorldGraph) (u : GraphUpdate) (e : GraphError),
      (g.apply u).1 = .error e ↔ u.fault? = some e) ∧
    (∀ (g : WorldGraph) (u : GraphUpdate), u.isSound = false → (g.apply u).2 = g) ∧
    ∀ us : List GraphUpdate, (run us).ListsLog (us.filter GraphUpdate.isSound) ∧
      (∀ r ∈ (run us).relationships, r.subject ∈ (run us).entities.keys ∧
        r.object ∈ (run us).entities.keys ∧ Text.trim r.predicate ≠ "") ∧
      ∀ n ∈ (run us).entities.keys, Text.trim n ≠ "" := by
  refine ⟨fun g u e => apply_eq_error_iff, fun g u hu => attempt_of_not_isSound g hu, fun us => ⟨?_, ?_, ?_⟩⟩
  · rw [run_filter]
    exact (follows_run _ fun u hu => (List.mem_filter.mp hu).2).listsLog
  · intro r hr
    obtain ⟨e, he, rfl⟩ := List.mem_map.mp hr
    obtain ⟨hsubject, hobject⟩ := (run us).linked e.1 (List.mem_map.mpr ⟨e, he, rfl⟩)
    exact ⟨hsubject, hobject, Text.isBlankText_eq_false_iff.mp ((run us).labelled e he)⟩
  · exact fun n hn => Text.isBlankText_eq_false_iff.mp ((run us).named n hn)

/-- A town as it is told: a pair related again, a name registered after it was mentioned, a blank
object and an end that stands on both sides. -/
def townLog : List GraphUpdate :=
  [.relate { subject := "ada", predicate := "knows", object := "bob" },
    .relate { subject := "cyd", predicate := "knows", object := " \u00a0" },
    .register { name := "bob", attributes := .ofList [("age", .string "40")] },
    .relate { subject := "bob", predicate := "trusts", object := "bob" },
    .relate { subject := "ada", predicate := "trusts", object := "bob" }]

theorem town_follows_log :
    (run townLog).relationships.map Relationship.pair = [("ada", "bob"), ("bob", "bob")] ∧
    { subject := "ada", predicate := "trusts", object := "bob" } ∈ (run townLog).relationships ∧
    (run townLog).entities.keys = ["ada", "bob"] ∧
    ("bob", .ofList [("age", .string "40")]) ∈ (run townLog).entities.toList := by
  have hlists := (run_follows_log.2.2 townLog).1
  have hmade : townLog.filter GraphUpdate.isSound = townLog.eraseIdx 1 := rfl
  rw [hmade] at hlists
  refine ⟨?_, ?_, ?_, ?_⟩
  · rw [hlists.pairs]
    decide +kernel
  · rw [hlists.mem_relationships]
    rfl
  · rw [hlists.names]
    decide +kernel
  · rw [hlists.mem_entities]
    exact ⟨by decide +kernel, rfl⟩

end WorldGraph
end HornReasoner
