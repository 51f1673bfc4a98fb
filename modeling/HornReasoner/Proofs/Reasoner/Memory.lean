/-
# What was learned is not forgotten

Whatever is done with a reasoner, its clauses stay where they are and new ones come
after them: answers and snapshots do not touch the store, lessons and the classics
append to it, and an operation that fails keeps what it has appended
(`Reasoner.keeps_perform`). So a fact is provable from the moment it is asserted on.

A sentence of the right shape has well-formed names, so telling it succeeds; and the
question about it has a yes for an answer ever after, or its goal a proof
(`Reasoner.told_is_known`).

Key definitions: `Operation`, `Reasoner.run`, `Reasoner.Keeps`.
Key theorems: `Reasoner.keeps_run`, `Reasoner.tellAs_of_valid`, `Reasoner.told_is_known`.
-/
import HornReasoner.Proofs.Dialogue.Sentence
import HornReasoner.Proofs.Reasoner.Conversation
import HornReasoner.Reasoner.Seed

namespace HornReasoner

/-! ### Settings in range -/

theorem StoreConfig.one_le_maxSolutions {config : StoreConfig} (h : config.validate = .ok ()) :
    1 ≤ config.maxSolutions := by
  unfold validate at h
  cases ht : checkThreshold "store.confidence_threshold" config.confidenceThreshold with
  | error e => rw [ht] at h; cases h
  | ok _ =>
    rw [ht] at h
    obtain hzero | hpos := Nat.eq_zero_or_pos config.maxSolutions
    · -- Either the depth is refused first or the number of answers is.
      simp only [bind, Except.bind, if_pos hzero] at h
      split at h <;> cases h
    · exact hpos

/-- Settings in range let a query give an answer. -/
theorem ReasonerConfig.one_le_maxSolutions {config : ReasonerConfig} (h : config.validate = .ok ()) :
    1 ≤ config.store.maxSolutions := by
  unfold validate at h
  cases ht : checkThreshold "confidence_threshold" config.confidenceThreshold with
  | error e => rw [ht] at h; cases h
  | ok _ =>
    rw [ht] at h
    exact StoreConfig.one_le_maxSolutions h

/-! ### Reports -/

/-- A success is reported in one way. -/
theorem KnowledgeUpdate.ofResult_of_success {label : String} {result : Except KnowledgeAdditionError Uuid}
    (h : (ofResult label result).success = true) :
    ofResult label result = ⟨true, "Successfully added new knowledge: " ++ label⟩ := by
  cases result with
  | ok id => rfl
  | error e => cases e <;> cases h

/-! ### Operations -/

/-- What can be done with a reasoner. -/
inductive Operation
  | turn (turn : Turn)
  | learnClassics (ids : Nat → Uuid)
  | restore (snapshot : GraphSnapshot)

namespace Reasoner

variable {r r' r'' : Reasoner} {i : Intent} {c : Clause String}

/-- The reasoner after an operation, which may have failed. -/
def perform (r : Reasoner) : Operation → Reasoner
  | .turn t => r.take t
  | .learnClassics ids => (r.learnClassics ids).2
  | .restore snapshot => (r.restore snapshot).2

/-- The reasoner after a row of operations. -/
def run (r : Reasoner) (ops : List Operation) : Reasoner :=
  ops.foldl perform r

/-! ### Nothing is forgotten -/

/-- The second reasoner reads and searches like the first and has its clauses, in their places. -/
structure Keeps (r r' : Reasoner) : Prop where
  parse : r'.parse = r.parse
  config : r'.store.config = r.store.config
  clauses : r.store.clauses <+: r'.store.clauses

theorem Keeps.of_store_eq (hparse : r'.parse = r.parse) (hstore : r'.store = r.store) : Keeps r r' :=
  ⟨hparse, by rw [hstore], by rw [hstore]⟩

theorem Keeps.trans (h : Keeps r r') (h' : Keeps r' r'') : Keeps r r'' :=
  ⟨h'.parse.trans h.parse, h'.config.trans h.config, h.clauses.trans h'.clauses⟩

theorem Learned.keeps (h : Learned r c r') : Keeps r r' :=
  ⟨h.parse, h.config, h.clauses ▸ List.prefix_append _ _⟩

theorem keeps_take (r : Reasoner) (t : Turn) : Keeps r (r.take t) := by
  have hcases := r.take_cases t
  generalize r.accepted t = learned, r.take t = r' at hcases
  cases hcases with
  | learned _ hlearned => exact hlearned.keeps
  | unchanged e => exact .of_store_eq rfl rfl

/-- The classics are appended to the store, all of them or those before one that is refused. -/
theorem appends_learnClassics (r : Reasoner) (ids : Nat → Uuid) :
    ∃ as, r.store.Appends as (r.learnClassics ids).2.store := by
  obtain ⟨as, happends⟩ := KnowledgeStore.exists_appends_addEach (classicalAdditions ids) r.store
  refine ⟨as, ?_⟩
  unfold learnClassics
  split
  · next e store h =>
    rw [h] at happends
    exact happends
  · next store h =>
    rw [h] at happends
    exact happends

/-- Nothing but store and world changes when the classics are learned. -/
theorem exists_learnClassics (r : Reasoner) (ids : Nat → Uuid) :
    ∃ store world, (r.learnClassics ids).2 = { r with store, world } := by
  unfold learnClassics
  split
  · exact ⟨_, r.world, rfl⟩
  · exact ⟨_, _, rfl⟩

theorem keeps_learnClassics (r : Reasoner) (ids : Nat → Uuid) : Keeps r (r.learnClassics ids).2 := by
  obtain ⟨as, happends⟩ := r.appends_learnClassics ids
  obtain ⟨store, world, hclassics⟩ := r.exists_learnClassics ids
  refine ⟨by rw [hclassics], happends.config, ?_⟩
  rw [happends.clauses]
  exact List.prefix_append _ _

theorem restore_of_ok (r : Reasoner) {s : GraphSnapshot} {g : WorldGraph}
    (h : WorldGraph.ofSnapshot s = .ok g) : r.restore s = (.ok (), { r with world := g }) := by
  rw [restore, h]

theorem restore_of_error (r : Reasoner) {s : GraphSnapshot} {e : GraphError}
    (h : WorldGraph.ofSnapshot s = .error e) : r.restore s = (.error e, r) := by
  rw [restore, h]

/-- A snapshot replaces the world only, if anything. -/
theorem exists_world_restore (r : Reasoner) (s : GraphSnapshot) :
    ∃ g, (r.restore s).2 = { r with world := g } := by
  cases h : WorldGraph.ofSnapshot s with
  | ok g => exact ⟨g, by rw [r.restore_of_ok h]⟩
  | error e => exact ⟨r.world, by rw [r.restore_of_error h]⟩

/-- **An operation forgets nothing**, whether it succeeds or fails. -/
theorem keeps_perform (r : Reasoner) (op : Operation) : Keeps r (r.perform op) := by
  cases op with
  | turn t => exact r.keeps_take t
  | learnClassics ids => exact r.keeps_learnClassics ids
  | restore snapshot =>
    obtain ⟨g, hg⟩ := r.exists_world_restore snapshot
    rw [perform, hg]
    exact .of_store_eq rfl rfl

theorem keeps_run (r : Reasoner) (ops : List Operation) : Keeps r (r.run ops) := by
  induction ops generalizing r with
  | nil => exact .of_store_eq rfl rfl
  | cons op ops ih => exact (r.keeps_perform op).trans (ih (r.perform op))

/-! ### What is told is known -/

/-- A well-formed fact is learned when it is told. -/
theorem tellAs_of_valid (r : Reasoner) (id : Uuid) (label : String) (hclause : i.clause? = some c)
    (hvalid : c.validate = .ok ()) :
    (r.tellAs id i label).1 = ⟨true, "Successfully added new knowledge: " ++ label⟩ ∧
      Learned r c (r.tellAs id i label).2 := by
  obtain ⟨hsuccess, ⟨c', hc', hlearned⟩, -⟩ | ⟨-, -, hinvalid⟩ := r.allOrNothing_tellAs id i label
  · cases hclause.symm.trans hc'
    exact ⟨KnowledgeUpdate.ofResult_of_success hsuccess, hlearned⟩
  · exact absurd hvalid (hinvalid c hclause)

/-- The fact of a sentence that was read is well formed. -/
theorem valid_of_read {text : String} (hasserts : (Sentence.read text).Asserts c) :
    c.validate = .ok () := by
  have hnames := Sentence.smallLetters_read text
  generalize Sentence.read text = i at hasserts hnames
  cases hasserts with
  | fact s p =>
    obtain ⟨hs, hp⟩ : Sentence.SmallLetters s ∧ Sentence.SmallLetters p := by
      simpa [Intent.names] using hnames
    exact Sentence.validate_of_smallLetters hp [s] (by simp) (by simpa using hs)
  | relation s v o =>
    obtain ⟨hs, hv, ho⟩ :
        Sentence.SmallLetters s ∧ Sentence.SmallLetters v ∧ Sentence.SmallLetters o := by
      simpa [Intent.names] using hnames
    exact Sentence.validate_of_smallLetters hv [s, o] (by simp) (by simpa using ⟨hs, ho⟩)

/-- What a sentence told a reasoner, at any time before, the store proves. -/
theorem proves_after_told (id : Uuid) (text : String) (a : Atom String) (hparse : r.parse = Sentence.read)
    (hroom : 1 ≤ r.store.config.maxSolutions) (hasserts : (Sentence.read text).Asserts (.fact a)) :
    (r.tellText id text).1 = ⟨true, "Successfully added new knowledge: " ++ text⟩ ∧
      ∀ after, ((r.tellText id text).2.run after).parse = Sentence.read ∧
        ((r.tellText id text).2.run after).store.Proves a := by
  obtain ⟨hsuccess, hlearned⟩ := r.tellAs_of_valid id text (Intent.clause?_eq_some_iff.mpr hasserts)
    (valid_of_read hasserts)
  unfold tellText
  rw [hparse]
  refine ⟨hsuccess, fun after => ?_⟩
  have hkeeps := hlearned.keeps.trans (keeps_run _ after)
  refine ⟨hkeeps.parse.trans hparse, KnowledgeStore.proves_of_fact ?_ (hkeeps.config ▸ hroom)⟩
  refine (keeps_run _ after).clauses.subset ?_
  rw [hlearned.clauses]
  exact List.mem_concat_self

/-- **What was told is known ever after.** A reasoner whose settings are in range learns every sentence
that reads as a fact or a relation, whatever was done before; and whatever is done afterwards, it answers
the question about the fact with yes and proves the relation. -/
theorem told_is_known (config : ReasonerConfig) (hconfig : config.validate = .ok ())
    (before : List Operation) (id : Uuid) (text : String) :
    let r := (new config Sentence.read).run before
    (∀ s p, Sentence.read text = .fact s p →
      (r.tellText id text).1 = ⟨true, "Successfully added new knowledge: " ++ text⟩ ∧
        ∀ after askId,
          (((r.tellText id text).2.run after).askText askId ("Is " ++ s ++ " " ++ p ++ "?")).1.answer =
            "Yes, " ++ s ++ " is " ++ p ++ ".") ∧
      ∀ s v o, Sentence.read text = .relation s v o →
        (r.tellText id text).1 = ⟨true, "Successfully added new knowledge: " ++ text⟩ ∧
          ∀ after, ((r.tellText id text).2.run after).store.Proves ⟨v, [.const s, .const o]⟩ := by
  intro r
  have hkeeps : Keeps (new config Sentence.read) r := keeps_run _ before
  have hparse : r.parse = Sentence.read := hkeeps.parse
  have hroom : 1 ≤ r.store.config.maxSolutions := by
    rw [hkeeps.config]
    exact ReasonerConfig.one_le_maxSolutions hconfig
  constructor
  · intro s p hread
    have hnames := Sentence.smallLetters_read text
    rw [hread] at hnames
    obtain ⟨hsuccess, hafter⟩ := proves_after_told id text ⟨p, [.const s]⟩ hparse hroom (hread ▸ .fact s p)
    refine ⟨hsuccess, fun after askId => ?_⟩
    obtain ⟨hparse', hproves⟩ := hafter after
    rw [askText, hparse', Sentence.read_yesNo (hnames s (by simp [Intent.names]))
      (hnames p (by simp [Intent.names])), answer_yesNo,
      if_pos (KnowledgeStore.reason_truth_iff.mpr hproves)]
  · intro s v o hread
    obtain ⟨hsuccess, hafter⟩ := proves_after_told id text ⟨v, [.const s, .const o]⟩ hparse hroom
      (hread ▸ .relation s v o)
    exact ⟨hsuccess, fun after => (hafter after).2⟩

/-- Two sentences, each told between other operations: the question about the one has a yes for an
answer, and the store proves the other. -/
theorem plato_is_known :
    let id := Uuid.ofNat 8
    let seeded := (new {} Sentence.read).run [.learnClassics .ofNat]
    let wise := (seeded.tellText id "Plato is wise.").2.run
      [.turn (.tellText id "Plato likes wise."), .restore {}]
    let empty := (new {} Sentence.read).run [.restore {}, .turn (.tell id (.fact "Plato" "wise"))]
    let taught := (empty.tellText id " Socrates  teaches Plato.").2.run
      [.learnClassics .ofNat, .turn (.askText id "?")]
    (wise.askText id "Is plato wise?").1.answer = "Yes, plato is wise." ∧
      taught.store.Proves ⟨"teaches", [.const "socrates", .const "plato"]⟩ := by
  intro id seeded wise empty taught
  have hconfig : ({} : ReasonerConfig).validate = .ok () := by decide +kernel
  obtain ⟨hfacts, -⟩ := told_is_known {} hconfig [.learnClassics .ofNat] id "Plato is wise."
  obtain ⟨-, hrelations⟩ := told_is_known {} hconfig
    [.restore {}, .turn (.tell id (.fact "Plato" "wise"))] id " Socrates  teaches Plato."
  obtain ⟨-, hwise⟩ := hfacts "plato" "wise" (by decide +kernel)
  obtain ⟨-, htaught⟩ := hrelations "socrates" "teaches" "plato" (by decide +kernel)
  exact ⟨hwise [.turn (.tellText id "Plato likes wise."), .restore {}] id,
    htaught [.learnClassics .ofNat, .turn (.askText id "?")]⟩

end Reasoner
end HornReasoner
