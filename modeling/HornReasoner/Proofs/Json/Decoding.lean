/-
# The value of a written document

The document that says a value gives this value again: its numbers fit, and its members
ascend, so none is dropped and none moves (`Json.toJson?_toDocument`). Maps and rows of
things with a JSON form are read back if each entry is (`Document.map?_toDocument`,
`Document.list?_toDocument`), and each stands less deep than the whole. An object whose
members are fields is a record of them (`Document.record?_fields`).

Key theorems: `Json.toJson?_toDocument`, `Json.readsBack_numbers`,
`Document.map?_toDocument`, `Document.list?_toDocument`, `Document.record?_fields`.
-/
import HornReasoner.Proofs.Json.Reading
import HornReasoner.Proofs.Map.Entries

namespace HornReasoner

/-- An entry below all others is written before them. -/
theorem SortedMap.insertList_of_lt {α : Type} {k : String} (v : α) {es : List (String × α)}
    (h : ∀ j ∈ es.map Prod.fst, k < j) : insertList k v es = (k, v) :: es := by
  cases es with
  | nil => rfl
  | cons e es => exact if_pos (h e.1 List.mem_cons_self)

namespace Json

/-! ### Canonical values -/

mutual

/-- **A canonical value is what its document says.** -/
theorem toJson?_toDocument : ∀ {j : Json}, j.isCanonical = true → j.toDocument.toJson? = some j
  | .null, _ => rfl
  | .bool _, _ => rfl
  | .number n, h => by
    have hn : n.isCanonical = true := h
    simp [toDocument, Document.toJson?, Option.filter_some, hn]
  | .string _, _ => rfl
  | .array _, h => by
    rw [toDocument, Document.toJson?, itemsToJson?_toDocuments h]
    rfl
  | .object _, h => by
    obtain ⟨hascending, hmembers⟩ := Bool.and_eq_true_iff.mp h
    rw [toDocument, Document.toJson?, membersToJson?_toDocuments (of_decide_eq_true hascending) hmembers]
    rfl

theorem itemsToJson?_toDocuments : ∀ {js : List Json}, areCanonical js = true →
    Document.itemsToJson? (itemsToDocuments js) = some js
  | [], _ => rfl
  | j :: js, h => by
    obtain ⟨hj, hjs⟩ := Bool.and_eq_true_iff.mp h
    rw [itemsToDocuments, Document.itemsToJson?, toJson?_toDocument hj, itemsToJson?_toDocuments hjs]
    rfl

theorem membersToJson?_toDocuments : ∀ {ms : List (String × Json)},
    (ms.map Prod.fst).Pairwise (· < ·) → membersCanonical ms = true →
      Document.membersToJson? (membersToDocuments ms) = some ms
  | [], _, _ => rfl
  | (k, j) :: ms, hascending, h => by
    obtain ⟨hj, hms⟩ := Bool.and_eq_true_iff.mp h
    obtain ⟨hbelow, hascending⟩ := List.pairwise_cons.mp hascending
    have hnew : k ∉ ms.map Prod.fst := fun hk => String.lt_irrefl k (hbelow k hk)
    rw [membersToDocuments, Document.membersToJson?, toJson?_toDocument hj,
      membersToJson?_toDocuments hascending hms]
    simp only [Option.bind_eq_bind, Option.bind_some]
    rw [if_neg hnew, SortedMap.insertList_of_lt j hbelow]
    rfl

end

theorem toValue?_toDocument (v : Value) : v.json.toDocument.toValue? = some v := by
  unfold Document.toValue?
  split
  · next j h =>
    rw [toJson?_toDocument v.canonical] at h
    cases h
    rfl
  · next h =>
    rw [toJson?_toDocument v.canonical] at h
    cases h

mutual

theorem isCanonical_of_mem_numbers : ∀ {j : Json}, j.isCanonical = true →
    ∀ n ∈ j.numbers, n.isCanonical = true
  | .null, _, _, hn => absurd hn List.not_mem_nil
  | .bool _, _, _, hn => absurd hn List.not_mem_nil
  | .number _, h, _, hn => List.mem_singleton.mp hn ▸ h
  | .string _, _, _, hn => absurd hn List.not_mem_nil
  | .array _, h, n, hn => isCanonical_of_mem_itemsNumbers h n hn
  | .object _, h, n, hn => isCanonical_of_mem_membersNumbers (Bool.and_eq_true_iff.mp h).2 n hn

theorem isCanonical_of_mem_itemsNumbers : ∀ {js : List Json}, areCanonical js = true →
    ∀ n ∈ itemsNumbers js, n.isCanonical = true
  | [], _, _, hn => absurd hn List.not_mem_nil
  | j :: js, h, n, hn => by
    obtain ⟨hj, hjs⟩ := Bool.and_eq_true_iff.mp h
    rcases List.mem_append.mp hn with hn | hn
    · exact isCanonical_of_mem_numbers hj n hn
    · exact isCanonical_of_mem_itemsNumbers hjs n hn

theorem isCanonical_of_mem_membersNumbers : ∀ {ms : List (String × Json)}, membersCanonical ms = true →
    ∀ n ∈ membersNumbers ms, n.isCanonical = true
  | [], _, _, hn => absurd hn List.not_mem_nil
  | (k, j) :: ms, h, n, hn => by
    obtain ⟨hj, hms⟩ := Bool.and_eq_true_iff.mp h
    rcases List.mem_append.mp hn with hn | hn
    · exact isCanonical_of_mem_numbers hj n hn
    · exact isCanonical_of_mem_membersNumbers hms n hn

end

/-- **Floats apart, the numbers of a document are read back.** -/
theorem readsBack_numbers {j : Json} (hfits : ∀ n ∈ j.numbers, n.isCanonical = true)
    (hfloats : ∀ x, .float x ∈ j.numbers → Decimal.ReadsBack x) : ∀ n ∈ j.numbers, n.ReadsBack := by
  intro n hn
  cases n with
  | int i => exact Number.readsBack_int (hfits _ hn)
  | float x => exact Number.readsBack_float (hfloats x hn)

/-! ### Maps and rows -/

theorem itemsToDocuments_eq_map : ∀ js : List Json, itemsToDocuments js = js.map toDocument
  | [] => rfl
  | j :: js => congrArg (j.toDocument :: ·) (itemsToDocuments_eq_map js)

theorem membersToDocuments_eq_map : ∀ ms : List (String × Json),
    membersToDocuments ms = ms.map fun m => (some m.1, m.2.toDocument)
  | [] => rfl
  | m :: ms => congrArg ((some m.1, m.2.toDocument) :: ·) (membersToDocuments_eq_map ms)

theorem mem_itemsNumbers {n : Number} : ∀ {js : List Json},
    n ∈ itemsNumbers js ↔ ∃ j ∈ js, n ∈ j.numbers
  | [] => by simp [itemsNumbers]
  | j :: js => by rw [itemsNumbers, List.mem_append, mem_itemsNumbers, List.exists_mem_cons_iff]

theorem mem_membersNumbers {n : Number} : ∀ {ms : List (String × Json)},
    n ∈ membersNumbers ms ↔ ∃ m ∈ ms, n ∈ m.2.numbers
  | [] => by simp [membersNumbers]
  | m :: ms => by
    rw [membersNumbers, List.mem_append, mem_membersNumbers, List.exists_mem_cons_iff]

variable {α : Type} {f : α → Json} {n : Number}

theorem mem_numbers_map {m : SortedMap α} :
    n ∈ (Json.map f m).numbers ↔ ∃ e ∈ m.toList, n ∈ (f e.2).numbers := by
  rw [Json.map, numbers, mem_membersNumbers]
  simp only [List.mem_map, exists_exists_and_eq_and]

theorem mem_numbers_list {xs : List α} : n ∈ (Json.list f xs).numbers ↔ ∃ x ∈ xs, n ∈ (f x).numbers := by
  rw [Json.list, numbers, mem_itemsNumbers]
  simp only [List.mem_map, exists_exists_and_eq_and]

end Json

namespace Document

theorem depth_le_itemsDepth {d : Document} : ∀ {ds : List Document}, d ∈ ds → d.depth ≤ itemsDepth ds
  | e :: ds, h => by
    rw [itemsDepth]
    rcases List.mem_cons.mp h with rfl | h
    · exact Nat.le_max_left _ _
    · exact Nat.le_trans (depth_le_itemsDepth h) (Nat.le_max_right _ _)

theorem depth_le_membersDepth {m : Option String × Document} :
    ∀ {ms : List (Option String × Document)}, m ∈ ms → m.2.depth ≤ membersDepth ms
  | e :: ms, h => by
    rw [membersDepth]
    rcases List.mem_cons.mp h with rfl | h
    · exact Nat.le_max_left _ _
    · exact Nat.le_trans (depth_le_membersDepth h) (Nat.le_max_right _ _)

variable {α : Type} {f : α → Json} {decode : Document → Option α}

theorem toDocument_map (f : α → Json) (m : SortedMap α) :
    (Json.map f m).toDocument = .object (m.toList.map fun e => (some e.1, (f e.2).toDocument)) := by
  rw [Json.map, Json.toDocument, Json.membersToDocuments_eq_map, List.map_map]
  rfl

theorem toDocument_list (f : α → Json) (xs : List α) :
    (Json.list f xs).toDocument = .array (xs.map fun x => (f x).toDocument) := by
  rw [Json.list, Json.toDocument, Json.itemsToDocuments_eq_map, List.map_map]
  rfl

/-- A value stands less deep than the map it stands in. -/
theorem depth_lt_map {m : SortedMap α} {e : String × α} (he : e ∈ m.toList) :
    (f e.2).toDocument.depth < (Json.map f m).toDocument.depth := by
  have hmem : (some e.1, (f e.2).toDocument) ∈ m.toList.map fun e => (some e.1, (f e.2).toDocument) :=
    List.mem_map.mpr ⟨e, he, rfl⟩
  rw [toDocument_map, depth]
  exact Nat.lt_succ_of_le (depth_le_membersDepth hmem)

theorem depth_lt_list {xs : List α} {x : α} (hx : x ∈ xs) :
    (f x).toDocument.depth < (Json.list f xs).toDocument.depth := by
  rw [toDocument_list, depth]
  exact Nat.lt_succ_of_le (depth_le_itemsDepth (List.mem_map_of_mem hx))

theorem mapM_map_eq_some {β γ : Type} {g : β → γ} {h : γ → Option β} :
    ∀ {xs : List β}, (∀ x ∈ xs, h (g x) = some x) → (xs.map g).mapM h = some xs
  | [], _ => rfl
  | x :: xs, hxs => by
    obtain ⟨hx, hxs⟩ := List.forall_mem_cons.mp hxs
    rw [List.map_cons, List.mapM_cons, hx, mapM_map_eq_some hxs]
    rfl

/-- A map is read back if each of its values is. -/
theorem map?_toDocument {m : SortedMap α} (h : ∀ e ∈ m.toList, decode (f e.2).toDocument = some e.2) :
    (Json.map f m).toDocument.map? decode = some m := by
  rw [toDocument_map, map?, mapM_map_eq_some fun e he => ?_, Option.map_some, SortedMap.ofList_toList]
  dsimp only
  rw [h e he]
  rfl

/-- A row is read back if each of its items is. -/
theorem list?_toDocument {xs : List α} (h : ∀ x ∈ xs, decode (f x).toDocument = some x) :
    (Json.list f xs).toDocument.list? decode = some xs := by
  rw [toDocument_list, list?, mapM_map_eq_some h]

/-! ### Records -/

variable {names : List String}

theorem knownMembers?_fields : ∀ {fields : List (String × Document)},
    (∀ f ∈ fields, f.1 ∈ names) → (fields.map Prod.fst).Nodup →
      knownMembers? names (fields.map fun f => (some f.1, f.2)) = some fields
  | [], _, _ => rfl
  | f :: fields, hnames, hnodup => by
    obtain ⟨hname, hnames⟩ := List.forall_mem_cons.mp hnames
    obtain ⟨hnew, hnodup⟩ := List.nodup_cons.mp hnodup
    have hknown : names.contains f.1 = true := List.contains_iff_mem.mpr hname
    have honce : (fields.any fun g => g.1 == f.1) = false := by
      rw [List.any_eq_false]
      intro g hg he
      exact hnew (List.mem_map.mpr ⟨g, hg, beq_iff_eq.mp he⟩)
    rw [List.map_cons, knownMembers?, knownMembers?_fields hnames hnodup]
    simp only [Option.bind_eq_bind, Option.bind_some, hknown, honce, Bool.not_true, Bool.false_eq_true,
      if_false]
    rfl

/-- An object whose members are fields, each once, is a record of them. -/
theorem record?_fields (fields : List (String × Document))
    (hnames : ∀ f ∈ fields, f.1 ∈ names) (hnodup : (fields.map Prod.fst).Nodup) :
    record? names (.object (fields.map fun f => (some f.1, f.2))) = some ⟨false, fields⟩ := by
  rw [record?, knownMembers?_fields hnames hnodup]
  rfl

end Document
end HornReasoner
