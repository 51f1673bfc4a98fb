/-
# Maps written entry by entry

Entries written one after another into a map in insertion order leave each key once,
at the place where it first stood (`OrderedMap.keys_ofList`), with the value that
was written last (`OrderedMap.get?_ofList`). A map in key order keeps the keys that
were written and no others (`SortedMap.mem_keys_ofList`). Where no key stands twice, a
map in insertion order has the entries as they were written (`OrderedMap.toList_ofList`),
and a map in key order has the same entries in its own order (`SortedMap.perm_ofList`).
Keys can also be mentioned without being written, and then stand where they were first
mentioned (`OrderedMap.Mentions`).

Key definitions: `lastUnder`, `OrderedMap.insertAll`, `OrderedMap.ofList`, `OrderedMap.Mentions`.
Key theorems: `OrderedMap.keys_ofList`, `OrderedMap.get?_ofList`, `OrderedMap.get?_eq_some_iff`,
`OrderedMap.toList_ofList`, `OrderedMap.Mentions.mem_toList_iff`, `SortedMap.mem_keys_ofList`,
`SortedMap.perm_ofList`.
-/
import HornReasoner.Map.Ordered
import HornReasoner.Map.Sorted
import Mathlib.Data.List.Induction
import Mathlib.Data.List.Nodup

namespace HornReasoner

variable {κ α β : Type} [DecidableEq κ]

/-- The value that stands last under a key. -/
def lastUnder (k : κ) (es : List (κ × α)) : Option α :=
  es.reverse.lookup k

theorem lastUnder_concat (k : κ) (es : List (κ × α)) (e : κ × α) :
    lastUnder k (es ++ [e]) = if k = e.1 then some e.2 else lastUnder k es := by
  unfold lastUnder
  rw [List.reverse_concat, List.lookup_cons]
  by_cases h : k = e.1
  · rw [if_pos h, beq_iff_eq.mpr h]
  · rw [if_neg h, beq_eq_false_iff_ne.mpr h]

/-- The last value as `f` shows it. -/
theorem lastUnder_map (f : α → β) (k : κ) (es : List (κ × α)) :
    lastUnder k (es.map fun e => (e.1, f e.2)) = (lastUnder k es).map f := by
  induction es using List.reverseRecOn with
  | nil => rfl
  | append_singleton es e ih =>
    rw [List.map_append, List.map_singleton, lastUnder_concat, lastUnder_concat, ih]
    split <;> rfl

theorem mem_of_lastUnder {k : κ} {v : α} {es : List (κ × α)} (h : lastUnder k es = some v) :
    (k, v) ∈ es := by
  induction es using List.reverseRecOn with
  | nil => cases h
  | append_singleton es e ih =>
    rw [lastUnder_concat] at h
    split at h
    · next he =>
      cases h
      exact he ▸ List.mem_append_right _ (List.mem_singleton_self e)
    · exact List.mem_append_left _ (ih h)

theorem lastUnder_eq_none {k : κ} {es : List (κ × α)} (h : k ∉ es.map Prod.fst) :
    lastUnder k es = none := by
  rw [Option.eq_none_iff_forall_ne_some]
  exact fun v hv => h (List.mem_map.mpr ⟨_, mem_of_lastUnder hv, rfl⟩)

omit [DecidableEq κ] in
/-- An item that was there is not repeated; a new one comes last. -/
theorem eraseDups_concat [BEq κ] [LawfulBEq κ] (ks : List κ) (k : κ) :
    (ks ++ [k]).eraseDups = if k ∈ ks then ks.eraseDups else ks.eraseDups ++ [k] := by
  rw [List.eraseDups_append]
  by_cases h : k ∈ ks
  · have hnone : [k].removeAll ks = [] := by
      simpa [List.removeAll] using h
    rw [if_pos h, hnone, List.eraseDups_nil, List.append_nil]
  · have hnew : [k].removeAll ks = [k] := by
      simpa [List.removeAll] using h
    rw [if_neg h, hnew]
    rfl

namespace OrderedMap

variable {m : OrderedMap κ α} {k j : κ} {v : α}

/-! ### Single entries -/

theorem mem_of_lookup : ∀ {es : List (κ × α)}, lookup k es = some v → (k, v) ∈ es
  | [], h => by cases h
  | e :: es, h => by
    unfold lookup at h
    split at h
    · next he =>
      cases h
      exact he ▸ List.mem_cons_self
    · exact List.mem_cons_of_mem _ (mem_of_lookup h)

theorem lookup_of_mem : ∀ {es : List (κ × α)}, (es.map Prod.fst).Nodup → (k, v) ∈ es →
    lookup k es = some v
  | [], _, h => by cases h
  | e :: es, hn, h => by
    obtain ⟨hfresh, hn⟩ := List.nodup_cons.mp hn
    unfold lookup
    rcases List.mem_cons.mp h with rfl | h
    · exact if_pos rfl
    · have hne : e.1 ≠ k := fun he => hfresh (he ▸ List.mem_map.mpr ⟨_, h, rfl⟩)
      rw [if_neg hne, lookup_of_mem hn h]

/-- The value of a key is the one in its entry. -/
theorem get?_eq_some_iff : m.get? k = some v ↔ (k, v) ∈ m.toList :=
  ⟨mem_of_lookup, lookup_of_mem m.nodup⟩

/-- A key that is there is not written. -/
theorem insertIfNew_of_mem (h : k ∈ m.keys) : m.insertIfNew k v = m :=
  if_pos (contains_iff.mpr h)

/-- Maps with the same entries have the same values, in whatever order. -/
theorem get?_eq_of_perm {n : OrderedMap κ α} (h : m.toList.Perm n.toList) (k : κ) :
    m.get? k = n.get? k := by
  refine Option.ext fun v => ?_
  rw [get?_eq_some_iff, get?_eq_some_iff]
  exact h.mem_iff

theorem get?_insert (m : OrderedMap κ α) (k j : κ) (v : α) :
    (m.insert k v).get? j = if j = k then some v else m.get? j :=
  lookup_insertList k j v m.toList

theorem keys_insertIfNew (m : OrderedMap κ α) (k : κ) (v : α) :
    (m.insertIfNew k v).keys = if k ∈ m.keys then m.keys else m.keys ++ [k] := by
  by_cases h : k ∈ m.keys
  · rw [insertIfNew_of_mem h, if_pos h]
  · rw [insertIfNew, if_neg (contains_iff.not.mpr h), keys_insert]

/-- A key that is not there has no value. -/
theorem get?_eq_none_iff : m.get? k = none ↔ k ∉ m.keys := by
  rw [Option.eq_none_iff_forall_ne_some]
  constructor
  · intro h hk
    obtain ⟨e, he, rfl⟩ := List.mem_map.mp hk
    exact h e.2 (get?_eq_some_iff.mpr he)
  · intro h v hv
    exact h (List.mem_map.mpr ⟨_, get?_eq_some_iff.mp hv, rfl⟩)

/-- A key that is there keeps its value. -/
theorem get?_insertIfNew (m : OrderedMap κ α) (k j : κ) (v : α) :
    (m.insertIfNew k v).get? j = if j = k then some ((m.get? j).getD v) else m.get? j := by
  by_cases hk : k ∈ m.keys
  · rw [insertIfNew_of_mem hk]
    split
    · next h =>
      obtain ⟨w, hw⟩ := Option.ne_none_iff_exists'.mp (get?_eq_none_iff.not.mpr (not_not.mpr (h ▸ hk)))
      rw [hw, Option.getD_some]
    · rfl
  · rw [insertIfNew, if_neg (contains_iff.not.mpr hk), get?_insert]
    split
    · next h => rw [h, get?_eq_none_iff.mpr hk, Option.getD_none]
    · rfl

/-- Of two writes the second counts if they have one key. -/
theorem get?_insert_insert (m : OrderedMap κ α) (k j : κ) (v w : α) :
    ((m.insert k v).insert j w).get? k = some (if k = j then w else v) := by
  rw [get?_insert, get?_insert_self]
  split <;> rfl

/-! ### Rows of entries -/

/-- Writes entries one after another. -/
def insertAll (m : OrderedMap κ α) (es : List (κ × α)) : OrderedMap κ α :=
  es.foldl (fun m e => m.insert e.1 e.2) m

/-- The map of a list of entries. -/
def ofList (es : List (κ × α)) : OrderedMap κ α :=
  empty.insertAll es

theorem insertAll_ofList (es fs : List (κ × α)) : (ofList es).insertAll fs = ofList (es ++ fs) :=
  List.foldl_append.symm

theorem ofList_concat (es : List (κ × α)) (e : κ × α) :
    ofList (es ++ [e]) = (ofList es).insert e.1 e.2 :=
  (insertAll_ofList es [e]).symm

/-- **Keys keep the order in which they first came.** -/
theorem keys_ofList [BEq κ] [LawfulBEq κ] (es : List (κ × α)) :
    (ofList es).keys = (es.map Prod.fst).eraseDups := by
  induction es using List.reverseRecOn with
  | nil => rfl
  | append_singleton es e ih =>
    rw [ofList_concat, keys_insert, ih, List.map_append, List.map_singleton, eraseDups_concat]
    simp only [List.mem_eraseDups]

/-- **The last value of a key counts.** -/
theorem get?_ofList (es : List (κ × α)) (k : κ) : (ofList es).get? k = lastUnder k es := by
  induction es using List.reverseRecOn with
  | nil => rfl
  | append_singleton es e ih => rw [ofList_concat, get?_insert, lastUnder_concat, ih]

theorem insertList_of_not_mem : ∀ {es : List (κ × α)}, k ∉ es.map Prod.fst →
    insertList k v es = es ++ [(k, v)]
  | [], _ => rfl
  | e :: es, h => by
    obtain ⟨hne, h⟩ := not_or.mp (List.mem_cons.not.mp h)
    rw [insertList, if_neg (Ne.symm hne), insertList_of_not_mem h, List.cons_append]

/-- **A list that has each key once** is the list of its map. -/
theorem toList_ofList {es : List (κ × α)} (h : (es.map Prod.fst).Nodup) : (ofList es).toList = es := by
  induction es using List.reverseRecOn with
  | nil => rfl
  | append_singleton es e ih =>
    rw [List.map_append, List.map_singleton, ← List.concat_eq_append, List.nodup_concat] at h
    obtain ⟨hfresh, hes⟩ := h
    rw [ofList_concat]
    show insertList e.1 e.2 (ofList es).toList = _
    rw [ih hes]
    exact insertList_of_not_mem hfresh

theorem ofList_toList (m : OrderedMap κ α) : ofList m.toList = m :=
  ext (toList_ofList m.nodup)

/-- Where no key stands twice, the value that stands last under a key is the one in its entry. -/
theorem lastUnder_eq_some_iff {es : List (κ × α)} (h : (es.map Prod.fst).Nodup) :
    lastUnder k es = some v ↔ (k, v) ∈ es := by
  rw [← get?_ofList, get?_eq_some_iff, toList_ofList h]

/-- Items without repetition are the keys of a map. -/
theorem eraseDups_eq_keys [BEq κ] [LawfulBEq κ] (ks : List κ) :
    ks.eraseDups = (ofList (ks.map fun k => (k, ()))).keys := by
  rw [keys_ofList, List.map_map, Function.comp_def, List.map_id']

theorem nodup_eraseDups [BEq κ] [LawfulBEq κ] (ks : List κ) : ks.eraseDups.Nodup := by
  rw [eraseDups_eq_keys]
  exact (ofList _).nodup

/-- A list that has each item once is left as it is. -/
theorem eraseDups_of_nodup [BEq κ] [LawfulBEq κ] {ks : List κ} (h : ks.Nodup) : ks.eraseDups = ks := by
  have hid : (ks.map fun k => (k, ())).map Prod.fst = ks := by
    rw [List.map_map, Function.comp_def, List.map_id']
  rw [eraseDups_eq_keys, keys, toList_ofList (hid.symm ▸ h), hid]

/-! ### Keys that are mentioned -/

/-- The map has the keys mentioned, in the order in which they first were, each with the value last
written under it, and `v` where none was written. -/
structure Mentions (m : OrderedMap κ α) (v : α) (ks : List κ) (es : List (κ × α)) : Prop where
  keys : m.keys = ks.eraseDups
  get? : ∀ k ∈ ks, m.get? k = some ((lastUnder k es).getD v)
  written : ∀ e ∈ es, e.1 ∈ ks

variable {ks : List κ} {es : List (κ × α)} {w : α}

theorem Mentions.mem_toList_iff (h : m.Mentions v ks es) :
    (k, w) ∈ m.toList ↔ k ∈ ks ∧ w = (lastUnder k es).getD v := by
  rw [← get?_eq_some_iff]
  by_cases hk : k ∈ ks
  · rw [h.get? k hk, Option.some_inj, eq_comm, and_iff_right hk]
  · have hnone : m.get? k = none := by
      rw [get?_eq_none_iff, h.keys, List.mem_eraseDups]
      exact hk
    simp [hnone, hk]

/-- Writing a key mentions it. -/
theorem Mentions.insert (h : m.Mentions v ks es) (k : κ) (w : α) :
    (m.insert k w).Mentions v (ks ++ [k]) (es ++ [(k, w)]) where
  keys := by
    rw [keys_insert, eraseDups_concat, h.keys]
    simp only [List.mem_eraseDups]
  get? j hj := by
    rw [get?_insert, lastUnder_concat]
    split
    · rfl
    · next hne => exact h.get? j ((List.mem_append.mp hj).resolve_right (by simpa using hne))
  written e he := by
    rcases List.mem_append.mp he with he | he
    · exact List.mem_append_left _ (h.written e he)
    · rw [List.mem_singleton.mp he]
      exact List.mem_append_right _ (List.mem_singleton_self k)

/-- A key can be mentioned without being written. -/
theorem Mentions.insertIfNew (h : m.Mentions v ks es) (k : κ) :
    (m.insertIfNew k v).Mentions v (ks ++ [k]) es where
  keys := by
    rw [keys_insertIfNew, eraseDups_concat, h.keys]
    simp only [List.mem_eraseDups]
  get? j hj := by
    rw [get?_insertIfNew]
    by_cases hmem : j ∈ ks
    · rw [h.get? j hmem, Option.getD_some, ite_self]
    · have hnone : m.get? j = none := by
        rw [get?_eq_none_iff, h.keys, List.mem_eraseDups]
        exact hmem
      have hunwritten : lastUnder j es = none := by
        refine lastUnder_eq_none fun hwritten => hmem ?_
        obtain ⟨e, he, rfl⟩ := List.mem_map.mp hwritten
        exact h.written e he
      have hself : j = k := List.mem_singleton.mp ((List.mem_append.mp hj).resolve_left hmem)
      rw [if_pos hself, hnone, hunwritten]
  written e he := List.mem_append_left _ (h.written e he)

end OrderedMap

namespace SortedMap

/-! ### Keys -/

theorem mem_keys_insertAll {j : String} : ∀ {es : List (String × α)} {m : SortedMap α},
    j ∈ (m.insertAll es).keys ↔ j ∈ es.map Prod.fst ∨ j ∈ m.keys
  | [], m => by simp [insertAll]
  | e :: es, m => by
    have ih := @mem_keys_insertAll j es (m.insert e.1 e.2)
    have hinsert : j ∈ (m.insert e.1 e.2).keys ↔ j = e.1 ∨ j ∈ m.keys := mem_map_fst_insertList
    rw [List.map_cons, List.mem_cons, or_assoc, or_left_comm, ← hinsert]
    exact ih

/-- The keys of a map are those that were written. -/
theorem mem_keys_ofList {j : String} {es : List (String × α)} :
    j ∈ (ofList es).keys ↔ j ∈ es.map Prod.fst := by
  have h := @mem_keys_insertAll α j es empty
  simpa [ofList, keys, empty] using h

/-! ### Entries -/

theorem nodup (m : SortedMap α) : (m.toList.map Prod.fst).Nodup :=
  m.ascending.imp String.ne_of_lt

theorem perm_insertList {k : String} {v : α} : ∀ {es : List (String × α)}, k ∉ es.map Prod.fst →
    (insertList k v es).Perm ((k, v) :: es)
  | [], _ => .refl _
  | e :: es, h => by
    obtain ⟨hne, h⟩ := not_or.mp (List.mem_cons.not.mp h)
    rw [insertList, if_neg hne]
    split
    · exact .refl _
    · exact ((perm_insertList h).cons e).trans (.swap _ _ es)

/-- **A map in key order has the entries that were written**, if no key was written twice. -/
theorem perm_ofList {es : List (String × α)} (h : (es.map Prod.fst).Nodup) :
    (ofList es).toList.Perm es := by
  induction es using List.reverseRecOn with
  | nil => exact .refl _
  | append_singleton es e ih =>
    rw [List.map_append, List.map_singleton, ← List.concat_eq_append, List.nodup_concat] at h
    obtain ⟨hfresh, hes⟩ := h
    have hnew : e.1 ∉ (ofList es).toList.map Prod.fst :=
      ((ih hes).map Prod.fst).mem_iff.not.mpr hfresh
    have hwritten : ofList (es ++ [e]) = (ofList es).insert e.1 e.2 := List.foldl_append
    rw [hwritten]
    refine (perm_insertList hnew).trans ?_
    exact ((ih hes).cons e).trans (List.perm_append_singleton e es).symm

/-- Maps with the same entries are equal. -/
theorem eq_of_perm {m n : SortedMap α} (h : m.toList.Perm n.toList) : m = n := by
  refine ext (h.eq_of_pairwise (fun a b _ _ hab hba => ?_) (List.pairwise_map.mp m.ascending)
    (List.pairwise_map.mp n.ascending))
  exact absurd hab (String.lt_asymm hba)

theorem ofList_toList (m : SortedMap α) : ofList m.toList = m :=
  eq_of_perm (perm_ofList m.nodup)

theorem mem_insertList {k : String} {v : α} {e : String × α} :
    ∀ {es : List (String × α)}, e ∈ insertList k v es → e = (k, v) ∨ e ∈ es
  | [], h => Or.inl (List.mem_singleton.mp h)
  | d :: es, h => by
    unfold insertList at h
    split at h
    · exact List.mem_cons.mp h
    · split at h
      · exact (List.mem_cons.mp h).imp_right (List.mem_cons_of_mem d)
      · rcases List.mem_cons.mp h with rfl | h
        · exact Or.inr List.mem_cons_self
        · exact (mem_insertList h).imp_right (List.mem_cons_of_mem d)

/-- Every entry of a map was written. -/
theorem mem_of_mem_ofList {es : List (String × α)} {e : String × α} (h : e ∈ (ofList es).toList) :
    e ∈ es := by
  induction es using List.reverseRecOn with
  | nil => cases h
  | append_singleton es d ih =>
    have hwritten : ofList (es ++ [d]) = (ofList es).insert d.1 d.2 := List.foldl_append
    rw [hwritten] at h
    rcases mem_insertList h with rfl | h
    · exact List.mem_append_right _ List.mem_cons_self
    · exact List.mem_append_left _ (ih h)

/-- The entries of a map whose values are given by a function. -/
theorem mem_ofList_map {f : String → α} {ks : List String} {e : String × α} :
    e ∈ (ofList (ks.map fun k => (k, f k))).toList ↔ e.1 ∈ ks ∧ e.2 = f e.1 := by
  have hvalue : ∀ d ∈ (ofList (ks.map fun k => (k, f k))).toList, d.1 ∈ ks ∧ d.2 = f d.1 := by
    intro d hd
    obtain ⟨k, hk, rfl⟩ := List.mem_map.mp (mem_of_mem_ofList hd)
    exact ⟨hk, rfl⟩
  refine ⟨hvalue e, fun ⟨hk, hv⟩ => ?_⟩
  have hkey : e.1 ∈ (ofList (ks.map fun k => (k, f k))).keys := by
    rw [mem_keys_ofList, List.map_map]
    exact List.mem_map.mpr ⟨e.1, hk, rfl⟩
  obtain ⟨d, hd, he⟩ := List.mem_map.mp hkey
  have hde : d = e := Prod.ext he (by rw [(hvalue d hd).2, he, hv])
  exact hde ▸ hd

/-- Maps whose values are given by one function are equal if they have the same keys. -/
theorem ofList_map_eq_of_mem_iff (f : String → α) {ks ks' : List String} (h : ∀ k, k ∈ ks ↔ k ∈ ks') :
    ofList (ks.map fun k => (k, f k)) = ofList (ks'.map fun k => (k, f k)) := by
  refine eq_of_perm ((List.perm_ext_iff_of_nodup (.of_map _ (nodup _)) (.of_map _ (nodup _))).mpr ?_)
  intro e
  rw [mem_ofList_map, mem_ofList_map, h]

end SortedMap
end HornReasoner
