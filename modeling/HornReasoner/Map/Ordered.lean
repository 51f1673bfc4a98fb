/-
# Maps in insertion order

Each key has one value, and keys stand in the order in which they first came.
Writing a key again changes its value and leaves its place.

Key definitions: `OrderedMap`, `OrderedMap.insert`, `OrderedMap.get?`.
Key theorems: `OrderedMap.keys_insert`, `OrderedMap.mem_keys_insert`,
`OrderedMap.get?_insert_self`.
-/
namespace HornReasoner

/-- A map whose entries keep the order in which their keys first came. -/
structure OrderedMap (κ α : Type) where
  /-- Keys with their values, in order. -/
  toList : List (κ × α)
  /-- No key stands twice. -/
  nodup : (toList.map Prod.fst).Nodup

namespace OrderedMap

variable {κ α : Type}

/-- The keys in order. -/
def keys (m : OrderedMap κ α) : List κ :=
  m.toList.map Prod.fst

/-- The number of keys. -/
def size (m : OrderedMap κ α) : Nat :=
  m.toList.length

/-- The map without entries. -/
def empty : OrderedMap κ α :=
  ⟨[], by simp⟩

instance : Inhabited (OrderedMap κ α) := ⟨empty⟩

@[ext] theorem ext {m n : OrderedMap κ α} (h : m.toList = n.toList) : m = n := by
  cases m; cases n; cases h; rfl

variable [DecidableEq κ]

/-- Writes a key into a list of entries: in its place if it is there, at the end if not. -/
def insertList (k : κ) (v : α) : List (κ × α) → List (κ × α)
  | [] => [(k, v)]
  | e :: es => if e.1 = k then (k, v) :: es else e :: insertList k v es

theorem map_fst_insertList (k : κ) (v : α) :
    ∀ es : List (κ × α), (insertList k v es).map Prod.fst =
      if k ∈ es.map Prod.fst then es.map Prod.fst else es.map Prod.fst ++ [k]
  | [] => by simp [insertList]
  | e :: es => by
    by_cases h : e.1 = k
    · simp [insertList, h]
    · have h' : k ≠ e.1 := fun h'' => h h''.symm
      by_cases hk : k ∈ es.map Prod.fst
      · simp only [insertList, h, ite_false, List.map_cons, map_fst_insertList k v es, hk, ite_true,
          List.mem_cons, or_true]
      · simp only [insertList, h, ite_false, List.map_cons, map_fst_insertList k v es, hk,
          List.mem_cons, h', or_self, List.cons_append]

theorem nodup_insertList {k : κ} {v : α} {es : List (κ × α)} (h : (es.map Prod.fst).Nodup) :
    ((insertList k v es).map Prod.fst).Nodup := by
  rw [map_fst_insertList]
  split
  · exact h
  · next hk =>
    rw [List.nodup_append]
    exact ⟨h, by simp, by
      intro a ha b hb hab
      simp only [List.mem_singleton] at hb
      subst hb hab
      exact hk ha⟩

/-- Writes a value under a key. -/
def insert (m : OrderedMap κ α) (k : κ) (v : α) : OrderedMap κ α :=
  ⟨insertList k v m.toList, nodup_insertList m.nodup⟩

/-- The value of a key in a list of entries. -/
def lookup (k : κ) : List (κ × α) → Option α
  | [] => none
  | e :: es => if e.1 = k then some e.2 else lookup k es

/-- The value of a key. -/
def get? (m : OrderedMap κ α) (k : κ) : Option α :=
  lookup k m.toList

/-- The map has the key. -/
def contains (m : OrderedMap κ α) (k : κ) : Bool :=
  decide (k ∈ m.keys)

/-- Writes a value under a key that the map does not have yet; a key it has is left alone. -/
def insertIfNew (m : OrderedMap κ α) (k : κ) (v : α) : OrderedMap κ α :=
  if m.contains k then m else m.insert k v

@[simp] theorem contains_iff {m : OrderedMap κ α} {k : κ} : m.contains k = true ↔ k ∈ m.keys := by
  simp [contains]

/-- A key that is there keeps its place; a new one comes last. -/
theorem keys_insert (m : OrderedMap κ α) (k : κ) (v : α) :
    (m.insert k v).keys = if k ∈ m.keys then m.keys else m.keys ++ [k] :=
  map_fst_insertList k v m.toList

theorem mem_keys_insert {m : OrderedMap κ α} {k j : κ} {v : α} :
    j ∈ (m.insert k v).keys ↔ j = k ∨ j ∈ m.keys := by
  rw [keys_insert]
  split
  · next h => exact ⟨Or.inr, fun hj => hj.elim (fun e => e ▸ h) id⟩
  · simp [or_comm]

theorem mem_keys_insertIfNew {m : OrderedMap κ α} {k j : κ} {v : α} :
    j ∈ (m.insertIfNew k v).keys ↔ j = k ∨ j ∈ m.keys := by
  unfold insertIfNew
  split
  · next h => exact ⟨Or.inr, fun hj => hj.elim (fun e => e ▸ contains_iff.1 h) id⟩
  · exact mem_keys_insert

theorem lookup_insertList (k j : κ) (v : α) :
    ∀ es : List (κ × α), lookup j (insertList k v es) = if j = k then some v else lookup j es
  | [] => by grind [insertList, lookup]
  | e :: es => by
    have ih := lookup_insertList k j v es
    grind [insertList, lookup]

@[simp] theorem get?_insert_self (m : OrderedMap κ α) (k : κ) (v : α) :
    (m.insert k v).get? k = some v := by
  simp [get?, insert, lookup_insertList]

theorem mem_insertList {k : κ} {v : α} {e : κ × α} :
    ∀ {es : List (κ × α)}, e ∈ insertList k v es → e = (k, v) ∨ e ∈ es
  | [], h => by simpa [insertList] using h
  | d :: es, h => by
    unfold insertList at h
    split at h
    · rcases List.mem_cons.1 h with h | h
      · exact .inl h
      · exact .inr (List.mem_cons_of_mem _ h)
    · rcases List.mem_cons.1 h with h | h
      · exact .inr (h ▸ List.mem_cons_self)
      · exact (mem_insertList h).imp id (List.mem_cons_of_mem _)

/-- An entry of the written map is the one written or was there before. -/
theorem mem_toList_insert {m : OrderedMap κ α} {k : κ} {v : α} {e : κ × α}
    (h : e ∈ (m.insert k v).toList) : e = (k, v) ∨ e ∈ m.toList :=
  mem_insertList h

end OrderedMap
end HornReasoner
