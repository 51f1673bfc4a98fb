/-
# Maps in key order

Each key has one value, and keys stand in ascending order of their characters,
so two maps with the same entries are the same map. Of two writes to one key
the last counts.

Key definitions: `SortedMap`, `SortedMap.insert`, `SortedMap.get?`, `SortedMap.ofList`.
Key theorems: `SortedMap.ascending_insertList`, `SortedMap.get?_insert`, `SortedMap.get?_ofList_map`.
-/
namespace HornReasoner

/-- A map whose entries stand in ascending order of their keys. -/
structure SortedMap (α : Type) where
  /-- Keys with their values, in ascending order. -/
  toList : List (String × α)
  /-- Each key is below all after it. -/
  ascending : (toList.map Prod.fst).Pairwise (· < ·)

namespace SortedMap

variable {α β : Type}

/-- The keys in ascending order. -/
def keys (m : SortedMap α) : List String :=
  m.toList.map Prod.fst

/-- The number of keys. -/
def size (m : SortedMap α) : Nat :=
  m.toList.length

/-- The map without entries. -/
def empty : SortedMap α :=
  ⟨[], by simp⟩

instance : Inhabited (SortedMap α) := ⟨empty⟩

@[ext] theorem ext {m n : SortedMap α} (h : m.toList = n.toList) : m = n := by
  cases m; cases n; cases h; rfl

instance [DecidableEq α] : DecidableEq (SortedMap α) := fun m n =>
  decidable_of_iff (m.toList = n.toList) ⟨ext, fun h => h ▸ rfl⟩

/-- Writes a key into ascending entries: over the entry with that key, or before the first greater one. -/
def insertList (k : String) (v : α) : List (String × α) → List (String × α)
  | [] => [(k, v)]
  | e :: es =>
    if k < e.1 then (k, v) :: e :: es
    else if k = e.1 then (k, v) :: es
    else e :: insertList k v es

theorem mem_map_fst_insertList {k j : String} {v : α} :
    ∀ {es : List (String × α)}, j ∈ (insertList k v es).map Prod.fst ↔ j = k ∨ j ∈ es.map Prod.fst
  | [] => by simp [insertList]
  | e :: es => by
    have ih := @mem_map_fst_insertList k j v es
    unfold insertList
    split
    · simp
    · split
      · next h => simp [h]
      · rw [List.map_cons, List.mem_cons, ih, List.map_cons, List.mem_cons, or_left_comm]

theorem ascending_insertList {k : String} {v : α} :
    ∀ {es : List (String × α)}, (es.map Prod.fst).Pairwise (· < ·) →
      ((insertList k v es).map Prod.fst).Pairwise (· < ·)
  | [], _ => by simp [insertList]
  | e :: es, h => by
    have h1 := (List.pairwise_cons.1 h)
    unfold insertList
    split
    · next hk =>
      exact List.pairwise_cons.2 ⟨fun j hj => (List.mem_cons.1 hj).elim (fun e' => e' ▸ hk)
        (fun hj => String.lt_trans hk (h1.1 j hj)), h⟩
    · split
      · next hk => exact hk ▸ h
      · next hlt hne =>
        refine List.pairwise_cons.2 ⟨fun j hj => ?_, ascending_insertList h1.2⟩
        rcases mem_map_fst_insertList.1 hj with rfl | hj
        · have hle : e.1 ≤ j := String.not_lt.1 hlt
          rcases Decidable.em (e.1 < j) with h2 | h2
          · exact h2
          · exact absurd (String.le_antisymm (String.not_lt.1 h2) hle) hne
        · exact h1.1 j hj

/-- Writes a value under a key. -/
def insert (m : SortedMap α) (k : String) (v : α) : SortedMap α :=
  ⟨insertList k v m.toList, ascending_insertList m.ascending⟩

/-- Writes the entries of a list one after another. -/
def insertAll (m : SortedMap α) (es : List (String × α)) : SortedMap α :=
  es.foldl (fun m e => m.insert e.1 e.2) m

/-- The map of a list of entries; of two entries with one key the last counts. -/
def ofList (es : List (String × α)) : SortedMap α :=
  empty.insertAll es

/-- The value of a key in a list of entries. -/
def lookup (k : String) : List (String × α) → Option α
  | [] => none
  | e :: es => if e.1 = k then some e.2 else lookup k es

/-- The value of a key. -/
def get? (m : SortedMap α) (k : String) : Option α :=
  lookup k m.toList

/-- The map with a function applied to each value. -/
def map (f : α → β) (m : SortedMap α) : SortedMap β :=
  ⟨m.toList.map fun e => (e.1, f e.2), by
    simpa [List.map_map, Function.comp_def] using m.ascending⟩

theorem lookup_insertList (k j : String) (v : α) :
    ∀ es : List (String × α), lookup j (insertList k v es) = if j = k then some v else lookup j es
  | [] => by grind [insertList, lookup]
  | e :: es => by
    have ih := lookup_insertList k j v es
    grind [insertList, lookup]

theorem get?_insert (m : SortedMap α) (k j : String) (v : α) :
    (m.insert k v).get? j = if j = k then some v else m.get? j :=
  lookup_insertList k j v m.toList

/-- Writing a value for each key of a list leaves the other keys alone. -/
theorem get?_insertAll_map (f : String → α) (j : String) : ∀ (ks : List String) (m : SortedMap α),
    (m.insertAll (ks.map fun k => (k, f k))).get? j = if j ∈ ks then some (f j) else m.get? j
  | [], m => by simp [insertAll]
  | k :: ks, m => by
    have ih := get?_insertAll_map f j ks (m.insert k (f k))
    simp only [insertAll, List.map_cons, List.foldl_cons] at ih ⊢
    rw [ih, get?_insert]
    grind

/-- A list that gives each key a value by a function is a map of that function. -/
theorem get?_ofList_map (f : String → α) (j : String) (ks : List String) :
    (ofList (ks.map fun k => (k, f k))).get? j = if j ∈ ks then some (f j) else none :=
  get?_insertAll_map f j ks empty

end SortedMap
end HornReasoner
