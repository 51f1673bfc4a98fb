/-
# Order statistics do not depend on the order recorded

Sorting keeps the scores (`perm_sortScores`) and puts numbers in ascending order
(`ascending_sortScores`), so the first is a least score and the last a greatest, and around
a score of an ascending row no more scores are below it than stand before it, and no more
above it than stand after it (`Ascending.countP_lt_le`, `Ascending.countP_gt_le`). Two rows
of the same numbers have, once sorted, equal numbers at each place (`map_place_sortScores`),
though of two zeros the signs may differ. So least, greatest and median are equal as numbers
in whatever order the scores were recorded (`ConfidenceHistory.stats_ordered`), but for one
case: if the two middle scores are opposite infinities, half their sum is no number in any
order (`ConfidenceHistory.infinite_of_isNaN_median`).

Key definitions: `Ascending`, `Middle`, `ConfidenceHistory.recorded`.
Key theorems: `perm_sortScores`, `ascending_sortScores`, `map_place_sortScores`,
`ConfidenceHistory.median_recorded_odd`, `ConfidenceHistory.beq_stats_of_perm`,
`ConfidenceHistory.stats_ordered`.
-/
import HornReasoner.Confidence.History
import HornReasoner.Proofs.Binary64.Equality

namespace HornReasoner

open Binary64 (parts place Alike)

variable {x : Float} {xs ys sorted : List Float}

/-- No score is greater than one after it. -/
def Ascending (xs : List Float) : Prop := xs.Pairwise (· ≤ ·)

/-- In ascending order, the scores `a` and `b` stand in the middle, of an even number of scores. -/
def Middle (xs : List Float) (a b : Float) : Prop :=
  ∃ sorted : List Float, sorted.Perm xs ∧ Ascending sorted ∧
    sorted[xs.length / 2 - 1]? = some a ∧ sorted[xs.length / 2]? = some b

/-! ### Sorting -/

theorem perm_insertScore (x : Float) (ys : List Float) : (insertScore x ys).Perm (x :: ys) := by
  induction ys with
  | nil => exact .refl _
  | cons y ys ih =>
    unfold insertScore
    split
    · exact (ih.cons y).trans (.swap x y ys)
    · exact .refl _

/-- A number is inserted where it belongs. -/
theorem descending_insertScore {ys : List Float} (hx : x.isNaN = false) (hys : ∀ y ∈ ys, y.isNaN = false)
    (h : ys.Pairwise fun a b => b ≤ a) : (insertScore x ys).Pairwise fun a b => b ≤ a := by
  induction ys with
  | nil => exact List.pairwise_singleton _ _
  | cons y ys ih =>
    obtain ⟨hy, hys⟩ := List.forall_mem_cons.mp hys
    obtain ⟨hle, hpairwise⟩ := List.pairwise_cons.mp h
    unfold insertScore
    split
    · next hlt =>
      refine List.pairwise_cons.mpr ⟨fun z hz => ?_, ih hys hpairwise⟩
      rcases List.mem_cons.mp ((perm_insertScore x ys).mem_iff.mp hz) with rfl | hz
      · exact Binary64.le_of_lt hlt
      · exact hle z hz
    · next hlt =>
      have hyx : y ≤ x := (Binary64.not_lt hx hy).mp hlt
      refine List.pairwise_cons.mpr ⟨fun z hz => ?_, h⟩
      rcases List.mem_cons.mp hz with rfl | hz
      · exact hyx
      · exact Binary64.le_trans (hle z hz) hyx

theorem foldl_insertScore (hxs : ∀ x ∈ xs, x.isNaN = false) (hys : ∀ y ∈ ys, y.isNaN = false)
    (h : ys.Pairwise fun a b => b ≤ a) :
    (xs.foldl (fun sorted x => insertScore x sorted) ys).Pairwise fun a b => b ≤ a := by
  induction xs generalizing ys with
  | nil => exact h
  | cons x xs ih =>
    obtain ⟨hx, hxs⟩ := List.forall_mem_cons.mp hxs
    refine ih hxs (fun y hy => ?_) (descending_insertScore hx hys h)
    rcases List.mem_cons.mp ((perm_insertScore x ys).mem_iff.mp hy) with rfl | hy
    · exact hx
    · exact hys y hy

theorem perm_foldl_insertScore (xs ys : List Float) :
    (xs.foldl (fun sorted x => insertScore x sorted) ys).Perm (xs ++ ys) := by
  induction xs generalizing ys with
  | nil => exact .refl _
  | cons x xs ih =>
    exact (ih _).trans (((perm_insertScore x ys).append_left xs).trans List.perm_middle)

/-- **Sorting keeps the scores.** -/
theorem perm_sortScores (xs : List Float) : (sortScores xs).Perm xs := by
  have hperm := perm_foldl_insertScore xs []
  rw [List.append_nil] at hperm
  exact (List.reverse_perm _).trans hperm

/-- **Numbers are sorted in ascending order.** -/
theorem ascending_sortScores (hxs : ∀ x ∈ xs, x.isNaN = false) : Ascending (sortScores xs) :=
  List.pairwise_reverse.mpr (foldl_insertScore hxs nofun .nil)

theorem isNaN_of_mem_sortScores (hxs : ∀ x ∈ xs, x.isNaN = false) :
    ∀ x ∈ sortScores xs, x.isNaN = false := fun x hx =>
  hxs x ((perm_sortScores xs).mem_iff.mp hx)

/-- **The same numbers**, once sorted, are equal place by place. -/
theorem map_place_sortScores (hperm : xs.Perm ys) (hxs : ∀ x ∈ xs, x.isNaN = false) :
    (sortScores xs).map (fun x => place (parts x)) = (sortScores ys).map fun x => place (parts x) := by
  have hys : ∀ y ∈ ys, y.isNaN = false := fun y hy => hxs y (hperm.mem_iff.mpr hy)
  have hascending : ∀ {zs : List Float}, (∀ z ∈ zs, z.isNaN = false) →
      ((sortScores zs).map fun x => place (parts x)).Pairwise (· ≤ ·) := fun hzs =>
    List.pairwise_map.mpr ((ascending_sortScores hzs).imp fun hle => (Binary64.le_iff.mp hle).2.2)
  have hsorted : (sortScores xs).Perm (sortScores ys) :=
    (perm_sortScores xs).trans (hperm.trans (perm_sortScores ys).symm)
  exact (hsorted.map _).eq_of_pairwise (fun a b _ _ hab hba => le_antisymm hab hba) (hascending hxs)
    (hascending hys)

/-! ### Scores in an ascending row -/

namespace Ascending

variable {i j : Nat}

theorem getElem_le (h : Ascending sorted) (hsorted : ∀ x ∈ sorted, x.isNaN = false) (hij : i ≤ j)
    (hj : j < sorted.length) : sorted[i] ≤ sorted[j] := by
  obtain rfl | hlt := Nat.eq_or_lt_of_le hij
  · exact Binary64.le_refl (hsorted _ (List.getElem_mem hj))
  · exact List.pairwise_iff_getElem.mp h i j _ hj hlt

/-- **No more scores are below one** than stand before it. -/
theorem countP_lt_le (h : Ascending sorted) (hsorted : ∀ x ∈ sorted, x.isNaN = false)
    (hi : i < sorted.length) : sorted.countP (· < sorted[i]) ≤ i := by
  have hafter : (sorted.drop i).countP (· < sorted[i]) = 0 := by
    rw [List.countP_eq_zero]
    intro x hx
    obtain ⟨k, hk, rfl⟩ := List.mem_drop_iff_getElem.mp hx
    have hle : sorted[i] ≤ sorted[i + k] := h.getElem_le hsorted (Nat.le_add_right i k) _
    simpa using Binary64.not_lt_of_le hle
  calc sorted.countP (· < sorted[i])
      = (sorted.take i).countP (· < sorted[i]) + (sorted.drop i).countP (· < sorted[i]) := by
        rw [← List.countP_append, List.take_append_drop]
    _ ≤ (sorted.take i).length := by
        rw [hafter, Nat.add_zero]
        exact List.countP_le_length
    _ ≤ i := List.length_take_le i sorted

/-- **No more scores are above one** than stand after it. -/
theorem countP_gt_le (h : Ascending sorted) (hsorted : ∀ x ∈ sorted, x.isNaN = false)
    (hi : i < sorted.length) : sorted.countP (sorted[i] < ·) ≤ sorted.length - (i + 1) := by
  have hbefore : (sorted.take (i + 1)).countP (sorted[i] < ·) = 0 := by
    rw [List.countP_eq_zero]
    intro x hx
    obtain ⟨k, hk, rfl⟩ := List.mem_take_iff_getElem.mp hx
    have hle : sorted[k] ≤ sorted[i] := h.getElem_le hsorted (by omega) hi
    simpa using Binary64.not_lt_of_le hle
  calc sorted.countP (sorted[i] < ·)
      = (sorted.take (i + 1)).countP (sorted[i] < ·) + (sorted.drop (i + 1)).countP (sorted[i] < ·) := by
        rw [← List.countP_append, List.take_append_drop]
    _ ≤ (sorted.drop (i + 1)).length := by
        rw [hbefore, Nat.zero_add]
        exact List.countP_le_length
    _ = sorted.length - (i + 1) := List.length_drop

end Ascending

/-- The sort puts the middle scores in the middle. -/
theorem middle_sortScores (hne : xs ≠ []) (hxs : ∀ x ∈ xs, x.isNaN = false) :
    Middle xs ((sortScores xs).getD (xs.length / 2 - 1) 0.0) ((sortScores xs).getD (xs.length / 2) 0.0) := by
  have hlength := (perm_sortScores xs).length_eq
  have hpos := List.length_pos_iff.mpr hne
  refine ⟨sortScores xs, perm_sortScores xs, ascending_sortScores hxs, ?_, ?_⟩
  · rw [List.getD_eq_getElem _ _ (by omega), List.getElem?_eq_getElem]
  · rw [List.getD_eq_getElem _ _ (by omega), List.getElem?_eq_getElem]

theorem Middle.le {a b : Float} (h : Middle xs a b) (hxs : ∀ x ∈ xs, x.isNaN = false) : a ≤ b := by
  obtain ⟨sorted, hperm, hascending, ha, hb⟩ := h
  obtain ⟨-, rfl⟩ := List.getElem?_eq_some_iff.mp ha
  obtain ⟨hlt, rfl⟩ := List.getElem?_eq_some_iff.mp hb
  exact hascending.getElem_le (fun x hx => hxs x (hperm.mem_iff.mp hx)) (Nat.sub_le _ 1) hlt

/-! ### Statistics -/

namespace ConfidenceHistory

/-- The history in which these scores were recorded one after another. -/
def recorded (xs : List Float) : ConfidenceHistory :=
  xs.foldl record {}

@[simp] theorem scores_recorded (xs : List Float) : (recorded xs).scores = xs := by
  have hfold : ∀ h : ConfidenceHistory, (xs.foldl record h).scores = h.scores ++ xs := by
    induction xs with
    | nil => exact fun h => (List.append_nil _).symm
    | cons x xs ih =>
      intro h
      rw [List.foldl_cons, ih, record, List.append_assoc]
      rfl
  exact hfold {}

/-- Least, greatest and median are read off the sorted scores. -/
theorem stats_recorded (hne : xs ≠ []) :
    (recorded xs).stats.min = (sortScores xs).getD 0 0.0 ∧
    (recorded xs).stats.max = (sortScores xs).getD (xs.length - 1) 0.0 ∧
    (recorded xs).stats.median = medianOf (sortScores xs) := by
  have hempty : xs.isEmpty = false := by simpa using hne
  have hlength := (perm_sortScores xs).length_eq
  unfold stats
  rw [scores_recorded, hempty, if_neg Bool.false_ne_true, ← hlength]
  refine ⟨?_, ?_, rfl⟩
  · rw [List.getD_eq_getElem?_getD, ← List.head?_eq_getElem?, ← List.headD_eq_head?_getD]
  · rw [List.getD_eq_getElem?_getD, ← List.getLast?_eq_getElem?, ← List.getLastD_eq_getLast?]

theorem medianOf_odd (hodd : sorted.length % 2 = 1) :
    medianOf sorted = sorted.getD (sorted.length / 2) 0.0 := by
  unfold medianOf
  exact if_neg (by omega)

theorem medianOf_even (heven : sorted.length % 2 = 0) : medianOf sorted =
    (sorted.getD (sorted.length / 2 - 1) 0.0 + sorted.getD (sorted.length / 2) 0.0) / 2.0 := by
  unfold medianOf
  exact if_pos heven

/-- **The least score** is one of them, and no other is below it. -/
theorem min_recorded (hne : xs ≠ []) (hxs : ∀ x ∈ xs, x.isNaN = false) :
    (recorded xs).stats.min ∈ xs ∧ ∀ x ∈ xs, (recorded xs).stats.min ≤ x := by
  have hperm := perm_sortScores xs
  have hfirst : 0 < (sortScores xs).length := hperm.length_eq ▸ List.length_pos_iff.mpr hne
  rw [(stats_recorded hne).1, List.getD_eq_getElem _ _ hfirst]
  refine ⟨hperm.mem_iff.mp (List.getElem_mem hfirst), fun x hx => ?_⟩
  obtain ⟨i, hi, rfl⟩ := List.getElem_of_mem (hperm.mem_iff.mpr hx)
  exact (ascending_sortScores hxs).getElem_le (isNaN_of_mem_sortScores hxs) (Nat.zero_le i) hi

/-- **The greatest score** is one of them, and no other is above it. -/
theorem max_recorded (hne : xs ≠ []) (hxs : ∀ x ∈ xs, x.isNaN = false) :
    (recorded xs).stats.max ∈ xs ∧ ∀ x ∈ xs, x ≤ (recorded xs).stats.max := by
  have hperm := perm_sortScores xs
  have hlength := hperm.length_eq
  have hpos := List.length_pos_iff.mpr hne
  have hlast : xs.length - 1 < (sortScores xs).length := by omega
  rw [(stats_recorded hne).2.1, List.getD_eq_getElem _ _ hlast]
  refine ⟨hperm.mem_iff.mp (List.getElem_mem hlast), fun x hx => ?_⟩
  obtain ⟨i, hi, rfl⟩ := List.getElem_of_mem (hperm.mem_iff.mpr hx)
  exact (ascending_sortScores hxs).getElem_le (isNaN_of_mem_sortScores hxs) (by omega) hlast

/-- **The median of an odd number of scores** has at most half of them on either side. -/
theorem median_recorded_odd (hodd : xs.length % 2 = 1) (hxs : ∀ x ∈ xs, x.isNaN = false) :
    (recorded xs).stats.median ∈ xs ∧
      2 * xs.countP (· < (recorded xs).stats.median) ≤ xs.length ∧
      2 * xs.countP ((recorded xs).stats.median < ·) ≤ xs.length := by
  have hne : xs ≠ [] := by
    rintro rfl
    cases hodd
  have hperm := perm_sortScores xs
  have hlength := hperm.length_eq
  have hmid : (sortScores xs).length / 2 < (sortScores xs).length := by omega
  have hsorted := isNaN_of_mem_sortScores hxs
  have hbelow := (ascending_sortScores hxs).countP_lt_le hsorted hmid
  have habove := (ascending_sortScores hxs).countP_gt_le hsorted hmid
  rw [hperm.countP_eq] at hbelow habove
  rw [(stats_recorded hne).2.2, medianOf_odd (hlength ▸ hodd), List.getD_eq_getElem _ _ hmid]
  exact ⟨hperm.mem_iff.mp (List.getElem_mem hmid), by omega, by omega⟩

/-- **The median of an even number of scores** is half the sum of the middle ones. -/
theorem median_recorded_even (heven : xs.length % 2 = 0) (hne : xs ≠ [])
    (hxs : ∀ x ∈ xs, x.isNaN = false) :
    ∃ a b, Middle xs a b ∧ (recorded xs).stats.median = (a + b) / 2.0 := by
  have hlength := (perm_sortScores xs).length_eq
  refine ⟨_, _, middle_sortScores hne hxs, ?_⟩
  rw [(stats_recorded hne).2.2, medianOf_even (hlength ▸ heven), hlength]

/-- **A median of numbers is no number** only if the middle scores are minus infinity and infinity. -/
theorem infinite_of_isNaN_median (hne : xs ≠ []) (hxs : ∀ x ∈ xs, x.isNaN = false)
    (h : (recorded xs).stats.median.isNaN = true) :
    xs.length % 2 = 0 ∧ ∃ a b, Middle xs a b ∧ a.isInf = true ∧ b.isInf = true ∧ a < b := by
  obtain heven | hodd := Nat.mod_two_eq_zero_or_one xs.length
  · obtain ⟨a, b, hmiddle, hmedian⟩ := median_recorded_even heven hne hxs
    refine ⟨heven, a, b, hmiddle, Binary64.infinite_of_isNaN_add (hmiddle.le hxs) ?_⟩
    by_contra hnumber
    rw [hmedian, Binary64.isNaN_div (y := 2.0) (eq_false_of_ne_true hnumber) rfl (Or.inr trivial)] at h
    cases h
  · rw [hxs _ (median_recorded_odd hodd hxs).1] at h
    cases h

/-! ### Another order -/

/-- **In whatever order scores are recorded**, equal ones stand at each place once they are sorted. -/
theorem alike_getD (hperm : xs.Perm ys) (hxs : ∀ x ∈ xs, x.isNaN = false) (i : Nat) :
    Alike (parts ((sortScores xs).getD i 0.0)) (parts ((sortScores ys).getD i 0.0)) := by
  have hys : ∀ y ∈ ys, y.isNaN = false := fun y hy => hxs y (hperm.mem_iff.mpr hy)
  have hnumber : ∀ {zs : List Float}, (∀ z ∈ zs, z.isNaN = false) →
      ((sortScores zs).getD i 0.0).isNaN = false := by
    intro zs hzs
    by_cases hi : i < (sortScores zs).length
    · rw [List.getD_eq_getElem _ _ hi]
      exact isNaN_of_mem_sortScores hzs _ (List.getElem_mem hi)
    · rw [List.getD_eq_default _ _ (Nat.le_of_not_lt hi)]
      rfl
  refine Binary64.alike_of_place_eq (hnumber hxs) (hnumber hys) ?_
  rw [← List.getD_map (f := fun x => place (parts x)), map_place_sortScores hperm hxs, List.getD_map]

theorem alike_medianOf (hperm : xs.Perm ys) (hxs : ∀ x ∈ xs, x.isNaN = false) :
    Alike (parts (medianOf (sortScores xs))) (parts (medianOf (sortScores ys))) := by
  have hlength : (sortScores xs).length = (sortScores ys).length :=
    ((perm_sortScores xs).trans (hperm.trans (perm_sortScores ys).symm)).length_eq
  obtain heven | hodd := Nat.mod_two_eq_zero_or_one (sortScores xs).length
  · rw [medianOf_even heven, medianOf_even (hlength ▸ heven), ← hlength]
    exact ((alike_getD hperm hxs _).add (alike_getD hperm hxs _)).div 2.0
  · rw [medianOf_odd hodd, medianOf_odd (hlength ▸ hodd), ← hlength]
    exact alike_getD hperm hxs _

/-- **In another order** least, greatest and median are equal as numbers, or no median is a number. -/
theorem beq_stats_of_perm (hperm : xs.Perm ys) (hne : xs ≠ []) (hxs : ∀ x ∈ xs, x.isNaN = false) :
    ((recorded xs).stats.min == (recorded ys).stats.min) = true ∧
    ((recorded xs).stats.max == (recorded ys).stats.max) = true ∧
    (((recorded xs).stats.median == (recorded ys).stats.median) = true ∨
      (recorded xs).stats.median.isNaN = true ∧ (recorded ys).stats.median.isNaN = true) := by
  have hne' : ys ≠ [] := fun hnil => hne (hnil ▸ hperm).eq_nil
  obtain ⟨hmin, hmax, hmedian⟩ := stats_recorded hne
  obtain ⟨hmin', hmax', hmedian'⟩ := stats_recorded hne'
  have hequal : ∀ {x y : Float}, x ∈ xs → Alike (parts x) (parts y) → (x == y) = true := fun hx halike =>
    halike.beq_or_isNaN.resolve_right fun hnan => Bool.false_ne_true ((hxs _ hx).symm.trans hnan.1)
  refine ⟨hequal (min_recorded hne hxs).1 ?_, hequal (max_recorded hne hxs).1 ?_,
    Alike.beq_or_isNaN ?_⟩
  · rw [hmin, hmin']
    exact alike_getD hperm hxs 0
  · rw [hmax, hmax', hperm.length_eq]
    exact alike_getD hperm hxs _
  · rw [hmedian, hmedian']
    exact alike_medianOf hperm hxs

/-- **Order statistics are right, in whatever order scores are recorded.** Of a history of numbers, which
keeps its order, the least score and the greatest are recorded scores with all others between them. For
an odd number of scores the median is a recorded score, with at most half of the scores below it and at
most half above it; for an even number it is half the sum of the two middle scores of the sorted history.
In another order all three are equal as numbers, wherever addition respects that equality, as it does
unless the two middle scores are minus infinity and infinity: their sum is no number, and so not equal even
to itself, and the median is no number in either order. -/
theorem stats_ordered (xs : List Float) (hne : xs ≠ []) (hxs : ∀ x ∈ xs, x.isNaN = false) :
    (recorded xs).scores = xs ∧
    ((recorded xs).stats.min ∈ xs ∧ ∀ x ∈ xs, (recorded xs).stats.min ≤ x) ∧
    ((recorded xs).stats.max ∈ xs ∧ ∀ x ∈ xs, x ≤ (recorded xs).stats.max) ∧
    (xs.length % 2 = 1 → (recorded xs).stats.median ∈ xs ∧
      2 * xs.countP (· < (recorded xs).stats.median) ≤ xs.length ∧
      2 * xs.countP ((recorded xs).stats.median < ·) ≤ xs.length) ∧
    (xs.length % 2 = 0 → ∃ a b, Middle xs a b ∧ (recorded xs).stats.median = (a + b) / 2.0) ∧
    ∀ ys, ys.Perm xs → (recorded ys).scores = ys ∧
      ((recorded ys).stats.min == (recorded xs).stats.min) = true ∧
      ((recorded ys).stats.max == (recorded xs).stats.max) = true ∧
      (((recorded ys).stats.median == (recorded xs).stats.median) = true ∨
        ((recorded ys).stats.median.isNaN = true ∧ (recorded xs).stats.median.isNaN = true ∧
          xs.length % 2 = 0 ∧ ∃ a b, Middle xs a b ∧ a.isInf = true ∧ b.isInf = true ∧ a < b)) := by
  refine ⟨scores_recorded xs, min_recorded hne hxs, max_recorded hne hxs,
    fun hodd => median_recorded_odd hodd hxs, fun heven => median_recorded_even heven hne hxs,
    fun ys hys => ?_⟩
  have hne' : ys ≠ [] := fun hnil => hne (hnil ▸ hys).symm.eq_nil
  obtain ⟨hmin, hmax, hmedian⟩ := beq_stats_of_perm hys hne' fun y hy => hxs y (hys.mem_iff.mp hy)
  refine ⟨scores_recorded ys, hmin, hmax, hmedian.imp id fun hnan => ?_⟩
  exact ⟨hnan.1, hnan.2, infinite_of_isNaN_median hne hxs hnan.2⟩

/-- Scores with two zeros of opposite sign in the middle, recorded in two orders. -/
theorem mixedScores_ordered :
    let xs := [0.75, -0.0, 0.0, -1.5]
    let ys := [-1.5, 0.0, 0.75, -0.0]
    xs ≠ [] ∧ (∀ x ∈ xs, x.isNaN = false) ∧ ys.Perm xs ∧
    (recorded xs).stats.min = -1.5 ∧ (∀ x ∈ xs, (recorded xs).stats.min ≤ x) ∧
    (∃ a b, Middle xs a b ∧ (recorded xs).stats.median = (a + b) / 2.0) ∧
    ((recorded ys).stats.min == (recorded xs).stats.min) = true ∧
    ((recorded ys).stats.max == (recorded xs).stats.max) = true ∧
    ((recorded ys).stats.median == (recorded xs).stats.median) = true := by
  intro xs ys
  have hne : xs ≠ [] := List.cons_ne_nil _ _
  have hxs : ∀ x ∈ xs, x.isNaN = false := by decide +kernel
  have hperm : ys.Perm xs := by decide +kernel
  obtain ⟨-, ⟨-, hmin⟩, -, -, heven, hpermuted⟩ := stats_ordered xs hne hxs
  have hlength : xs.length % 2 = 0 := by decide +kernel
  have hmedian : (recorded xs).stats.median.isNaN ≠ true := by decide +kernel
  obtain ⟨-, hmin', hmax', hmedian'⟩ := hpermuted ys hperm
  exact ⟨hne, hxs, hperm, by decide +kernel, hmin, heven hlength, hmin', hmax',
    hmedian'.resolve_right fun hnan => hmedian hnan.2.1⟩

end ConfidenceHistory
end HornReasoner
