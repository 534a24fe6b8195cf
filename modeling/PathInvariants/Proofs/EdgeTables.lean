import Mathlib
import PathInvariants.Flow.Search

/-!
# Edges by their targets

The edges of a successor table are entered at their targets by one pass over their sources. So every
target lists its sources in ascending order, each as often as there are edges from it.
-/
namespace PathInvariants.Flow

variable {table : Array (List ℕ)} {m n : ℕ}

/-- Entering the edges from one source adds it to the list of each target, once for every edge. -/
theorem enterSource_spec (sources : Array (Array ℕ)) (m : ℕ) (targets : List ℕ) :
    (enterSource sources m targets).size = sources.size ∧ ∀ n < sources.size,
      ((enterSource sources m targets).getD n #[]).toList =
        (sources.getD n #[]).toList ++ List.replicate (targets.count n) m := by
  induction targets generalizing sources with
  | nil => simp [enterSource]
  | cons t targets ih =>
    obtain ⟨hsize, hlists⟩ := ih (sources.modify t (·.push m))
    rw [Array.size_modify] at hsize hlists
    refine ⟨hsize, fun n hn => (hlists n hn).trans ?_⟩
    by_cases htn : t = n
    · subst htn
      simp [Array.getD_eq_getD_getElem?, Array.getElem_modify, hn, List.replicate_succ]
    · simp [Array.getD_eq_getD_getElem?, Array.getElem?_modify, htn]

/-- The sources of each node after the pass has come to the first `k` of them. -/
theorem foldl_transpose (table : Array (List ℕ)) (k : ℕ) :
    let sources := (List.range k).foldl (fun sources m => enterSource sources m (table.getD m []))
      (Array.replicate table.size #[])
    sources.size = table.size ∧ ∀ n < table.size, (sources.getD n #[]).toList =
      (List.range k).flatMap fun m => List.replicate ((table.getD m []).count n) m := by
  induction k with
  | zero => simp +contextual [Array.getD_eq_getD_getElem?]
  | succ k ih =>
    obtain ⟨hsize, hlists⟩ := ih
    simp only [List.range_succ, List.foldl_append, List.foldl_cons, List.foldl_nil, List.flatMap_append]
    obtain ⟨hsize', hlists'⟩ := enterSource_spec _ k (table.getD k [])
    refine ⟨hsize'.trans hsize, fun n hn => ?_⟩
    rw [hlists' n (hn.trans_eq hsize.symm), hlists n hn]
    simp

theorem toList_transpose (hn : n < table.size) : ((transpose table).getD n #[]).toList =
    (List.range table.size).flatMap fun m => List.replicate ((table.getD m []).count n) m :=
  (foldl_transpose table table.size).2 n hn

theorem toList_transpose_of_le (hn : table.size ≤ n) : ((transpose table).getD n #[]).toList = [] := by
  have hsize : (transpose table).size = table.size := (foldl_transpose table table.size).1
  rw [Array.getD_eq_getD_getElem?, Array.getElem?_eq_none (hsize ▸ hn)]
  rfl

/-- Every edge between nodes is listed as often at its target as at its source. -/
theorem count_transpose (hrange : ∀ m, ∀ t ∈ table.getD m [], t < table.size) :
    ((transpose table).getD n #[]).toList.count m = (table.getD m []).count n := by
  by_cases hn : n < table.size
  · have hsum : ((transpose table).getD n #[]).toList.count m =
        ((List.range table.size).map fun k => (List.replicate ((table.getD k []).count n) k).count m).sum := by
      rw [toList_transpose hn, List.count_flatMap]
      rfl
    have hzero : ∀ k, k ≠ m → k ∈ List.range table.size →
        (List.replicate ((table.getD k []).count n) k).count m = 0 := by
      intro k hk _
      simp [List.count_replicate, hk]
    rw [hsum, List.sum_map_eq_nsmul_single m _ hzero, List.count_replicate_self]
    by_cases hm : m < table.size
    · simp [List.nodup_range.count, hm]
    · simp [List.nodup_range.count, hm, Array.getD_eq_getD_getElem?]
  · have hout : n ∉ table.getD m [] := fun hmem => hn (hrange m n hmem)
    rw [toList_transpose_of_le (Nat.le_of_not_lt hn), List.count_eq_zero_of_not_mem hout]
    rfl

theorem mem_transpose (hrange : ∀ m, ∀ t ∈ table.getD m [], t < table.size) :
    m ∈ ((transpose table).getD n #[]).toList ↔ n ∈ table.getD m [] := by
  rw [← List.count_pos_iff, count_transpose hrange, List.count_pos_iff]

theorem pairwise_transpose (table : Array (List ℕ)) (n : ℕ) :
    ((transpose table).getD n #[]).toList.Pairwise (· ≤ ·) := by
  by_cases hn : n < table.size
  · rw [toList_transpose hn, List.pairwise_flatMap]
    constructor
    · intro m _
      exact List.pairwise_replicate.mpr (.inr le_rfl)
    · apply List.pairwise_lt_range.imp
      intro k m hkm x hx y hy
      rw [List.eq_of_mem_replicate hx, List.eq_of_mem_replicate hy]
      exact hkm.le
  · rw [toList_transpose_of_le (Nat.le_of_not_lt hn)]
    exact .nil

/-- Where no edge is doubled, no source is listed twice. -/
theorem pairwise_lt_transpose (hrange : ∀ m, ∀ t ∈ table.getD m [], t < table.size)
    (hnodup : ∀ m, (table.getD m []).Nodup) (n : ℕ) : ((transpose table).getD n #[]).toList.Pairwise (· < ·) := by
  have hsources : ((transpose table).getD n #[]).toList.Nodup := by
    rw [List.nodup_iff_count_le_one]
    intro m
    rw [count_transpose hrange]
    exact List.nodup_iff_count_le_one.mp (hnodup m) n
  exact (pairwise_transpose table n).imp₂ (fun _ _ hle hne => lt_of_le_of_ne hle hne) hsources

end PathInvariants.Flow
