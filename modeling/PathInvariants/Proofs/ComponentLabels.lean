import PathInvariants.Proofs.ComponentSearch

/-!
# Component labels

The search for components comes to an end, and then its stack is empty. So every node in reach of the root
has been labelled with the lowest number in its component, where the numbers are those of a depth-first
search.
-/
namespace PathInvariants.Flow

variable {table : List (List ℕ)} {root : ℕ}

/-- The labels of a successor table tell its components: a node out of reach of the root has label zero, nodes in reach
have one label if and only if each leads to the other, and this label is the smallest of the numbers at which a
depth-first search from the root comes to the component, where it comes to the root at number one. -/
structure LabelsComponents (table : List (List ℕ)) (root : ℕ) (labels : List ℕ) : Prop where
  length : labels.length = table.length
  zero : ∀ n < table.length, labels.getD n 0 = 0 ↔ ¬ Reaches (row table) root n
  same : ∀ a < table.length, ∀ b < table.length, Reaches (row table) root a → Reaches (row table) root b →
    (labels.getD a 0 = labels.getD b 0 ↔ Mutual (row table) a b)
  least : ∃ order, (∀ visits, DepthFirst (row table) [] [root] visits ↔ visits = order) ∧
    ∀ n < table.length, Reaches (row table) root n →
      IsLeast {number | ∃ m, Mutual (row table) n m ∧ order.idxOf m + 1 = number} (labels.getD n 0)

theorem getD_toList (labels : Array ℕ) (n : ℕ) : labels.toList.getD n 0 = labels.getD n 0 := by
  rw [List.getD_eq_getElem?_getD, Array.getElem?_toList, Array.getD_eq_getD_getElem?]

/-- Nothing is in reach of a root that is no node. -/
theorem labelsComponents_of_le {table : List (List ℕ)} {root : ℕ} (hroot : table.length ≤ root) :
    LabelsComponents table root (componentLabels table root) := by
  have hrow : row table root = [] := by
    simp [row, Array.getD_eq_getD_getElem?, List.getElem?_eq_none hroot]
  have hreach : ∀ n < table.length, ¬ Reaches (row table) root n := by
    intro n hn hreach
    rcases hreach.cases_head with rfl | ⟨t, ht, -⟩
    · omega
    · rw [hrow] at ht
      cases ht
  have hlabels : componentLabels table root = List.replicate table.length 0 := by
    exact if_neg (Nat.not_lt.mpr hroot)
  rw [hlabels]
  refine ⟨List.length_replicate, fun n hn => ?_, fun a ha _ _ hra => absurd hra (hreach a ha), [root], fun visits => ?_,
    fun n hn hrn => absurd hrn (hreach n hn)⟩
  · simp [List.getD_eq_getElem?_getD, hn, hreach n hn]
  · have hvisits : DepthFirst (row table) [] [root] (root :: [] ++ []) := by
      refine .enter List.not_mem_nil ?_ (.done _)
      rw [hrow]
      exact .done _
    refine ⟨fun h => h.unique hvisits, ?_⟩
    rintro rfl
    exact hvisits

theorem sum_length_row (table : List (List ℕ)) :
    ∑ v ∈ Finset.range table.length, (row table v).length = table.flatten.length := by
  induction table with
  | nil => rfl
  | cons targets table ih =>
    rw [List.length_cons, Finset.sum_range_succ', List.flatten_cons, List.length_append, ← ih, add_comm]
    simp [row, Array.getD_eq_getD_getElem?]

/-- The search ends with an empty stack, when it has visited what is in reach. -/
theorem ComponentSearch.exists_recorded (h : InRange table) (hroot : root < table.length) :
    (run table root).calls = [] ∧ (run table root).stack = [] ∧ ∃ order, DepthFirst (row table) [] [root] order ∧
      (∀ n, n ∈ order ↔ Reaches (row table) root n) ∧ Recorded (row table) table.length order (run table root) := by
  have hsucc : ∀ n < table.length, ∀ t ∈ row table n, t < table.length := fun _ _ _ ht => h.lt_of_mem ht
  have hfuel : remaining (row table) table.length [root] [(root, 0)] =
      table.length + table.flatten.length := by
    rw [remaining_start hroot, sum_length_row]
  obtain ⟨order, hfinal, hdone, below, hbelow, rfl⟩ := (underway_start hroot).loop hsucc hfuel.le
  have hstack := hfinal.stack_eq_nil hdone
  have horder : DepthFirst (row table) [] [root] (root :: below ++ []) := .enter List.not_mem_nil hbelow (.done _)
  rw [List.append_nil] at horder
  refine ⟨hdone, hstack, _, horder, fun n => ⟨fun hn => ?_, fun hreach => ?_⟩, hfinal.recorded⟩
  · obtain ⟨m, hm, hreach⟩ := horder.reaches hn
    rwa [List.mem_singleton.mp hm] at hreach
  · exact (hfinal.recorded.reaches (by simp) (by rw [hstack]; exact List.not_mem_nil) hreach).1

/-- The search of every successor table comes to an end, and the labels tell its components. -/
theorem labelsComponents_componentLabels {table : List (List ℕ)} (h : InRange table) (root : ℕ) :
    (root < table.length → (ComponentSearch.run table root).calls = []) ∧
      LabelsComponents table root (componentLabels table root) := by
  by_cases hroot : root < table.length
  swap
  · exact ⟨fun hlt => absurd hlt hroot, labelsComponents_of_le (Nat.le_of_not_lt hroot)⟩
  obtain ⟨hdone, hstack, order, horder, hmem, hrecorded⟩ := ComponentSearch.exists_recorded h hroot
  refine ⟨fun _ => hdone, ?_⟩
  have heq : componentLabels table root = (ComponentSearch.run table root).component.toList := if_pos hroot
  generalize ComponentSearch.run table root = s at heq hstack hrecorded
  have hlabel : ∀ n, Reaches (row table) root n →
      IsLeast {k | ∃ m, Mutual (row table) n m ∧ number order m = k} (s.component.getD n 0) := fun n hn =>
    hrecorded.labelled n ((hmem n).mpr hn) (by rw [hstack]; exact List.not_mem_nil)
  rw [heq]
  refine ⟨by simpa using hrecorded.count.2.2.2, fun n hn => ?_, fun a ha b hb hra hrb => ?_, order, fun visits => ?_,
    fun n hn hreach => ?_⟩
  · rw [getD_toList]
    refine ⟨fun hzero hreach => ?_, fun hnot => hrecorded.unlabelled n hn (.inl fun hn => hnot ((hmem n).mp hn))⟩
    obtain ⟨m, -, hm⟩ := (hlabel n hreach).1
    rw [hzero] at hm
    cases hm
  · rw [getD_toList, getD_toList]
    constructor
    · intro hab
      obtain ⟨m, hm, hnumber⟩ := (hlabel a hra).1
      obtain ⟨m', hm', hnumber'⟩ := (hlabel b hrb).1
      have hsame : m = m' := by
        refine (List.idxOf_inj ((hmem m).mpr (hra.trans hm.1))).mp ?_
        exact Nat.succ.inj (hnumber.trans (hab.trans hnumber'.symm))
      subst hsame
      exact hm.trans hm'.symm
    · intro hab
      have hnumbers : {k | ∃ m, Mutual (row table) a m ∧ number order m = k} =
          {k | ∃ m, Mutual (row table) b m ∧ number order m = k} := by
        ext k
        exact exists_congr fun m => and_congr_left' ⟨hab.symm.trans, hab.trans⟩
      exact (hnumbers ▸ hlabel a hra).unique (hlabel b hrb)
  · refine ⟨fun hvisits => hvisits.unique horder, ?_⟩
    rintro rfl
    exact horder
  · rw [getD_toList]
    exact hlabel n hreach

/-- Two nodes that are each entered from outside form one component, and a node that only leads into the graph is out of
reach. -/
theorem labelsComponents_componentLabels_irreducible : let table := [[1, 2], [2], [1, 3], [], [0]]
    InRange table ∧ componentLabels table 0 = [1, 2, 2, 4, 0] ∧ Mutual (row table) 1 2 ∧ ¬ Mutual (row table) 2 3 ∧
      ¬ Reaches (row table) 0 4 := by
  intro table
  have hrange : InRange table := by
    unfold InRange
    decide
  have hlabels : componentLabels table 0 = [1, 2, 2, 4, 0] := by decide +kernel
  obtain ⟨-, -, hzero, hsame, -⟩ := labelsComponents_componentLabels hrange 0
  rw [hlabels] at hzero hsame
  have hreach : ∀ n < 4, Reaches (row table) 0 n := by
    intro n hn
    have hne : [1, 2, 2, 4, 0].getD n 0 ≠ 0 := by
      interval_cases n <;> decide
    exact not_not.mp fun hnot => hne ((hzero n (Nat.lt_succ_of_lt hn)).mpr hnot)
  refine ⟨hrange, hlabels, ?_, ?_, ?_⟩
  · exact (hsame 1 (by decide) 2 (by decide) (hreach 1 (by decide)) (hreach 2 (by decide))).mp rfl
  · rw [← hsame 2 (by decide) 3 (by decide) (hreach 2 (by decide)) (hreach 3 (by decide))]
    decide
  · exact (hzero 4 (by decide)).mp rfl

end PathInvariants.Flow
