import PathInvariants.Flow.CutPoints
import PathInvariants.Proofs.EdgeTables
import PathInvariants.Proofs.SearchOrder

/-!
# Cycles and cut points

A depth-first search leaves the nodes of a cycle in some order, and the edge that goes against it is a
back edge. So the widening points, among which are the targets of all back edges, meet every cycle in
reach of the entry, and a walk falls into segments with a cut point at either end and none inside. The
successors of a cut point are the ends of the segments that start there.
-/
namespace PathInvariants

namespace Flow

variable {succ : ℕ → List ℕ} {isCut : ℕ → Bool} {a b : ℕ}

/-- A closed walk of at least one edge, listed without the return to its first node. -/
def IsCycle (succ : ℕ → List ℕ) : List ℕ → Prop
  | [] => False
  | n :: rest => (n :: rest ++ [n]).IsChain fun x y => y ∈ succ x

/-- A walk of at least one edge with the given nodes strictly inside, none of them a cut point. -/
structure Segment (succ : ℕ → List ℕ) (isCut : ℕ → Bool) (a : ℕ) (inner : List ℕ) (b : ℕ) : Prop where
  walk : (a :: inner ++ [b]).IsChain fun x y => y ∈ succ x
  plain : ∀ m ∈ inner, isCut m = false

theorem Segment.cons {c : ℕ} {inner : List ℕ} (h : Segment succ isCut c inner b) (hc : isCut c = false)
    (hac : c ∈ succ a) : Segment succ isCut a (c :: inner) b :=
  ⟨.cons_cons hac h.walk, List.forall_mem_cons.mpr ⟨hc, h.plain⟩⟩

theorem Segment.snoc {c : ℕ} {inner : List ℕ} (h : Segment succ isCut a inner b) (hb : isCut b = false)
    (hbc : c ∈ succ b) : Segment succ isCut a (inner ++ [b]) c := by
  have hwalk : (a :: inner ++ [b] ++ [c]).IsChain fun x y => y ∈ succ x := by
    refine List.isChain_append.mpr ⟨h.walk, .singleton c, ?_⟩
    rw [List.getLast?_concat]
    simpa using hbc
  refine ⟨hwalk, fun m hm => ?_⟩
  rcases List.mem_append.mp hm with hm | hm
  · exact h.plain m hm
  · rwa [List.mem_singleton.mp hm]

/-- Segments lead where the successors lead without going on from a cut point. -/
theorem exists_segment_iff : (∃ inner, Segment succ isCut a inner b) ↔
    ∃ t ∈ succ a, Reaches (fun n => if isCut n = true then [] else succ n) t b := by
  constructor
  · rintro ⟨inner, hwalk, hplain⟩
    induction inner generalizing a with
    | nil => exact ⟨b, (List.isChain_cons_cons.mp hwalk).1, .refl⟩
    | cons c inner ih =>
      obtain ⟨hac, hwalk⟩ := List.isChain_cons_cons.mp hwalk
      obtain ⟨hc, hplain⟩ := List.forall_mem_cons.mp hplain
      obtain ⟨t, ht, hreach⟩ := ih hwalk hplain
      refine ⟨c, hac, hreach.head ?_⟩
      simpa [hc] using ht
  · rintro ⟨t, ht, hreach⟩
    induction hreach using Relation.ReflTransGen.head_induction_on generalizing a with
    | refl => exact ⟨[], .cons_cons ht (.singleton b), by simp⟩
    | @head t u hedge _ ih =>
      cases hcut : isCut t with
      | true => simp [hcut] at hedge
      | false =>
        obtain ⟨inner, hsegment⟩ := ih (a := t) (by simpa [hcut] using hedge)
        exact ⟨t :: inner, hsegment.cons hcut ht⟩

/-- A list in which every edge leads on or to the target of a back edge holds no cycle without such a target. -/
theorem Search.Ordered.exists_mem_back {back finished : List ℕ} (h : Ordered succ back finished) (hnodup : finished.Nodup)
    {cycle : List ℕ} (hcycle : IsCycle succ cycle) (hmem : ∀ n ∈ cycle, n ∈ finished) : ∃ n ∈ cycle, n ∈ back := by
  cases cycle with
  | nil => exact hcycle.elim
  | cons n rest =>
    by_contra hnone
    push Not at hnone
    have hrise : (n :: rest ++ [n]).IsChain fun x y => finished.idxOf x < finished.idxOf y := by
      refine List.IsChain.imp_of_mem_imp (fun x y hx hy hxy => ?_) hcycle
      have hon : ∀ m ∈ n :: rest ++ [n], m ∈ n :: rest := by simp [or_comm]
      exact h.idxOf_lt hnodup (hmem x (hon x hx)) hxy (hnone y (hon y hy))
    have hself := (List.pairwise_append.mp (List.isChain_iff_pairwise.mp hrise)).2.2 n (by simp) n (by simp)
    exact Nat.lt_irrefl _ hself

end Flow

namespace CutPoints

open PathInvariants.Flow

variable {table : List (List ℕ)} {roles : List BlockRole} {headers : List Bool} {entry n p q : ℕ}

theorem size_compute : (compute table roles headers entry).size = table.length := by simp [compute, size]

theorem isWidening_compute (hn : n < table.length) : (compute table roles headers entry).isWidening n =
    (headers.toArray.getD n false || (Search.run (row table) table.length [entry]).backTargets.contains n) :=
  (getD_map_range _ _ _ _).trans (if_pos hn)

theorem lt_of_isWidening (h : (compute table roles headers entry).isWidening n = true) : n < table.length := by
  by_contra hn
  have hout : (compute table roles headers entry).isWidening n = false := (getD_map_range _ _ _ _).trans (if_neg hn)
  rw [hout] at h
  cases h

theorem isCut_compute (hn : n < table.length) : (compute table roles headers entry).isCut n =
    ((compute table roles headers entry).isWidening n || n == entry ||
      (compute table roles headers entry).role n != .plain) :=
  (getD_map_range _ _ _ _).trans (if_pos hn)

theorem lt_of_isCut (h : (compute table roles headers entry).isCut n = true) : n < table.length := by
  by_contra hn
  have hout : (compute table roles headers entry).isCut n = false := (getD_map_range _ _ _ _).trans (if_neg hn)
  rw [hout] at h
  cases h

theorem mem_cutNodes {c : CutPoints} : n ∈ c.cutNodes ↔ c.isCut n = true := by
  rw [cutNodes, List.mem_filter, List.mem_range]
  refine and_iff_right_of_imp fun h => ?_
  by_contra hn
  have hout : c.isCut n = false := dif_neg hn
  rw [hout] at h
  cases h

theorem successors_compute (hc : (compute table roles headers entry).isCut n = true) :
    (compute table roles headers entry).successors n =
      nextCuts (row table) (compute table roles headers entry).cuts n :=
  (getD_map_range _ _ _ _).trans ((if_pos (lt_of_isCut hc)).trans (if_pos hc))

/-- A node that is no cut point has no successors. -/
theorem successors_of_not_isCut (hc : ¬ (compute table roles headers entry).isCut p = true) :
    (compute table roles headers entry).successors p = [] := by
  refine (getD_map_range _ _ _ _).trans ?_
  split
  · exact if_neg hc
  · rfl

theorem isCut_of_mem_successors (h : q ∈ (compute table roles headers entry).successors p) :
    (compute table roles headers entry).isCut p = true := by
  by_contra hc
  rw [successors_of_not_isCut hc] at h
  cases h

/-- Successors are found one by one in ascending order. -/
theorem pairwise_successors (table : List (List ℕ)) (roles : List BlockRole) (headers : List Bool) (entry p : ℕ) :
    ((compute table roles headers entry).successors p).Pairwise (· < ·) := by
  by_cases hc : (compute table roles headers entry).isCut p = true
  · rw [successors_compute hc]
    exact List.pairwise_lt_range.filter _
  · rw [successors_of_not_isCut hc]
    exact .nil

theorem lt_of_mem_successors (h : q ∈ (compute table roles headers entry).successors p) : q < table.length := by
  rw [successors_compute (isCut_of_mem_successors h)] at h
  exact (List.mem_range.mp (List.mem_filter.mp h).1).trans_eq size_compute

/-- A search through nodes that are no cut points finds the ends of segments. -/
theorem mem_nextCuts (h : InRange table) {cuts : Array Bool} (hsize : cuts.size = table.length) :
    q ∈ nextCuts (row table) cuts p ↔ cuts.getD q false = true ∧
      ∃ inner, Segment (row table) (fun n => cuts.getD n false) p inner q := by
  have hsucc : ∀ n < cuts.size, ∀ t ∈ (if cuts.getD n false = true then [] else row table n), t < cuts.size := by
    intro n _ t ht
    by_cases hn : cuts.getD n false = true
    · rw [if_pos hn] at ht
      cases ht
    · rw [if_neg hn] at ht
      exact hsize ▸ h.lt_of_mem ht
  have hroots : ∀ t ∈ row table p, t < cuts.size := fun t ht => hsize ▸ h.lt_of_mem ht
  rw [exists_segment_iff, ← Search.found_run_iff hsucc hroots, nextCuts, List.mem_filter, List.mem_range,
    Bool.and_eq_true, and_iff_right_iff_imp]
  rintro ⟨hq, -⟩
  by_contra hout
  have hnone : cuts.getD q false = false := by
    rw [Array.getD_eq_getD_getElem?, Array.getElem?_eq_none (Nat.le_of_not_lt hout)]
    rfl
  exact absurd hq (Bool.eq_false_iff.mp hnone)

theorem mem_successors_compute (h : InRange table) (hp : (compute table roles headers entry).isCut p = true) :
    q ∈ (compute table roles headers entry).successors p ↔ (compute table roles headers entry).isCut q = true ∧
      ∃ inner, Segment (row table) (compute table roles headers entry).isCut p inner q := by
  rw [successors_compute hp]
  exact mem_nextCuts h size_compute

/-- What the cut points of a successor table are to an analysis. Every cycle in reach of the entry has a widening point,
and the widening points are cut points. The successors of a cut point are exactly the cut points at the ends of the
segments that start there, and the predecessors are the converse of that, both in ascending order. -/
structure Separates (c : CutPoints) (table : List (List ℕ)) (entry : ℕ) : Prop where
  cycles : ∀ cycle, IsCycle (row table) cycle → (∀ n ∈ cycle, Reaches (row table) entry n) →
    ∃ n ∈ cycle, c.isWidening n = true
  widening : ∀ n, c.isWidening n = true → c.isCut n = true
  successors : ∀ p, c.isCut p = true → (c.successors p).Pairwise (· < ·) ∧
    ∀ q, q ∈ c.successors p ↔ c.isCut q = true ∧ ∃ inner, Segment (row table) c.isCut p inner q
  predecessors : ∀ q, (c.predecessors q).Pairwise (· < ·) ∧
    ∀ p, p ∈ c.predecessors q ↔ c.isCut p = true ∧ q ∈ c.successors p

/-- The nodes of a cycle in reach of the entry are all left by the search for back edges. -/
theorem exists_isWidening (h : InRange table) {cycle : List ℕ} (hcycle : IsCycle (row table) cycle)
    (hreach : ∀ n ∈ cycle, Reaches (row table) entry n) :
    ∃ n ∈ cycle, (compute table roles headers entry).isWidening n = true := by
  have hsucc : ∀ n < table.length, ∀ t ∈ row table n, t < table.length := fun _ _ _ ht => h.lt_of_mem ht
  have hentry : ∀ n ∈ [entry], n < table.length := by
    -- The first node of the cycle has an edge, and so has the entry.
    cases cycle with
    | nil => exact hcycle.elim
    | cons n rest =>
      obtain ⟨t, ht⟩ : ∃ t, t ∈ row table n := by
        cases rest with
        | nil => exact ⟨n, (List.isChain_cons_cons.mp hcycle).1⟩
        | cons m rest => exact ⟨m, (List.isChain_cons_cons.mp hcycle).1⟩
      rcases (hreach n (by simp)).cases_head with rfl | ⟨m, hm, -⟩
      · simpa using lt_of_mem_row ht
      · simpa using lt_of_mem_row hm
  obtain ⟨finished, hnodup, hfound, -, -, hordered⟩ := Search.exists_finished hsucc hentry
  have hfinished : ∀ n ∈ cycle, n ∈ finished := by
    intro n hn
    rw [← hfound, Search.found_run_iff hsucc hentry]
    exact ⟨entry, by simp, hreach n hn⟩
  obtain ⟨n, hn, hback⟩ := hordered.exists_mem_back hnodup hcycle hfinished
  have hlt : n < table.length := by
    rcases (hreach n hn).cases_tail with rfl | ⟨m, -, hm⟩
    · exact hentry n (by simp)
    · exact h.lt_of_mem hm
  refine ⟨n, hn, ?_⟩
  rw [isWidening_compute hlt, Bool.or_eq_true]
  exact .inr (List.contains_iff_mem.mpr hback)

/-- The cut points of every successor table cut its cycles, and their successors are exact. -/
theorem separates_compute (h : InRange table) (roles : List BlockRole) (headers : List Bool) (entry : ℕ) :
    (compute table roles headers entry).Separates table entry where
  cycles cycle hcycle hreach := exists_isWidening h hcycle hreach
  widening n hn := by
    rw [isCut_compute (lt_of_isWidening hn), hn]
    rfl
  successors p hp := ⟨pairwise_successors .., fun q => mem_successors_compute h hp⟩
  predecessors q := by
    have hsize : (compute table roles headers entry).following.size = table.length := by simp [compute]
    have hrange : ∀ p, ∀ t ∈ (compute table roles headers entry).following.getD p [],
        t < (compute table roles headers entry).following.size := fun p t ht => hsize ▸ lt_of_mem_successors ht
    have hnodup : ∀ p, ((compute table roles headers entry).following.getD p []).Nodup := fun p =>
      (pairwise_successors table roles headers entry p).imp ne_of_lt
    refine ⟨pairwise_lt_transpose hrange hnodup q, fun p => (mem_transpose hrange).trans ?_⟩
    exact ⟨fun hq => ⟨isCut_of_mem_successors hq, hq⟩, And.right⟩

/-- A loop that is entered at both of its nodes is cut at one of them, and a segment through the other one leads from
there to an error site. -/
theorem separates_compute_irreducible : let table := [[1, 2], [2], [1, 3], []]
    let c := compute table [.plain, .plain, .plain, .assertionFailure] [] 0
    InRange table ∧ IsCycle (row table) [2, 1] ∧ c.cutNodes = [0, 1, 3] ∧ (∃ n ∈ [2, 1], c.isWidening n = true) ∧
      ∃ inner, Segment (row table) c.isCut 1 inner 3 := by
  intro table c
  have hrange : InRange table := by
    unfold InRange
    decide
  have hcycle : IsCycle (row table) [2, 1] := by
    unfold IsCycle
    decide
  have hreach : ∀ n ∈ [2, 1], Reaches (row table) 0 n := by
    intro n hn
    refine .single ?_
    fin_cases hn <;> decide
  have hsep := separates_compute hrange [.plain, .plain, .plain, .assertionFailure] [] 0
  refine ⟨hrange, hcycle, by decide +kernel, hsep.cycles _ hcycle hreach, ?_⟩
  exact (((hsep.successors 1 (by decide +kernel)).2 3).mp (by decide +kernel)).2

end CutPoints

end PathInvariants
