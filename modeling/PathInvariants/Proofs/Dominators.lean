import PathInvariants.Proofs.SearchOrder

/-!
# Dominators

A node dominates another if every walk from the root to the other passes through it. What a computation
of dominators is relied on for is that it lists these nodes. One that does is to search the graph without
each node in turn: what such a search does not find, that node dominates. A depth-first search comes to a
node along a walk from the root, and has the whole walk on its path until it leaves the node. So an edge
from a node to one of its dominators is a back edge, in whatever order the search takes the successors.
-/
namespace PathInvariants.Flow

variable {succ : ℕ → List ℕ} {size root n m : ℕ} {walk : List ℕ}

/-- A walk from `a` along edges, listed with both its ends. -/
inductive IsWalk (R : ℕ → ℕ → Prop) (a : ℕ) : ℕ → List ℕ → Prop
  | start : IsWalk R a a [a]
  | step {b c : ℕ} {walk : List ℕ} (h : IsWalk R a b walk) (hbc : R b c) : IsWalk R a c (walk ++ [c])

/-- Every walk from the root to `m` passes through `n`. -/
def Dominates (R : ℕ → ℕ → Prop) (root n m : ℕ) : Prop := ∀ walk, IsWalk R root m walk → n ∈ walk

/-- In every graph whose edges join nodes, there is a list for those nodes that the root leads to, and it holds their
dominators. -/
structure Dominators.Correct (dominators : Dominators) : Prop where
  reached {succ : ℕ → List ℕ} {size root m : ℕ} (hsucc : ∀ n < size, ∀ t ∈ succ n, t < size) (hroot : root < size)
    (hm : m < size) : ((dominators succ size root).getD m none).isSome = true ↔ Reaches succ root m
  listed {succ : ℕ → List ℕ} {size root m n : ℕ} (hsucc : ∀ n < size, ∀ t ∈ succ n, t < size) (hroot : root < size)
    (hm : m < size) {nodes : List ℕ} (hnodes : (dominators succ size root).getD m none = some nodes) :
    n ∈ nodes ↔ Dominates (fun x y => y ∈ succ x) root n m

/-- A search that never enters `n` finds the ends of the walks that avoid it. -/
theorem exists_walk_avoiding : (∃ r ∈ (if root = n then [] else [root]), Reaches (fun v => (succ v).filter (· != n)) r m) ↔
    ∃ walk, IsWalk (fun x y => y ∈ succ x) root m walk ∧ n ∉ walk := by
  constructor
  · rintro ⟨r, hr, hreach⟩
    by_cases hroot : root = n
    · simp [hroot] at hr
    · obtain rfl : r = root := by simpa [hroot] using hr
      induction hreach with
      | refl => exact ⟨[r], .start, by simpa using fun h => hroot h.symm⟩
      | tail _ hedge ih =>
        obtain ⟨walk, hwalk, hn⟩ := ih
        simp only [List.mem_filter, bne_iff_ne] at hedge
        refine ⟨_, hwalk.step hedge.1, ?_⟩
        simpa [hn] using fun h => hedge.2 h.symm
  · rintro ⟨walk, hwalk, hn⟩
    induction hwalk with
    | start =>
      have hroot : root ≠ n := by simpa [eq_comm] using hn
      exact ⟨root, by simp [hroot], .refl⟩
    | @step b c walk _ hbc ih =>
      rw [List.mem_append, List.mem_singleton, not_or] at hn
      obtain ⟨r, hr, hreach⟩ := ih hn.1
      refine ⟨r, hr, hreach.tail ?_⟩
      simpa [hbc] using fun h => hn.2 h.symm

/-- What is in reach and not found by the search that avoids `n` is dominated by `n`. -/
theorem found_searchAvoiding (hsucc : ∀ n < size, ∀ t ∈ succ n, t < size) (hroot : root < size) :
    (searchAvoiding succ size root n).found m = false ↔ Dominates (fun x y => y ∈ succ x) root n m := by
  have hfilter : ∀ v < size, ∀ t ∈ (succ v).filter (· != n), t < size := fun v hv t ht =>
    hsucc v hv t (List.mem_filter.mp ht).1
  have hroots : ∀ r ∈ (if root = n then [] else [root]), r < size := by
    intro r hr
    split at hr
    · simp at hr
    · rwa [List.mem_singleton.mp hr]
  rw [Bool.eq_false_iff, ne_eq, searchAvoiding, Search.found_run_iff hfilter hroots, exists_walk_avoiding, Dominates]
  simp

theorem exists_isWalk (h : Reaches succ root m) : ∃ walk, IsWalk (fun x y => y ∈ succ x) root m walk := by
  induction h with
  | refl => exact ⟨_, .start⟩
  | tail _ hbc ih =>
    obtain ⟨walk, hwalk⟩ := ih
    exact ⟨_, hwalk.step hbc⟩

theorem IsWalk.lt (hsucc : ∀ n < size, ∀ t ∈ succ n, t < size) (hroot : root < size)
    (h : IsWalk (fun x y => y ∈ succ x) root m walk) : m < size ∧ ∀ n ∈ walk, n < size := by
  induction h with
  | start => exact ⟨hroot, by simpa using hroot⟩
  | step _ hbc ih =>
    have hc := hsucc _ ih.1 _ hbc
    refine ⟨hc, fun n hn => ?_⟩
    rcases List.mem_append.mp hn with hn | hn
    · exact ih.2 n hn
    · rwa [List.mem_singleton.mp hn]

/-- Removing each node in turn finds the dominators. -/
theorem correct_dominatorsByRemoval : dominatorsByRemoval.Correct where
  reached {succ size root m} hsucc hroot hm := by
    have hroots : ∀ r ∈ [root], r < size := by simpa using hroot
    rw [dominatorsByRemoval, getD_map_range, if_pos hm]
    simpa using Search.found_run_iff hsucc hroots (n := m)
  listed {succ size root m n} hsucc hroot hm nodes hnodes := by
    rw [dominatorsByRemoval, getD_map_range, if_pos hm] at hnodes
    split at hnodes
    · rename_i hreached
      obtain ⟨r, hr, hreach⟩ := (Search.found_run_iff hsucc (by simpa using hroot)).mp hreached
      obtain ⟨walk, hwalk⟩ := exists_isWalk (List.mem_singleton.mp hr ▸ hreach)
      have hlt : Dominates (fun x y => y ∈ succ x) root n m → n < size := fun hdom =>
        (hwalk.lt hsucc hroot).2 n (hdom walk hwalk)
      rw [← Option.some.inj hnodes, List.mem_filter, List.mem_range, getD_map_range, Bool.not_eq_true']
      constructor
      · rintro ⟨hn, havoided⟩
        rw [if_pos hn] at havoided
        exact (found_searchAvoiding hsucc hroot).mp havoided
      · intro hdom
        rw [if_pos (hlt hdom)]
        exact ⟨hlt hdom, (found_searchAvoiding hsucc hroot).mpr hdom⟩
    · cases hnodes

namespace Search

variable {s : Search} {active finished : List ℕ}

/-- The search came to every node that it has left along a walk from the root, and the edges from the node back to that
walk are back edges. -/
def Traced (succ : ℕ → List ℕ) (root : ℕ) (s : Search) : Prop := ∀ n, s.marks[n]? = some .done →
  ∃ walk, IsWalk (fun x y => y ∈ succ x) root n walk ∧ ∀ t ∈ succ n, t ∈ walk → t ∈ s.backTargets

theorem traced_start (succ : ℕ → List ℕ) (root size : ℕ) : (start size).Traced succ root := by
  intro n hn
  simp [start, Array.getElem?_replicate] at hn

theorem Traced.enter (h : s.Traced succ root) (n : ℕ) : (s.enter n).Traced succ root := by
  intro m hm
  rw [Search.enter, Array.getElem?_setIfInBounds] at hm
  by_cases hnm : n = m
  · simp [hnm] at hm
  · exact h m (by simpa [hnm] using hm)

theorem Traced.leave (h : s.Traced succ root) (hwalk : IsWalk (fun x y => y ∈ succ x) root n walk)
    (hback : ∀ t ∈ succ n, t ∈ walk → t ∈ s.backTargets) : (s.leave n).Traced succ root := by
  intro m hm
  rw [Search.leave, Array.getElem?_setIfInBounds] at hm
  by_cases hnm : n = m
  · subst hnm
    exact ⟨walk, hwalk, hback⟩
  · exact h m (by simpa [hnm] using hm)

theorem Traced.addBack (h : s.Traced succ root) (n : ℕ) :
    ({ s with backTargets := n :: s.backTargets } : Search).Traced succ root := by
  intro m hm
  obtain ⟨walk, hwalk, hback⟩ := h m hm
  exact ⟨walk, hwalk, fun t ht htw => List.mem_cons_of_mem _ (hback t ht htw)⟩

/-- A node cannot be on the search path and left. -/
theorem Searching.disjoint (h : Searching succ size active finished s) {t : ℕ} (ht : t ∈ active) : t ∉ finished := by
  intro hf
  have hmark := (h.onPath t).mpr ht
  rw [(h.left t).mpr hf] at hmark
  simp at hmark

theorem foldl_traced (visit : Search → ℕ → Search) (nodes : List ℕ)
    (hvisit : ∀ t ∈ nodes, ∀ finished s, Searching succ size active finished s → s.Traced succ root →
      Visits succ size active finished s (visit s t) [t] ∧ (visit s t).Traced succ root)
    (h : Searching succ size active finished s) (hs : s.Traced succ root) : (nodes.foldl visit s).Traced succ root := by
  induction nodes generalizing s finished with
  | nil => exact hs
  | cons t nodes ih =>
    obtain ⟨⟨f₁, h₁, -⟩, hs₁⟩ := hvisit t (by simp) finished s h hs
    exact ih (fun u hu => hvisit u (by simp [hu])) h₁ hs₁

variable (hsucc : ∀ n < size, ∀ t ∈ succ n, t < size)

include hsucc

/-- While a node is visited the search path is a walk to it, so its successors on that walk become targets of back
edges before it is left. -/
theorem visit_traced {fuel : ℕ} (hn : n < size) (h : Searching succ size active finished s)
    (hfuel : size < fuel + active.length) (hwalk : IsWalk (fun x y => y ∈ succ x) root n (active.reverse ++ [n]))
    (hs : s.Traced succ root) : (visit succ fuel s n).Traced succ root := by
  induction fuel generalizing active finished s n with
  | zero =>
    have := h.length_le
    omega
  | succ fuel ih =>
    rw [visit]
    split
    · rename_i hfresh
      have hentered := h.enter hfresh
      have hless : size < fuel + (n :: active).length := by
        simp only [List.length_cons]
        omega
      have hwalk' : ∀ t ∈ succ n, IsWalk (fun x y => y ∈ succ x) root t ((n :: active).reverse ++ [t]) := by
        intro t ht
        rw [List.reverse_cons]
        exact hwalk.step ht
      have hvisits : ∀ t ∈ succ n, ∀ finished x, Searching succ size (n :: active) finished x →
          Visits succ size (n :: active) finished x (visit succ fuel x t) [t] := fun t ht _ _ hx =>
        visit_visits hsucc (hsucc n hn t ht) hx hless
      have htraced := foldl_traced (visit succ fuel) (succ n) (fun t ht finished x hx hxs =>
        ⟨hvisits t ht finished x hx, ih (hsucc n hn t ht) hx hless (hwalk' t ht) hxs⟩) hentered (hs.enter n)
      obtain ⟨f₁, h₁, -, -, hall⟩ := foldl_visits (visit succ fuel) (succ n) hvisits hentered
      refine htraced.leave hwalk fun t ht htw => ?_
      exact (hall t ht).resolve_right (h₁.disjoint (by simpa [or_comm] using htw))
    · exact hs.addBack n
    · exact hs
    · exact hs

/-- After a search nothing is on its path. -/
theorem exists_searching {roots : List ℕ} (hroots : ∀ r ∈ roots, r < size) :
    ∃ finished, Searching succ size [] finished (run succ size roots) := by
  obtain ⟨finished, h, -⟩ := foldl_visits (visit succ (size + 1)) roots
    (fun n hn finished s hs => visit_visits hsucc (hroots n hn) hs (by simp)) (searching_start succ size)
  exact ⟨finished, h⟩

theorem lt_of_mem_backTargets {roots : List ℕ} (hroots : ∀ r ∈ roots, r < size)
    (hn : n ∈ (run succ size roots).backTargets) : n < size := by
  obtain ⟨finished, h⟩ := exists_searching hsucc hroots
  have hmark := (h.left n).mpr ((h.back n hn).resolve_left (by simp))
  rw [← h.count]
  exact (Array.getElem?_eq_some_iff.mp hmark).1

/-- An edge to a dominator is a back edge. -/
theorem mem_backTargets_of_dominates (hroot : root < size) (hm : Reaches succ root m) (hn : n ∈ succ m)
    (hdom : Dominates (fun x y => y ∈ succ x) root n m) : n ∈ (run succ size [root]).backTargets := by
  have hroots : ∀ r ∈ [root], r < size := by simpa using hroot
  obtain ⟨finished, h⟩ := exists_searching hsucc hroots
  have htraced : (run succ size [root]).Traced succ root :=
    visit_traced hsucc hroot (searching_start succ size) (by simp) .start (traced_start succ root size)
  have hdone : (run succ size [root]).marks[m]? = some .done := by
    have hfound := (found_run_iff hsucc hroots).mpr ⟨root, by simp, hm⟩
    refine (found_iff.mp hfound).resolve_left fun hactive => ?_
    simpa using (h.onPath m).mp hactive
  obtain ⟨walk, hwalk, hback⟩ := htraced m hdone
  exact hback n hn (hdom walk hwalk)

end Search

end PathInvariants.Flow
