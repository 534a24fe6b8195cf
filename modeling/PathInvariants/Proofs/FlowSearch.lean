import Mathlib
import PathInvariants.Flow.Search

/-!
# Depth-first search

The nodes that a search has left, the latest first. Every edge out of such a node leads to a node left
before it or to the target of a back edge, so a walk that avoids the targets of back edges never comes
back. With fuel beyond the number of nodes, what has been found is closed under edges.
-/
namespace PathInvariants.Flow

namespace Search

variable {succ : ℕ → List ℕ} {size : ℕ}

/-- Every edge out of a listed node leads to a later one or to a member of `back`. -/
def Ordered (succ : ℕ → List ℕ) (back : List ℕ) : List ℕ → Prop
  | [] => True
  | n :: rest => (∀ t ∈ succ n, t ∈ back ∨ t ∈ rest) ∧ Ordered succ back rest

theorem Ordered.mono {back back' l : List ℕ} (hb : ∀ n ∈ back, n ∈ back') (h : Ordered succ back l) :
    Ordered succ back' l := by
  induction l with
  | nil => trivial
  | cons n rest ih => exact ⟨fun t ht => (h.1 t ht).imp_left (hb t), ih h.2⟩

theorem Ordered.mem {back l : List ℕ} {n t : ℕ} (h : Ordered succ back l) (hn : n ∈ l) (ht : t ∈ succ n) :
    t ∈ back ∨ t ∈ l := by
  induction l with
  | nil => cases hn
  | cons m rest ih =>
    rcases List.mem_cons.mp hn with rfl | hn
    · exact (h.1 t ht).imp_right (List.mem_cons_of_mem _)
    · exact (ih h.2 hn).imp_right (List.mem_cons_of_mem _)

/-- Along an edge that is no back edge the position in the list grows. -/
theorem Ordered.idxOf_lt {back l : List ℕ} {n t : ℕ} (h : Ordered succ back l) (hl : l.Nodup) (hn : n ∈ l)
    (ht : t ∈ succ n) (hb : t ∉ back) : l.idxOf n < l.idxOf t := by
  induction l with
  | nil => cases hn
  | cons m rest ih =>
    obtain ⟨hm, hrest⟩ := List.nodup_cons.mp hl
    rcases List.mem_cons.mp hn with rfl | hn
    · have htr := (h.1 t ht).resolve_left hb
      have hne : n ≠ t := by
        rintro rfl
        exact hm htr
      rw [List.idxOf_cons_self, List.idxOf_cons_ne _ hne]
      omega
    · have htr := (h.2.mem hn ht).resolve_left hb
      have hne : m ≠ t := by
        rintro rfl
        exact hm htr
      have hne' : m ≠ n := by
        rintro rfl
        exact hm hn
      rw [List.idxOf_cons_ne _ hne, List.idxOf_cons_ne _ hne']
      have := ih h.2 hrest hn
      omega

/-- A search with the given nodes on its path and the given ones left. -/
structure Searching (succ : ℕ → List ℕ) (size : ℕ) (active finished : List ℕ) (s : Search) : Prop where
  count : s.marks.size = size
  onPath : ∀ n, s.marks[n]? = some .active ↔ n ∈ active
  left : ∀ n, s.marks[n]? = some .done ↔ n ∈ finished
  nodup : active.Nodup ∧ finished.Nodup
  ordered : Ordered succ s.backTargets finished
  back : ∀ n ∈ s.backTargets, n ∈ active ∨ n ∈ finished

theorem Searching.length_le {active finished : List ℕ} {s : Search} (h : Searching succ size active finished s) :
    active.length ≤ size := by
  have hsub : active ⊆ List.range size := by
    intro n hn
    have hmark := (h.onPath n).mpr hn
    rw [List.mem_range, ← h.count]
    exact (Array.getElem?_eq_some_iff.mp hmark).1
  simpa using (List.Nodup.subperm h.nodup.1 hsub).length_le

theorem Searching.enter {active finished : List ℕ} {s : Search} {n : ℕ} (h : Searching succ size active finished s)
    (hn : s.marks[n]? = some .fresh) : Searching succ size (n :: active) finished (s.enter n) := by
  have hlt : n < s.marks.size := (Array.getElem?_eq_some_iff.mp hn).1
  have hmarks : ∀ m, (s.enter n).marks[m]? = if n = m then some .active else s.marks[m]? := by
    intro m
    rw [Search.enter, Array.getElem?_setIfInBounds]
    by_cases hnm : n = m
    · subst hnm
      simp [hlt]
    · simp [hnm]
  have hactive : n ∉ active := fun hmem => by simp [(h.onPath n).mpr hmem] at hn
  refine ⟨by rw [Search.enter, Array.size_setIfInBounds, h.count], fun m => ?_, fun m => ?_,
    ⟨List.nodup_cons.mpr ⟨hactive, h.nodup.1⟩, h.nodup.2⟩, h.ordered, fun m hm =>
      (h.back m hm).imp_left (List.mem_cons_of_mem _)⟩
  · rw [hmarks, List.mem_cons, ← h.onPath m]
    by_cases hnm : n = m
    · simp [hnm]
    · have hmn : m ≠ n := fun h => hnm h.symm
      simp [hnm, hmn]
  · rw [hmarks, ← h.left m]
    by_cases hnm : n = m
    · subst hnm
      simp [hn]
    · simp [hnm]

theorem Searching.leave {active finished : List ℕ} {s : Search} {n : ℕ}
    (h : Searching succ size (n :: active) finished s) (hn : ∀ t ∈ succ n, t ∈ s.backTargets ∨ t ∈ finished) :
    Searching succ size active (n :: finished) (s.leave n) := by
  have hmark := (h.onPath n).mpr (by simp)
  have hlt : n < s.marks.size := (Array.getElem?_eq_some_iff.mp hmark).1
  have hmarks : ∀ m, (s.leave n).marks[m]? = if n = m then some .done else s.marks[m]? := by
    intro m
    rw [Search.leave, Array.getElem?_setIfInBounds]
    by_cases hnm : n = m
    · subst hnm
      simp [hlt]
    · simp [hnm]
  obtain ⟨hnotin, hactive⟩ := List.nodup_cons.mp h.nodup.1
  have hfinished : n ∉ finished := fun hmem => by simp [(h.left n).mpr hmem] at hmark
  refine ⟨by rw [Search.leave, Array.size_setIfInBounds, h.count], fun m => ?_, fun m => ?_,
    ⟨hactive, List.nodup_cons.mpr ⟨hfinished, h.nodup.2⟩⟩, ⟨hn, h.ordered⟩, fun m hm => ?_⟩
  · rw [hmarks]
    by_cases hnm : n = m
    · subst hnm
      simp [hnotin]
    · have hmn : m ≠ n := fun h => hnm h.symm
      rw [if_neg hnm, h.onPath m, List.mem_cons]
      simp [hmn]
  · rw [hmarks, List.mem_cons, ← h.left m]
    by_cases hnm : n = m
    · simp [hnm]
    · have hmn : m ≠ n := fun h => hnm h.symm
      simp [hnm, hmn]
  · rcases h.back m hm with hm | hm
    · rcases List.mem_cons.mp hm with rfl | hm
      · exact .inr (by simp)
      · exact .inl hm
    · exact .inr (List.mem_cons_of_mem _ hm)

/-- What a visit of the given nodes makes of a search: the search path is as before, and every one of the nodes is
left or the target of a back edge. -/
def Visits (succ : ℕ → List ℕ) (size : ℕ) (active finished : List ℕ) (s s' : Search) (nodes : List ℕ) : Prop :=
  ∃ finished', Searching succ size active finished' s' ∧ (∀ n ∈ finished, n ∈ finished') ∧
    (∀ n ∈ s.backTargets, n ∈ s'.backTargets) ∧ ∀ n ∈ nodes, n ∈ s'.backTargets ∨ n ∈ finished'

theorem foldl_visits (visit : Search → ℕ → Search) {active finished : List ℕ} {s : Search} (nodes : List ℕ)
    (hvisit : ∀ n ∈ nodes, ∀ finished s, Searching succ size active finished s →
      Visits succ size active finished s (visit s n) [n])
    (h : Searching succ size active finished s) : Visits succ size active finished s (nodes.foldl visit s) nodes := by
  induction nodes generalizing s finished with
  | nil => exact ⟨finished, h, fun _ h => h, fun _ h => h, nofun⟩
  | cons n nodes ih =>
    obtain ⟨f₁, h₁, hsub₁, hback₁, hn⟩ := hvisit n (by simp) finished s h
    obtain ⟨f₂, h₂, hsub₂, hback₂, hnodes⟩ := ih (fun m hm => hvisit m (by simp [hm])) h₁
    refine ⟨f₂, h₂, fun m hm => hsub₂ m (hsub₁ m hm), fun m hm => hback₂ m (hback₁ m hm), fun m hm => ?_⟩
    rcases List.mem_cons.mp hm with rfl | hm
    · exact (hn m (by simp)).imp (hback₂ m) (hsub₂ m)
    · exact hnodes m hm

theorem visit_visits (hsucc : ∀ n < size, ∀ t ∈ succ n, t < size) {fuel : ℕ} {active finished : List ℕ} {s : Search}
    {n : ℕ} (hn : n < size) (h : Searching succ size active finished s) (hfuel : size < fuel + active.length) :
    Visits succ size active finished s (visit succ fuel s n) [n] := by
  induction fuel generalizing active finished s n with
  | zero =>
    -- The search path has no repetition, so it cannot be that long.
    have := h.length_le
    omega
  | succ fuel ih =>
    rw [visit]
    split
    · rename_i hfresh
      obtain ⟨f₁, h₁, hsub, hback, hall⟩ := foldl_visits (visit succ fuel) (succ n)
        (fun t ht finished s hs => ih (hsucc n hn t ht) hs (by simp only [List.length_cons]; omega)) (h.enter hfresh)
      refine ⟨n :: f₁, h₁.leave hall, fun m hm => List.mem_cons_of_mem _ (hsub m hm), hback, fun m hm => ?_⟩
      exact .inr (by simp [List.mem_singleton.mp hm])
    · rename_i hactive
      refine ⟨finished, ⟨h.count, h.onPath, h.left, h.nodup, h.ordered.mono fun m hm => List.mem_cons_of_mem _ hm,
        fun m hm => ?_⟩, fun _ hm => hm, fun m hm => List.mem_cons_of_mem _ hm, fun m hm => .inl ?_⟩
      · rcases List.mem_cons.mp hm with rfl | hm
        · exact .inl ((h.onPath m).mp hactive)
        · exact h.back m hm
      · simp [List.mem_singleton.mp hm]
    · rename_i hdone
      refine ⟨finished, h, fun _ hm => hm, fun _ hm => hm, fun m hm => .inr ?_⟩
      rw [List.mem_singleton.mp hm]
      exact (h.left n).mp hdone
    · rename_i hnone
      rw [Array.getElem?_eq_none_iff, h.count] at hnone
      omega

theorem searching_start (succ : ℕ → List ℕ) (size : ℕ) : Searching succ size [] [] (start size) := by
  refine ⟨by simp [start], fun n => ?_, fun n => ?_, ⟨List.nodup_nil, List.nodup_nil⟩, trivial, nofun⟩
  · simp [start, Array.getElem?_replicate]
  · simp [start, Array.getElem?_replicate]

/-- The result of a search from the given roots: a list of all nodes found, closed under edges, in which every edge
leads on or to the target of a back edge. -/
theorem exists_finished (hsucc : ∀ n < size, ∀ t ∈ succ n, t < size) {roots : List ℕ} (hroots : ∀ n ∈ roots, n < size) :
    ∃ finished : List ℕ, finished.Nodup ∧ (∀ n, (run succ size roots).found n = true ↔ n ∈ finished) ∧
      (∀ n ∈ roots, n ∈ finished) ∧ (∀ n ∈ finished, ∀ t ∈ succ n, t ∈ finished) ∧
      Ordered succ (run succ size roots).backTargets finished := by
  obtain ⟨finished, h, -, -, hall⟩ := foldl_visits (visit succ (size + 1)) roots
    (fun n hn finished s hs => visit_visits hsucc (hroots n hn) hs (by simp)) (searching_start succ size)
  have hback : ∀ n, n ∈ (run succ size roots).backTargets ∨ n ∈ finished → n ∈ finished := by
    intro n hn
    rcases hn with hn | hn
    · exact (h.back n hn).resolve_left List.not_mem_nil
    · exact hn
  refine ⟨finished, h.nodup.2, fun n => ?_, fun n hn => hback n (hall n hn), fun n hn t ht => hback t (h.ordered.mem hn ht),
    h.ordered⟩
  have hactive : (run succ size roots).marks[n]? ≠ some .active := fun hn => List.not_mem_nil ((h.onPath n).mp hn)
  rw [← h.left n]
  change found (run succ size roots) n = true ↔ (run succ size roots).marks[n]? = some .done
  rw [found, Array.getD_eq_getD_getElem?]
  cases hm : (run succ size roots).marks[n]? with
  | none => simp
  | some m =>
    cases m with
    | fresh => simp
    | active => exact absurd hm hactive
    | done => simp

end Search

end PathInvariants.Flow
