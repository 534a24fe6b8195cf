import PathInvariants.Proofs.FlowSearch

/-!
# What a depth-first search finds

A search from given roots comes to the nodes that they lead to, and to no others. It lists them in
depth-first order: each node is followed by all that its successors newly lead to, successor by
successor, before the search goes on beside it. That order is unique.
-/
namespace PathInvariants.Flow

variable {succ : ℕ → List ℕ}

/-- The nodes that a walk along edges leads to. -/
abbrev Reaches (succ : ℕ → List ℕ) : ℕ → ℕ → Prop := Relation.ReflTransGen fun a b => b ∈ succ a

/-- A search that has come to the nodes `seen` and is to enter the nodes `todo` in turn comes to the nodes `order`. -/
inductive DepthFirst (succ : ℕ → List ℕ) : (seen todo order : List ℕ) → Prop
  | done (seen : List ℕ) : DepthFirst succ seen [] []
  | skip {seen todo order : List ℕ} {n : ℕ} (hn : n ∈ seen) (rest : DepthFirst succ seen todo order) :
      DepthFirst succ seen (n :: todo) order
  | enter {seen todo below after : List ℕ} {n : ℕ} (hn : n ∉ seen) (down : DepthFirst succ (seen ++ [n]) (succ n) below)
      (rest : DepthFirst succ (seen ++ n :: below) todo after) : DepthFirst succ seen (n :: todo) (n :: below ++ after)

namespace DepthFirst

variable {seen todo order : List ℕ}

theorem unique {order' : List ℕ} (h : DepthFirst succ seen todo order) (h' : DepthFirst succ seen todo order') :
    order = order' := by
  induction h generalizing order' with
  | done seen =>
    cases h'
    rfl
  | skip hn _ ih =>
    cases h' with
    | skip _ rest => exact ih rest
    | enter hn' => exact absurd hn hn'
  | enter hn _ _ ihdown ihrest =>
    cases h' with
    | skip hn' => exact absurd hn' hn
    | enter _ down rest =>
      obtain rfl := ihdown down
      obtain rfl := ihrest rest
      rfl

/-- What the search comes to is new, and it comes there once. -/
theorem nodup (h : DepthFirst succ seen todo order) (hseen : seen.Nodup) : (seen ++ order).Nodup := by
  induction h with
  | done seen => simpa using hseen
  | skip _ _ ih => exact ih hseen
  | @enter seen todo below after n hn _ _ ihdown ihrest =>
    have hentered : (seen ++ [n]).Nodup := List.nodup_append'.mpr ⟨hseen, List.nodup_singleton n, by simpa using hn⟩
    have hbelow : (seen ++ n :: below).Nodup := by simpa using ihdown hentered
    simpa using ihrest hbelow

theorem reaches (h : DepthFirst succ seen todo order) {n : ℕ} (hn : n ∈ order) : ∃ m ∈ todo, Reaches succ m n := by
  induction h with
  | done seen => cases hn
  | skip _ _ ih =>
    obtain ⟨m, hm, hreach⟩ := ih hn
    exact ⟨m, List.mem_cons_of_mem _ hm, hreach⟩
  | @enter seen todo below after k _ _ _ ihdown ihrest =>
    rcases List.mem_append.mp hn with hn | hn
    · refine ⟨k, List.mem_cons_self, ?_⟩
      rcases List.mem_cons.mp hn with rfl | hn
      · exact .refl
      · obtain ⟨m, hm, hreach⟩ := ihdown hn
        exact .head hm hreach
    · obtain ⟨m, hm, hreach⟩ := ihrest hn
      exact ⟨m, List.mem_cons_of_mem _ hm, hreach⟩

/-- Nodes may be entered one at a time. -/
theorem cons {n : ℕ} {after : List ℕ} (h : DepthFirst succ seen [n] order)
    (hrest : DepthFirst succ (seen ++ order) todo after) : DepthFirst succ seen (n :: todo) (order ++ after) := by
  cases h with
  | skip hn rest =>
    cases rest
    exact .skip hn (by simpa using hrest)
  | enter hn down rest =>
    cases rest
    rw [List.append_nil] at hrest ⊢
    exact .enter hn down hrest

end DepthFirst

namespace Search

variable {size : ℕ} {s s' : Search}

/-- The visited nodes are those that the search has come to. -/
def Listed (s : Search) : Prop := ∀ n, s.found n = true ↔ n ∈ s.visited.toList

theorem found_iff {n : ℕ} : s.found n = true ↔ s.marks[n]? = some .active ∨ s.marks[n]? = some .done := by
  rw [found, Array.getD_eq_getD_getElem?]
  cases hm : s.marks[n]? with
  | none => simp
  | some m => cases m <;> simp

theorem found_enter {n m : ℕ} (hn : s.marks[n]? = some .fresh) :
    (s.enter n).found m = true ↔ m = n ∨ s.found m = true := by
  have hlt : n < s.marks.size := (Array.getElem?_eq_some_iff.mp hn).1
  rw [found_iff, found_iff, enter, Array.getElem?_setIfInBounds]
  by_cases hnm : n = m
  · subst hnm
    simp [hlt]
  · have hmn : m ≠ n := fun h => hnm h.symm
    simp [hnm, hmn]

theorem found_leave {n m : ℕ} (hn : s.found n = true) : (s.leave n).found m = true ↔ s.found m = true := by
  have hlt : n < s.marks.size := by
    rcases found_iff.mp hn with h | h <;> exact (Array.getElem?_eq_some_iff.mp h).1
  rw [found_iff, found_iff, leave, Array.getElem?_setIfInBounds]
  by_cases hnm : n = m
  · subst hnm
    simpa [hlt] using found_iff.mp hn
  · simp [hnm]

theorem Listed.enter {n : ℕ} (hs : s.Listed) (hn : s.marks[n]? = some .fresh) : (s.enter n).Listed := by
  intro m
  rw [found_enter hn, hs m]
  simp [Search.enter, or_comm]

theorem Listed.leave {n : ℕ} (hs : s.Listed) (hn : n ∈ s.visited.toList) : (s.leave n).Listed := by
  intro m
  rw [found_leave ((hs n).mpr hn), hs m]
  rfl

/-- Entering the given nodes in turn lists what they newly lead to, in depth-first order. -/
def Enters (succ : ℕ → List ℕ) (s s' : Search) (nodes : List ℕ) : Prop :=
  s'.Listed ∧ ∃ order, DepthFirst succ s.visited.toList nodes order ∧ s'.visited.toList = s.visited.toList ++ order

theorem Enters.refl {n : ℕ} (hs : s.Listed) (hn : s.found n = true) : Enters succ s s [n] :=
  ⟨hs, [], .skip ((hs n).mp hn) (.done _), by simp⟩

theorem Enters.cons {s₁ : Search} {n : ℕ} {nodes : List ℕ} (h : Enters succ s s₁ [n]) (h' : Enters succ s₁ s' nodes) :
    Enters succ s s' (n :: nodes) := by
  obtain ⟨-, order, hfirst, hvisited⟩ := h
  obtain ⟨hs', after, hrest, hvisited'⟩ := h'
  rw [hvisited] at hrest hvisited'
  exact ⟨hs', order ++ after, hfirst.cons hrest, by rw [hvisited', List.append_assoc]⟩

/-- A node is left when its successors have been entered. -/
theorem Enters.leave {s₁ : Search} {n : ℕ} (hn : s.marks[n]? = some .fresh) (hs : s.Listed)
    (h : Enters succ (s.enter n) s₁ (succ n)) : Enters succ s (s₁.leave n) [n] := by
  obtain ⟨hs₁, below, hdown, hvisited⟩ := h
  have hentered : (s.enter n).visited.toList = s.visited.toList ++ [n] := by simp [Search.enter]
  rw [hentered] at hdown hvisited
  have hfresh : n ∉ s.visited.toList := by
    rw [← hs n, found_iff, hn]
    simp
  refine ⟨hs₁.leave (by simp [hvisited]), n :: below ++ [], .enter hfresh hdown (.done _), ?_⟩
  simpa [Search.leave] using hvisited

theorem foldl_enters (visit : Search → ℕ → Search) {active finished : List ℕ} (nodes : List ℕ)
    (hvisit : ∀ n ∈ nodes, ∀ finished s, Searching succ size active finished s → s.Listed →
      Visits succ size active finished s (visit s n) [n] ∧ Enters succ s (visit s n) [n])
    (h : Searching succ size active finished s) (hs : s.Listed) : Enters succ s (nodes.foldl visit s) nodes := by
  induction nodes generalizing s finished with
  | nil => exact ⟨hs, [], .done _, by simp⟩
  | cons n nodes ih =>
    obtain ⟨⟨f₁, h₁, -⟩, hfirst⟩ := hvisit n (by simp) finished s h hs
    exact hfirst.cons (ih (fun m hm => hvisit m (by simp [hm])) h₁ hfirst.1)

variable (hsucc : ∀ n < size, ∀ t ∈ succ n, t < size)

include hsucc

theorem visit_enters {fuel : ℕ} {active finished : List ℕ} {n : ℕ} (hn : n < size)
    (h : Searching succ size active finished s) (hs : s.Listed) (hfuel : size < fuel + active.length) :
    Enters succ s (visit succ fuel s n) [n] := by
  induction fuel generalizing active finished s n with
  | zero =>
    have := h.length_le
    omega
  | succ fuel ih =>
    rw [visit]
    split
    · rename_i hfresh
      refine .leave hfresh hs (foldl_enters _ _ (fun t ht finished x hx hlisted => ?_) (h.enter hfresh) (hs.enter hfresh))
      have hless : size < fuel + (n :: active).length := by
        simp only [List.length_cons]
        omega
      exact ⟨visit_visits hsucc (hsucc n hn t ht) hx hless, ih (hsucc n hn t ht) hx hlisted hless⟩
    · rename_i hactive
      exact .refl hs (found_iff.mpr (.inl hactive))
    · rename_i hdone
      exact .refl hs (found_iff.mpr (.inr hdone))
    · rename_i hnone
      rw [Array.getElem?_eq_none_iff, h.count] at hnone
      omega

/-- A search lists the nodes that it finds, in depth-first order. -/
theorem run_enters {roots : List ℕ} (hroots : ∀ n ∈ roots, n < size) :
    (run succ size roots).Listed ∧ DepthFirst succ [] roots (run succ size roots).visited.toList := by
  have hstart : (start size).Listed := by
    intro n
    rw [found_iff]
    simp [start, Array.getElem?_replicate]
  obtain ⟨hlisted, order, horder, hvisited⟩ := foldl_enters (visit succ (size + 1)) roots
    (fun n hn finished s hs hl => ⟨visit_visits hsucc (hroots n hn) hs (by simp),
      visit_enters hsucc (hroots n hn) hs hl (by simp)⟩) (searching_start succ size) hstart
  refine ⟨hlisted, ?_⟩
  rw [run, hvisited]
  simpa [start] using horder

/-- A search finds what the roots lead to. -/
theorem found_run_iff {roots : List ℕ} (hroots : ∀ n ∈ roots, n < size) {n : ℕ} :
    (run succ size roots).found n = true ↔ ∃ m ∈ roots, Reaches succ m n := by
  obtain ⟨hlisted, horder⟩ := run_enters hsucc hroots
  obtain ⟨finished, -, hfound, hstart, hclosed, -⟩ := exists_finished hsucc hroots
  constructor
  · intro hn
    exact horder.reaches ((hlisted n).mp hn)
  · rintro ⟨m, hm, hreach⟩
    rw [hfound]
    induction hreach with
    | refl => exact hstart m hm
    | tail _ hedge ih => exact hclosed _ ih _ hedge

end Search

section Tables

variable {table : List (List ℕ)} {a b : ℕ}

theorem getD_map_range {α : Type} (f : ℕ → α) (size n : ℕ) (d : α) :
    ((Array.range size).map f).getD n d = if n < size then f n else d := by
  rw [Array.getD_eq_getD_getElem?, Array.getElem?_map, Array.getElem?_range]
  split <;> rfl

/-- The row of a node in a successor table. -/
abbrev row (table : List (List ℕ)) (n : ℕ) : List ℕ := table.toArray.getD n []

/-- The entries of a successor table are nodes. -/
def InRange (table : List (List ℕ)) : Prop := ∀ targets ∈ table, ∀ t ∈ targets, t < table.length

theorem lt_of_mem_row (h : b ∈ row table a) : a < table.length := by
  by_contra ha
  simp [row, Array.getD_eq_getD_getElem?, List.getElem?_eq_none (Nat.le_of_not_lt ha)] at h

theorem InRange.lt_of_mem (h : InRange table) (hb : b ∈ row table a) : b < table.length := by
  have ha := lt_of_mem_row hb
  simp only [row, Array.getD_eq_getD_getElem?, List.getElem?_toArray, List.getElem?_eq_getElem ha, Option.getD_some] at hb
  exact h _ (List.getElem_mem ha) b hb

end Tables

end PathInvariants.Flow
