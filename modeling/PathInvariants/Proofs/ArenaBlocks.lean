import Mathlib
import PathInvariants.Arena
import PathInvariants.Flow.Graph

/-!
# Blocks of an arena

The arena of a graph lists blocks without repetition, starts with the entry and is closed under the
edges of the graph, and the edges between its nodes are those between their blocks.
-/
namespace PathInvariants

/-- The entry exists and edges join existing blocks, as the construction of a graph ensures. -/
structure FlowGraph.WellFormed {β ε : Type} (g : FlowGraph β ε) : Prop where
  entry : 0 < g.size
  edges : ∀ e ∈ g.edges, e.1 < g.size ∧ e.2.1 < g.size

/-- The first `size` numbers hold the entry and are closed under edges. -/
structure ControlFlow.Bounded (g : ControlFlow) : Prop where
  entry : g.entry < g.size
  successors : ∀ b < g.size, ∀ s ∈ g.successors b, s < g.size

theorem FlowGraph.control_successors {β ε : Type} (g : FlowGraph β ε) (b : Block) :
    g.control.successors b = g.successors b := rfl

theorem FlowGraph.WellFormed.bounded {β ε : Type} {g : FlowGraph β ε} (hg : g.WellFormed) : g.control.Bounded where
  entry := hg.entry
  successors b hb s hs := by
    rw [control_successors] at hs
    obtain ⟨e, he⟩ := (mem_successors g hb).mp hs
    exact (hg.edges _ he).2

namespace Arena

variable {succ : Block → List Block} {scope : Set Block} {N : ℕ}

theorem nodup_eraseDups (l : List Block) : l.eraseDups.Nodup := by
  match l with
  | [] => simp
  | b :: bs =>
    rw [List.eraseDups_cons]
    refine List.nodup_cons.mpr ⟨?_, nodup_eraseDups _⟩
    rw [List.mem_eraseDups]
    simp
termination_by l.length
decreasing_by
  simp only [List.length_cons]
  have := List.length_filter_le (fun c => !c == b) bs
  omega

/-- The pending blocks are found, every other found block has all its successors found, and nothing outside `scope` is
found. -/
structure Discovering (succ : Block → List Block) (scope : Set Block) (pending found : List Block) : Prop where
  nodup : found.Nodup
  bounded : ∀ b ∈ found, b ∈ scope
  listed : ∀ b ∈ pending, b ∈ found
  expanded : ∀ b ∈ found, b ∈ pending ∨ ∀ s ∈ succ b, s ∈ found

theorem Discovering.length_le {pending found : List Block} (h : Discovering succ scope pending found)
    (hN : scope.encard ≤ N) : found.length ≤ N := by
  have hsub : (found.toFinset : Set Block) ⊆ scope := fun b hb => h.bounded b (by simpa using hb)
  have hcard := (Set.encard_le_encard hsub).trans hN
  rw [Set.encard_coe_eq_coe_finsetCard, List.toFinset_card_of_nodup h.nodup] at hcard
  exact_mod_cast hcard

theorem Discovering.step {b : Block} {pending found : List Block} (hscope : ∀ b ∈ scope, ∀ s ∈ succ b, s ∈ scope)
    (h : Discovering succ scope (b :: pending) found) {fresh : List Block}
    (hfresh : fresh = ((succ b).filter fun s => !found.contains s).eraseDups) :
    Discovering succ scope (fresh ++ pending) (found ++ fresh) := by
  have hmem : ∀ s, s ∈ fresh ↔ s ∈ succ b ∧ s ∉ found := by
    intro s
    rw [hfresh, List.mem_eraseDups, List.mem_filter]
    simp
  have hb : b ∈ found := h.listed b (by simp)
  refine ⟨?_, ?_, ?_, ?_⟩
  · refine List.nodup_append'.mpr ⟨h.nodup, ?_, fun s hs hs' => ((hmem s).mp hs').2 hs⟩
    rw [hfresh]
    exact nodup_eraseDups _
  · intro s hs
    rcases List.mem_append.mp hs with hs | hs
    · exact h.bounded s hs
    · exact hscope b (h.bounded b hb) s ((hmem s).mp hs).1
  · intro s hs
    rcases List.mem_append.mp hs with hs | hs
    · exact List.mem_append_right _ hs
    · exact List.mem_append_left _ (h.listed s (by simp [hs]))
  · intro c hc
    rcases List.mem_append.mp hc with hc | hc
    · rcases h.expanded c hc with hp | hs
      · rcases List.mem_cons.mp hp with rfl | hp
        · refine .inr fun s hs => ?_
          by_cases hf : s ∈ found
          · exact List.mem_append_left _ hf
          · exact List.mem_append_right _ ((hmem s).mpr ⟨hs, hf⟩)
        · exact .inl (List.mem_append_right _ hp)
      · exact .inr fun s hsc => List.mem_append_left _ (hs s hsc)
    · exact .inl (List.mem_append_left _ hc)

/-- With fuel for every pending block and every block of the scope not yet found, the search ends with nothing
pending. -/
theorem discovering_discover (hscope : ∀ b ∈ scope, ∀ s ∈ succ b, s ∈ scope) (hN : scope.encard ≤ N) {fuel : ℕ}
    {pending found : List Block} (h : Discovering succ scope pending found)
    (hfuel : pending.length + (N - found.length) ≤ fuel) :
    Discovering succ scope [] (discover succ fuel pending found) ∧ found <+: discover succ fuel pending found := by
  induction fuel generalizing pending found with
  | zero =>
    have hnil : pending = [] := List.length_eq_zero_iff.mp (by omega)
    subst hnil
    exact ⟨h, List.prefix_refl _⟩
  | succ fuel ih =>
    cases pending with
    | nil => exact ⟨h, List.prefix_refl _⟩
    | cons b pending =>
      have hstep := h.step hscope rfl
      have hle := hstep.length_le hN
      obtain ⟨hdone, hprefix⟩ := ih hstep (by
        simp only [List.length_append, List.length_cons] at hle hfuel ⊢
        omega)
      exact ⟨hdone, (List.prefix_append _ _).trans hprefix⟩

variable {g : ControlFlow}

theorem discovering_start (hentry : g.entry ∈ scope) : Discovering g.successors scope [g.entry] [g.entry] := by
  refine ⟨List.nodup_singleton _, fun b hb => ?_, fun b hb => hb, fun b hb => .inl hb⟩
  rwa [List.mem_singleton.mp hb]

/-- Discovery stays in a set of at most `size` blocks that holds the entry and that no edge leaves. -/
theorem discovering_build (hentry : g.entry ∈ scope) (hscope : ∀ b ∈ scope, ∀ s ∈ g.successors b, s ∈ scope)
    (hsize : scope.encard ≤ g.size) :
    Discovering g.successors scope [] (build g).blocks ∧ [g.entry] <+: (build g).blocks :=
  discovering_discover hscope hsize (discovering_start hentry) (by simp only [List.length_singleton]; omega)

theorem encard_below (n : ℕ) : {b : Block | b < n}.encard = n := by
  change (Set.Iio n).encard = n
  rw [← Finset.coe_range, Set.encard_coe_eq_coe_finsetCard, Finset.card_range]

theorem discovering_blocks (hg : g.Bounded) :
    Discovering g.successors {b | b < g.size} [] (build g).blocks ∧ [g.entry] <+: (build g).blocks :=
  discovering_build hg.entry hg.successors (encard_below g.size).le

theorem length_blocks_le (hg : g.Bounded) : (build g).blocks.length ≤ g.size :=
  (discovering_blocks hg).1.length_le (encard_below g.size).le

theorem nodup_blocks (hg : g.Bounded) : (build g).blocks.Nodup := (discovering_blocks hg).1.nodup

theorem blocks_zero (hg : g.Bounded) : (build g).blocks[0]? = some g.entry := by
  obtain ⟨rest, hrest⟩ := (discovering_blocks hg).2
  rw [← hrest]
  rfl

theorem node_unique (hg : g.Bounded) {n m : ℕ} {b : Block} (hn : (build g).blocks[n]? = some b)
    (hm : (build g).blocks[m]? = some b) : n = m := by
  obtain ⟨hn', hbn⟩ := List.getElem?_eq_some_iff.mp hn
  obtain ⟨hm', hbm⟩ := List.getElem?_eq_some_iff.mp hm
  exact (List.Nodup.getElem_inj_iff (nodup_blocks hg)).mp (hbn.trans hbm.symm)

/-- Without repetition, the number of a block is where it stands. -/
theorem index?_eq_some_iff {a : Arena} (ha : a.blocks.Nodup) {i : ℕ} {b : Block} :
    a.index? b = some i ↔ a.blocks[i]? = some b := by
  rw [index?, List.idxOf?_eq_some_iff, List.getElem?_eq_some_iff]
  constructor
  · rintro ⟨hi, hb, -⟩
    exact ⟨hi, hb⟩
  · rintro ⟨hi, rfl⟩
    refine ⟨hi, rfl, fun j hj hjb => ?_⟩
    have := (List.Nodup.getElem_inj_iff ha).mp hjb
    omega

theorem blocks_idxOf {b : Block} (hb : b ∈ (build g).blocks) :
    (build g).blocks[(build g).blocks.idxOf b]? = some b := by
  rw [List.getElem?_eq_getElem (List.idxOf_lt_length_of_mem hb), List.getElem_idxOf]

theorem successors_build {n : ℕ} {a : Block} (hn : (build g).blocks[n]? = some a) :
    (build g).successors n = (g.successors a).map (build g).blocks.idxOf := by
  have htable : (build g).table[n]? = some ((g.successors a).map (build g).blocks.idxOf) := by
    change (List.toArray _)[n]? = _
    rw [List.getElem?_toArray, List.getElem?_map]
    change (Option.map _ (build g).blocks[n]?) = _
    rw [hn]
    rfl
  rw [successors, Array.getD_eq_getD_getElem?, htable]
  rfl

/-- An edge of the graph out of a block of the arena is one of the arena. -/
theorem exists_successor (hg : g.Bounded) {n : ℕ} {a b : Block} (hn : (build g).blocks[n]? = some a)
    (hb : b ∈ g.successors a) : ∃ p, (build g).blocks[p]? = some b ∧ p ∈ (build g).successors n := by
  have hclosed := ((discovering_blocks hg).1.expanded a (List.mem_of_getElem? hn)).resolve_left (by simp)
  refine ⟨(build g).blocks.idxOf b, blocks_idxOf (hclosed b hb), ?_⟩
  rw [successors_build hn]
  exact List.mem_map.mpr ⟨b, hb, rfl⟩

/-- An edge of the arena is one of the graph. -/
theorem exists_block_of_successor (hg : g.Bounded) {n p : ℕ} {a : Block} (hn : (build g).blocks[n]? = some a)
    (hp : p ∈ (build g).successors n) : ∃ b, (build g).blocks[p]? = some b ∧ b ∈ g.successors a := by
  have hclosed := ((discovering_blocks hg).1.expanded a (List.mem_of_getElem? hn)).resolve_left (by simp)
  rw [successors_build hn] at hp
  obtain ⟨b, hb, rfl⟩ := List.mem_map.mp hp
  exact ⟨b, blocks_idxOf (hclosed b hb), hb⟩

theorem nodup_successors (hg : g.Bounded) (hs : ∀ b, (g.successors b).Nodup) {n : ℕ} (hn : n < (build g).size) :
    ((build g).successors n).Nodup := by
  obtain ⟨a, ha⟩ : ∃ a, (build g).blocks[n]? = some a := ⟨_, List.getElem?_eq_getElem hn⟩
  have hclosed := ((discovering_blocks hg).1.expanded a (List.mem_of_getElem? ha)).resolve_left (by simp)
  rw [successors_build ha]
  refine (hs a).map_on fun b hb c hc heq => ?_
  have hb' := blocks_idxOf (hclosed b hb)
  rw [heq, blocks_idxOf (hclosed c hc)] at hb'
  exact (Option.some.inj hb').symm

theorem lt_size_of_mem_wideningNodes {n : ℕ} (hn : n ∈ (build g).cuts.wideningNodes) : n < (build g).size := by
  have hsize : (build g).cuts.size = (build g).size := by simp [build, CutPoints.compute, CutPoints.size, size]
  exact hsize ▸ List.mem_range.mp (List.mem_filter.mp hn).1

theorem role_build {n : ℕ} {b : Block} (hn : (build g).blocks[n]? = some b) :
    (build g).cuts.role n = g.role b := by
  have hroles : (build g).cuts.roles[n]? = some (g.role b) := by
    change (List.toArray _)[n]? = _
    rw [List.getElem?_toArray, List.getElem?_map]
    change (Option.map _ (build g).blocks[n]?) = _
    rw [hn]
    rfl
  rw [CutPoints.role, Array.getD_eq_getD_getElem?, hroles]
  rfl

end Arena

theorem FlowGraph.nodup_successors {β ε : Type} (g : FlowGraph β ε) (b : Block) : (g.successors b).Nodup := by
  by_cases hb : b < g.size
  · rw [g.successors_eq hb]
    exact Arena.nodup_eraseDups _
  · have hnone : g.successors b = [] := by
      simp [successors, successorTable, Array.getD_eq_getD_getElem?, size_outgoing, hb]
    rw [hnone]
    exact List.nodup_nil

end PathInvariants
