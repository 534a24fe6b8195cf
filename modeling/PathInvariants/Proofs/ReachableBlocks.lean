import PathInvariants.Context
import PathInvariants.Proofs.ArenaBlocks
import PathInvariants.Proofs.EdgeTables
import PathInvariants.Proofs.SearchOrder

/-!
# Reachable blocks

Discovery from the entry of a graph ends as soon as only finitely many blocks are in reach, and finds
exactly those. An arena is the reachable part of its graph under another naming: numbers and blocks
determine each other, successors keep their order and their repetitions, and predecessors list every
edge once more, at its target.
-/
namespace PathInvariants

open PathInvariants.Flow

/-- The blocks that walks from the entry lead to. -/
def ControlFlow.reach (g : ControlFlow) : Set Block := {b | Reaches g.successors g.entry b}

namespace Arena

variable {succ : Block → List Block} {g : ControlFlow} {i j : ℕ} {b : Block}

/-- Discovery from the pending blocks comes to its end, with the given blocks found. -/
inductive Discovers (succ : Block → List Block) : (pending found blocks : List Block) → Prop
  | done (found : List Block) : Discovers succ [] found found
  | expand {b : Block} {pending found blocks fresh : List Block}
      (hfresh : fresh = ((succ b).filter fun s => !found.contains s).eraseDups)
      (rest : Discovers succ (fresh ++ pending) (found ++ fresh) blocks) : Discovers succ (b :: pending) found blocks

theorem Discovers.unique {pending found blocks blocks' : List Block} (h : Discovers succ pending found blocks)
    (h' : Discovers succ pending found blocks') : blocks = blocks' := by
  induction h with
  | done found =>
    cases h'
    rfl
  | expand hfresh _ ih =>
    cases h' with
    | expand hfresh' rest =>
      subst hfresh hfresh'
      exact ih rest

/-- In a finite set of blocks that no edge leaves, discovery ends before its fuel does. -/
theorem discovers_discover {scope : Set Block} {N : ℕ} (hscope : ∀ b ∈ scope, ∀ s ∈ succ b, s ∈ scope)
    (hN : scope.encard ≤ N) {fuel : ℕ} {pending found : List Block} (h : Discovering succ scope pending found)
    (hfuel : pending.length + (N - found.length) ≤ fuel) :
    Discovers succ pending found (discover succ fuel pending found) := by
  induction fuel generalizing pending found with
  | zero =>
    obtain rfl : pending = [] := List.length_eq_zero_iff.mp (by omega)
    exact .done found
  | succ fuel ih =>
    cases pending with
    | nil => exact .done found
    | cons b pending =>
      have hstep := h.step hscope rfl
      have hle := hstep.length_le hN
      apply Discovers.expand rfl
      apply ih hstep
      simp only [List.length_append, List.length_cons] at hle hfuel ⊢
      omega

theorem reach_closed : ∀ b ∈ g.reach, ∀ s ∈ g.successors b, s ∈ g.reach := fun _ hb _ hs => hb.tail hs

theorem discovering_reach (hg : g.reach.encard ≤ g.size) :
    Discovering g.successors g.reach [] (build g).blocks ∧ [g.entry] <+: (build g).blocks :=
  discovering_build .refl reach_closed hg

theorem nodup_build (hg : g.reach.encard ≤ g.size) : (build g).blocks.Nodup := (discovering_reach hg).1.nodup

/-- Found blocks are closed under edges, so they hold all that is in reach. -/
theorem mem_blocks_iff (hg : g.reach.encard ≤ g.size) : b ∈ (build g).blocks ↔ b ∈ g.reach := by
  obtain ⟨hfound, hentry⟩ := discovering_reach hg
  constructor
  · exact hfound.bounded b
  · intro hb
    induction hb with
    | refl => exact hentry.subset (by simp)
    | tail _ hs ih => exact ((hfound.expanded _ ih).resolve_left (by simp)) _ hs

/-- The successors of a node are the numbers of the successors of its block. -/
theorem map_some_successors (hg : g.reach.encard ≤ g.size) (hi : (build g).blocks[i]? = some b) :
    ((build g).successors i).map some = (g.successors b).map (build g).index? := by
  have hb := (mem_blocks_iff hg).mp (List.mem_of_getElem? hi)
  rw [successors_build hi, List.map_map]
  refine List.map_congr_left fun s hs => ?_
  have hstands := blocks_idxOf ((mem_blocks_iff hg).mpr (reach_closed b hb s hs))
  exact ((index?_eq_some_iff (nodup_build hg)).mpr hstands).symm

theorem lt_of_mem_successors (hg : g.reach.encard ≤ g.size) (hj : j ∈ (build g).successors i) : j < (build g).size := by
  cases hi : (build g).blocks[i]? with
  | none =>
    have hsize : (build g).table.size = (build g).blocks.length := by simp [build]
    have hnil : (build g).successors i = [] := by
      rw [successors, Array.getD_eq_getD_getElem?, Array.getElem?_eq_none (hsize ▸ List.getElem?_eq_none_iff.mp hi)]
      rfl
    rw [hnil] at hj
    cases hj
  | some b =>
    have hb := (mem_blocks_iff hg).mp (List.mem_of_getElem? hi)
    rw [successors_build hi] at hj
    obtain ⟨s, hs, rfl⟩ := List.mem_map.mp hj
    exact List.idxOf_lt_length_of_mem ((mem_blocks_iff hg).mpr (reach_closed b hb s hs))

end Arena

namespace Context

open PathInvariants.Arena

/-- The context is the reachable part of the graph: discovery ends with its blocks, which are those in reach of the
entry, each once and the entry first, and its numbered edges are the edges between them. -/
structure Represents (c : Context) (g : ControlFlow) : Prop where
  ends : ∀ blocks, Discovers g.successors [g.entry] [g.entry] blocks ↔ c.arena.blocks = blocks
  once : ∀ b ∈ g.reach, c.arena.blocks.count b = 1
  only : ∀ b ∈ c.arena.blocks, b ∈ g.reach
  entry : c.block 0 = .ok g.entry
  index : ∀ i b, c.arena.index? b = some i ↔ c.block i = .ok b
  successors : ∀ i b, c.block i = .ok b → (c.arena.successors i).map some = (g.successors b).map c.arena.index?
  predecessors : ∀ i j, (c.arena.predecessors j).count i = (c.arena.successors i).count j
  ascending : ∀ j, (c.arena.predecessors j).Pairwise (· ≤ ·)

variable {g : ControlFlow} {i : ℕ} {b : Block}

theorem block_build : (build g).block i = .ok b ↔ (Arena.build g).blocks[i]? = some b := by
  have hnode : (build g).nodes[i]? = ((Arena.build g).blocks[i]?).map Node.new := List.getElem?_map
  rw [block, node, hnode]
  cases (Arena.build g).blocks[i]? with
  | none =>
    change Except.error _ = Except.ok b ↔ _
    simp only [reduceCtorEq]
  | some a =>
    change Except.ok a = Except.ok b ↔ _
    rw [Except.ok.injEq, Option.some.injEq]

/-- The context of every graph with finitely many blocks in reach represents it, for any bound on their number. -/
theorem represents_build (hfinite : g.reach.Finite) (hsize : g.reach.ncard ≤ g.size) : (build g).Represents g := by
  have hg : g.reach.encard ≤ g.size := by
    rw [← hfinite.cast_ncard_eq]
    exact_mod_cast hsize
  have hnodup := nodup_build hg
  have hends : Discovers g.successors [g.entry] [g.entry] (Arena.build g).blocks :=
    discovers_discover reach_closed hg (discovering_start .refl) (by simp only [List.length_singleton]; omega)
  have htable : (Arena.build g).table.size = (Arena.build g).size := by simp [Arena.build, Arena.size]
  have hrange : ∀ i, ∀ j ∈ (Arena.build g).table.getD i [], j < (Arena.build g).table.size := fun i j hj =>
    htable ▸ lt_of_mem_successors hg hj
  exact {
    ends := fun blocks => ⟨hends.unique, fun h => h ▸ hends⟩
    once := fun b hb => List.count_eq_one_of_mem hnodup ((mem_blocks_iff hg).mpr hb)
    only := fun b hb => (mem_blocks_iff hg).mp hb
    entry := by
      obtain ⟨rest, hrest⟩ := (discovering_reach hg).2
      rw [block_build, ← hrest]
      rfl
    index := fun i b => (index?_eq_some_iff hnodup).trans block_build.symm
    successors := fun i b hb => map_some_successors hg (block_build.mp hb)
    predecessors := fun i j => count_transpose hrange
    ascending := fun j => pairwise_transpose _ j }

/-- A loop with a doubled edge and a way out, and a block out of reach. -/
def doubledLoop : ControlFlow := .ofTable 1 [[], [2, 0, 2], [1], [2]] [] []

theorem reach_doubledLoop : doubledLoop.reach ⊆ {b | b < doubledLoop.size} := by
  intro b hb
  induction hb with
  | refl => decide
  | @tail a s _ hs ih =>
    have hclosed : ∀ b < doubledLoop.size, ∀ s ∈ doubledLoop.successors b, s < doubledLoop.size := by decide
    exact hclosed a ih s hs

/-- The doubled edge is listed twice on both sides, and the block out of reach has no number. -/
theorem represents_build_doubledLoop : doubledLoop.reach.Finite ∧ doubledLoop.reach.ncard ≤ doubledLoop.size ∧
    (build doubledLoop).Represents doubledLoop ∧ (build doubledLoop).arena.blocks = [1, 2, 0] ∧
    (build doubledLoop).arena.successors 0 = [1, 2, 1] ∧ (build doubledLoop).arena.predecessors 1 = [0, 0] ∧
    (build doubledLoop).arena.index? 3 = none := by
  have hfinite : doubledLoop.reach.Finite := (Set.finite_Iio _).subset reach_doubledLoop
  have hsize : doubledLoop.reach.ncard ≤ doubledLoop.size := by
    rw [← Nat.cast_le (α := ℕ∞), hfinite.cast_ncard_eq, ← encard_below doubledLoop.size]
    exact Set.encard_le_encard reach_doubledLoop
  exact ⟨hfinite, hsize, represents_build hfinite hsize, by decide, by decide, by decide, by decide⟩

end Context

end PathInvariants
