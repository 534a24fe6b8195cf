import PathInvariants.Flow.Cache
import PathInvariants.Proofs.Dominators
import PathInvariants.Proofs.PathListing

/-!
# Loop headers

The loop headers of a flow graph are the targets of the edges that lead from a reachable block to one
of its dominators. They are marked by one pass over the edges, with any computation of dominators that is
correct. However queries and changes follow each other, a graph that caches its loop headers answers for
its present edges. A search of its arena finds every loop header as the target of a back edge, so the
widening points are the targets of back edges and nothing else.
-/
namespace PathInvariants

open PathInvariants.Flow

namespace FlowGraph

variable {β ε : Type} {g g' : FlowGraph β ε} {a b n : Block} {dominators : Dominators}

/-- Some edge leads from `a` to `b`. -/
def HasEdge (g : FlowGraph β ε) (a b : Block) : Prop := ∃ payload, (a, b, payload) ∈ g.edges

/-- An edge leads to the block from a reachable block that it dominates. -/
def IsHeader (g : FlowGraph β ε) (n : Block) : Prop :=
  ∃ m, g.HasEdge m n ∧ Relation.ReflTransGen g.HasEdge g.entry m ∧ Dominates g.HasEdge g.entry n m

theorem size_addBlock (g : FlowGraph β ε) (payload : β) : (g.addBlock payload).size = g.size + 1 := List.length_append

theorem WellFormed.mem_successors_iff (hg : g.WellFormed) : b ∈ g.successors a ↔ g.HasEdge a b := by
  by_cases ha : a < g.size
  · exact g.mem_successors ha
  · refine iff_of_false ?_ ?_
    · simp [successors, successorTable, Array.getD_eq_getD_getElem?, size_outgoing, ha]
    · rintro ⟨e, he⟩
      exact ha (hg.edges _ he).1

/-- The successor lists hold the edges. -/
theorem WellFormed.successors_rel (hg : g.WellFormed) : (fun a b => b ∈ g.successors a) = g.HasEdge := by
  funext a b
  exact propext hg.mem_successors_iff

theorem WellFormed.successors_lt (hg : g.WellFormed) : ∀ n < g.size, ∀ t ∈ g.successors n, t < g.size := by
  intro n _ t ht
  obtain ⟨e, he⟩ := hg.mem_successors_iff.mp ht
  exact (hg.edges _ he).2

/-- One edge marks its target if that is listed for its source, and changes no other mark. -/
theorem getD_markHeader (table : Array (Option (List Block))) {headers : Array Bool} (e : Block × Block × ε)
    (hn : n < headers.size) : (markHeader table headers e).getD n false = true ↔
      headers.getD n false = true ∨ e.2.1 = n ∧ ∃ nodes, table.getD e.1 none = some nodes ∧ n ∈ nodes := by
  unfold markHeader
  split
  · rename_i nodes hnodes
    by_cases hmem : e.2.1 ∈ nodes
    · rw [if_pos (by simpa using hmem)]
      by_cases hen : e.2.1 = n
      · subst hen
        simp [hnodes, hmem, hn]
      · simp [Array.getD_eq_getD_getElem?, hen]
    · rw [if_neg (by simpa using hmem), hnodes, iff_self_or]
      rintro ⟨rfl, nodes', hnodes', hmem'⟩
      exact absurd (Option.some.inj hnodes' ▸ hmem') hmem
  · rename_i hnone
    simp [hnone]

theorem size_markHeader (table : Array (Option (List Block))) (headers : Array Bool) (e : Block × Block × ε) :
    (markHeader table headers e).size = headers.size := by
  unfold markHeader
  split
  · split
    · exact Array.size_setIfInBounds
    · rfl
  · rfl

/-- The pass over the edges marks the targets that are listed for one of their sources. -/
theorem getD_foldl_markHeader (table : Array (Option (List Block))) (edges : List (Block × Block × ε))
    {headers : Array Bool} (hn : n < headers.size) : (edges.foldl (markHeader table) headers).getD n false = true ↔
      headers.getD n false = true ∨
        ∃ e ∈ edges, e.2.1 = n ∧ ∃ nodes, table.getD e.1 none = some nodes ∧ n ∈ nodes := by
  induction edges generalizing headers with
  | nil => simp
  | cons e edges ih =>
    rw [List.foldl_cons, ih ((size_markHeader table headers e).symm ▸ hn), getD_markHeader table e hn, or_assoc]
    simp only [List.mem_cons, exists_eq_or_imp]

theorem size_loopHeaders (g : FlowGraph β ε) (dominators : Dominators) : (g.loopHeaders dominators).size = g.size := by
  have hfold : ∀ (table : Array (Option (List Block))) (edges : List (Block × Block × ε)) (headers : Array Bool),
      (edges.foldl (markHeader table) headers).size = headers.size := by
    intro table edges
    induction edges with
    | nil => exact fun _ => rfl
    | cons e edges ih => exact fun headers => (ih _).trans (size_markHeader table headers e)
  rw [loopHeaders, hfold, Array.size_replicate]

/-- Loop headers are found by dominance. -/
theorem WellFormed.loopHeaders_iff (hdom : dominators.Correct) (hg : g.WellFormed) :
    (g.loopHeaders dominators).getD n false = true ↔ g.IsHeader n := by
  by_cases hn : n < g.size
  · have hmarks : (Array.replicate g.size false).getD n false = false := by simp [Array.getD_eq_getD_getElem?, hn]
    rw [loopHeaders, getD_foldl_markHeader _ _ (by simpa using hn), hmarks]
    simp only [Bool.false_eq_true, false_or]
    constructor
    · rintro ⟨⟨m, _, payload⟩, he, rfl, nodes, hnodes, hmem⟩
      have hm := (hg.edges _ he).1
      have hreach := (hdom.reached hg.successors_lt hg.entry hm).mp (Option.isSome_of_mem hnodes)
      have hdominates := (hdom.listed hg.successors_lt hg.entry hm hnodes).mp hmem
      rw [Reaches, hg.successors_rel] at hreach
      rw [hg.successors_rel] at hdominates
      exact ⟨m, ⟨payload, he⟩, hreach, hdominates⟩
    · rintro ⟨m, ⟨payload, he⟩, hreach, hdominates⟩
      have hm := (hg.edges _ he).1
      rw [← hg.successors_rel] at hreach hdominates
      obtain ⟨nodes, hnodes⟩ := Option.isSome_iff_exists.mp ((hdom.reached hg.successors_lt hg.entry hm).mpr hreach)
      exact ⟨_, he, rfl, nodes, hnodes, (hdom.listed hg.successors_lt hg.entry hm hnodes).mpr hdominates⟩
  · refine iff_of_false ?_ ?_
    · have hsize := size_loopHeaders g dominators
      simp [Array.getD_eq_getD_getElem?, Array.getElem?_eq_none (hsize.trans_le (Nat.le_of_not_lt hn))]
    · rintro ⟨m, ⟨payload, he⟩, -⟩
      exact hn (hg.edges _ he).2

/-- Loop headers are a matter of the blocks and edges alone. -/
theorem loopHeaders_congr (hsize : g.size = g'.size) (hedges : g.edges = g'.edges) :
    g.loopHeaders dominators = g'.loopHeaders dominators := by
  have htable : g.successorTable = g'.successorTable := by simp only [successorTable, outgoing, hsize, hedges]
  simp only [loopHeaders, htable, hsize, hedges, entry]

end FlowGraph

namespace Arena

variable {f : ControlFlow} {i j : ℕ} {a n : Block} {walk : List ℕ}

theorem exists_reaches (hf : f.Bounded) (ha : Reaches f.successors f.entry a) :
    ∃ j, (build f).blocks[j]? = some a ∧ Reaches (build f).successors 0 j := by
  induction ha with
  | refl => exact ⟨0, blocks_zero hf, .refl⟩
  | tail _ hedge ih =>
    obtain ⟨j, hj, hreach⟩ := ih
    obtain ⟨k, hk, hnext⟩ := exists_successor hf hj hedge
    exact ⟨k, hk, hreach.tail hnext⟩

/-- The blocks of a walk through the arena are a walk through the graph. -/
theorem exists_block_walk (hf : f.Bounded) (h : IsWalk (fun x y => y ∈ (build f).successors x) 0 j walk) :
    ∃ b blocks, (build f).blocks[j]? = some b ∧ IsWalk (fun x y => y ∈ f.successors x) f.entry b blocks ∧
      ∀ c ∈ blocks, ∃ k ∈ walk, (build f).blocks[k]? = some c := by
  induction h with
  | start => exact ⟨f.entry, [f.entry], blocks_zero hf, .start, by simpa using blocks_zero hf⟩
  | @step j k walk _ hnext ih =>
    obtain ⟨a, blocks, hj, hwalk, hmem⟩ := ih
    obtain ⟨b, hk, hedge⟩ := exists_block_of_successor hf hj hnext
    refine ⟨b, _, hk, hwalk.step hedge, fun c hc => ?_⟩
    rcases List.mem_append.mp hc with hc | hc
    · obtain ⟨i, hi, hblock⟩ := hmem c hc
      exact ⟨i, List.mem_append_left _ hi, hblock⟩
    · rw [List.mem_singleton.mp hc]
      exact ⟨k, by simp, hk⟩

/-- Nodes dominate each other as their blocks do. -/
theorem dominates_node (hf : f.Bounded) (hj : (build f).blocks[j]? = some a) (hi : (build f).blocks[i]? = some n)
    (hdom : Dominates (fun x y => y ∈ f.successors x) f.entry n a) :
    Dominates (fun x y => y ∈ (build f).successors x) 0 i j := by
  intro walk hwalk
  obtain ⟨b, blocks, hb, hblocks, hmem⟩ := exists_block_walk hf hwalk
  obtain rfl : b = a := Option.some.inj (hb.symm.trans hj)
  obtain ⟨k, hk, hn⟩ := hmem n (hdom blocks hblocks)
  rwa [node_unique hf hn hi] at hk

/-- An edge of the graph to a dominator is a back edge of the arena. -/
theorem exists_back_of_dominates (hf : f.Bounded) (ha : Reaches f.successors f.entry a) (hn : n ∈ f.successors a)
    (hdom : Dominates (fun x y => y ∈ f.successors x) f.entry n a) :
    ∃ i, (build f).blocks[i]? = some n ∧ i ∈ (build f).search.backTargets := by
  obtain ⟨j, hj, hreach⟩ := exists_reaches hf ha
  obtain ⟨i, hi, hedge⟩ := exists_successor hf hj hn
  have hzero : 0 < (build f).size := (List.getElem?_eq_some_iff.mp (blocks_zero hf)).1
  exact ⟨i, hi, Search.mem_backTargets_of_dominates (fun k hk t => successors_lt hf hk) hzero hreach hedge
    (dominates_node hf hj hi hdom)⟩

/-- A widening point is a loop header or the target of a back edge. -/
theorem isWidening_iff (hf : f.Bounded) : (build f).cuts.isWidening i = true ↔
    (∃ n, (build f).blocks[i]? = some n ∧ f.isLoopHeader n = true) ∨ i ∈ (build f).search.backTargets := by
  by_cases hi : i < (build f).size
  · have hcompute : (build f).cuts.isWidening i = (((build f).blocks.map f.isLoopHeader).toArray.getD i false ||
        (Search.run (row (edges f)) (edges f).length [0]).backTargets.contains i) :=
      CutPoints.isWidening_compute ((length_edges f).symm ▸ hi)
    obtain ⟨n, hblock⟩ : ∃ n, (build f).blocks[i]? = some n := ⟨_, List.getElem?_eq_getElem hi⟩
    have hheader : ((build f).blocks.map f.isLoopHeader).toArray.getD i false = f.isLoopHeader n := by
      simp [Array.getD_eq_getD_getElem?, hblock]
    rw [length_edges] at hcompute
    rw [hcompute, Bool.or_eq_true, hheader, List.contains_iff_mem, hblock]
    simp only [Option.some.injEq, exists_eq_left']
    rfl
  · refine iff_of_false (fun h => hi ?_) ?_
    · exact length_edges f ▸ CutPoints.lt_of_isWidening h
    · rintro (⟨n, hn, -⟩ | hback)
      · exact hi (List.getElem?_eq_some_iff.mp hn).1
      · have hzero : ∀ r ∈ [0], r < (build f).size := by
          intro r hr
          rw [List.mem_singleton.mp hr]
          exact (List.getElem?_eq_some_iff.mp (blocks_zero hf)).1
        exact hi (Search.lt_of_mem_backTargets (fun k hk t => successors_lt hf hk) hzero hback)

end Arena

namespace CachedGraph

variable {β ε : Type} {c : CachedGraph β ε} {dominators : Dominators}

/-- The graphs that changes and queries lead to. Edges join blocks that have been added. -/
inductive Built (dominators : Dominators) : CachedGraph β ε → Prop
  | new (entry : β) : Built dominators (new entry)
  | addBlock {c : CachedGraph β ε} (hc : Built dominators c) (payload : β) : Built dominators (c.addBlock payload)
  | addEdge {c : CachedGraph β ε} {a b : Block} (hc : Built dominators c) (ha : a < c.graph.size)
      (hb : b < c.graph.size) (payload : ε) : Built dominators (c.addEdge a b payload)
  | setRole {c : CachedGraph β ε} (hc : Built dominators c) (b : Block) (role : BlockRole) :
      Built dominators (c.setRole b role)
  | setPayload {c : CachedGraph β ε} (hc : Built dominators c) (b : Block) (payload : β) :
      Built dominators (c.setPayload b payload)
  | isLoopHeader {c : CachedGraph β ε} (hc : Built dominators c) (b : Block) :
      Built dominators (c.isLoopHeader b dominators).2

/-- Edges join existing blocks, and what is cached is true of the present graph. -/
structure Valid (dominators : Dominators) (c : CachedGraph β ε) : Prop where
  graph : c.graph.WellFormed
  cache : c.loopHeaders dominators = c.graph.loopHeaders dominators

theorem Valid.of_graph {graph : FlowGraph β ε} (h : graph.WellFormed) : Valid dominators ⟨graph, none⟩ := ⟨h, rfl⟩

/-- A change that keeps blocks and edges may keep the cache. -/
theorem Valid.congr (hc : c.Valid dominators) {graph : FlowGraph β ε} (hsize : graph.size = c.graph.size)
    (hedges : graph.edges = c.graph.edges) : Valid dominators { c with graph } := by
  have hheaders : graph.loopHeaders dominators = c.graph.loopHeaders dominators :=
    FlowGraph.loopHeaders_congr hsize hedges
  refine ⟨⟨hsize ▸ hc.graph.entry, by rw [hedges, hsize]; exact hc.graph.edges⟩, ?_⟩
  have hcache := hc.cache
  simp only [loopHeaders, hheaders] at hcache ⊢
  exact hcache

theorem Built.valid (h : c.Built dominators) : c.Valid dominators := by
  induction h with
  | new entry => exact .of_graph ⟨Nat.one_pos, fun e he => absurd he List.not_mem_nil⟩
  | addBlock _ payload ih =>
    refine .of_graph ⟨?_, fun e he => ?_⟩
    · rw [FlowGraph.size_addBlock]
      exact Nat.succ_pos _
    · obtain ⟨ha, hb⟩ := ih.graph.edges e he
      rw [FlowGraph.size_addBlock]
      exact ⟨Nat.lt_succ_of_lt ha, Nat.lt_succ_of_lt hb⟩
  | addEdge _ ha hb payload ih =>
    refine .of_graph ⟨ih.graph.entry, fun e he => ?_⟩
    rcases List.mem_append.mp he with he | he
    · exact ih.graph.edges e he
    · rw [List.mem_singleton.mp he]
      exact ⟨ha, hb⟩
  | setRole _ b role ih => exact ih.congr rfl rfl
  | setPayload _ b payload ih => exact ih.congr (by simp [FlowGraph.setPayload, FlowGraph.size]) rfl
  | isLoopHeader _ b ih => exact ⟨ih.graph, ih.cache⟩

theorem Valid.control_bounded (hc : c.Valid dominators) : (c.control dominators).Bounded :=
  ⟨hc.graph.bounded.entry, hc.graph.bounded.successors⟩

/-- Loop headers are back-edge targets of the arena. -/
theorem Valid.exists_back (hc : c.Valid dominators) {n : Block} (hn : c.graph.IsHeader n) :
    ∃ i, (Arena.build (c.control dominators)).blocks[i]? = some n ∧
      i ∈ (Arena.build (c.control dominators)).search.backTargets := by
  obtain ⟨m, hedge, hreach, hdom⟩ := hn
  rw [← hc.graph.successors_rel] at hreach hdom
  exact Arena.exists_back_of_dominates hc.control_bounded hreach (hc.graph.mem_successors_iff.mpr hedge) hdom

/-- If the computation of dominators is correct, then after any changes and queries a graph answers by dominance along
its present edges, and the widening points of its arena are the targets of back edges, every loop header being one of
them. -/
theorem headers_exact (hdom : dominators.Correct) (hc : c.Built dominators) :
    (∀ n, (c.isLoopHeader n dominators).1 = true ↔ c.graph.IsHeader n) ∧
    (∀ n, c.graph.IsHeader n → ∃ i, (Arena.build (c.control dominators)).index? n = some i ∧
      i ∈ (Arena.build (c.control dominators)).search.backTargets) ∧
    ∀ i, (Arena.build (c.control dominators)).cuts.isWidening i = true ↔
      i ∈ (Arena.build (c.control dominators)).search.backTargets := by
  have hvalid := hc.valid
  have hbounded := hvalid.control_bounded
  have hheader : ∀ n, (c.isLoopHeader n dominators).1 = true ↔ c.graph.IsHeader n := by
    intro n
    rw [← hvalid.graph.loopHeaders_iff hdom, ← hvalid.cache]
    rfl
  refine ⟨hheader, fun n hn => ?_, fun i => ?_⟩
  · obtain ⟨i, hi, hback⟩ := hvalid.exists_back hn
    exact ⟨i, Arena.index?_eq hbounded hi, hback⟩
  · rw [Arena.isWidening_iff hbounded, or_iff_right_iff_imp]
    rintro ⟨n, hn, hloop⟩
    obtain ⟨k, hk, hback⟩ := hvalid.exists_back ((hheader n).mp hloop)
    rwa [Arena.node_unique hbounded hn hk]

/-- A loop of two blocks behind the entry. -/
def simpleLoop : CachedGraph Unit Unit :=
  (((((new ()).addBlock ()).addBlock ()).addEdge 0 1 ()).addEdge 1 2 ()).addEdge 2 1 ()

/-- The loop after a query about the entry, with a second way back that leads there. -/
def nestedLoop : CachedGraph Unit Unit := ((simpleLoop.isLoopHeader 0).2.setRole 2 .assertionFailure).addEdge 2 0 ()

/-- The entry becomes a loop header, although the answer for it has been no before. -/
theorem headers_exact_nestedLoop : nestedLoop.Built dominatorsByRemoval ∧ (simpleLoop.isLoopHeader 0).1 = false ∧
    (simpleLoop.isLoopHeader 0).2.cache.isSome = true ∧ nestedLoop.graph.IsHeader 0 ∧ nestedLoop.graph.IsHeader 1 ∧
    ¬ nestedLoop.graph.IsHeader 2 ∧ (Arena.build nestedLoop.control).cuts.isWidening 0 = true ∧
    0 ∈ (Arena.build nestedLoop.control).search.backTargets := by
  have hloop : simpleLoop.Built dominatorsByRemoval := by
    refine .addEdge (.addEdge (.addEdge (.addBlock (.addBlock (.new ()) ()) ()) ?_ ?_ ()) ?_ ?_ ()) ?_ ?_ () <;> decide
  have hnested : nestedLoop.Built dominatorsByRemoval :=
    .addEdge (.setRole (.isLoopHeader hloop 0) 2 _) (by decide) (by decide) ()
  obtain ⟨hheader, -, hwidening⟩ := headers_exact correct_dominatorsByRemoval hnested
  have hentry : (Arena.build nestedLoop.control).cuts.isWidening 0 = true := by decide +kernel
  refine ⟨hnested, by decide +kernel, rfl, (hheader 0).mp (by decide +kernel), (hheader 1).mp (by decide +kernel), ?_,
    hentry, (hwidening 0).mp hentry⟩
  rw [← hheader 2]
  decide +kernel

end CachedGraph

end PathInvariants
