import PathInvariants.Context
import PathInvariants.Oracle.Search
import PathInvariants.Proofs.ArenaBlocks
import PathInvariants.Proofs.CutCycles

/-!
# Listed paths

The searching oracle lists the segments that start at a block: walks to a cut point with no cut point
and no block twice on the way. In the arena of a graph no segment meets a block twice, so all of them
are listed, each once, and where two of them part the one with the earlier successor stands first.
-/
namespace PathInvariants

open PathInvariants.Flow

section Listing

variable {g : ControlFlow} {isCut : Block → Bool} {fuel : ℕ} {walked : List Block} {a : Block} {q : Path}

/-- The listed paths are the segments with no block twice, as far as the fuel goes. -/
theorem mem_pathsFrom : q ∈ pathsFrom g isCut fuel walked a ↔ ∃ inner b, q.blocks = walked ++ a :: inner ++ [b] ∧
    Segment g.successors isCut a inner b ∧ isCut b = true ∧ inner.Nodup ∧ (∀ c ∈ inner, c ∉ walked ++ [a]) ∧
    inner.length < fuel := by
  induction fuel generalizing walked a with
  | zero => simp [pathsFrom]
  | succ fuel ih =>
    rw [pathsFrom, List.mem_flatMap]
    constructor
    · rintro ⟨next, hnext, hq⟩
      split at hq
      · rename_i hcut
        exact ⟨[], next, by simp [List.mem_singleton.mp hq], ⟨.cons_cons hnext (.singleton _), by simp⟩, hcut, by simp⟩
      · rename_i hcut
        split at hq
        · cases hq
        · rename_i hfresh
          obtain ⟨inner, b, hblocks, hsegment, hb, hnodup, hnew, hlength⟩ := ih.mp hq
          have hnotin : next ∉ inner := fun hmem => hnew next hmem (by simp)
          refine ⟨next :: inner, b, by simp [hblocks], hsegment.cons (by simpa using hcut) hnext, hb,
            List.nodup_cons.mpr ⟨hnotin, hnodup⟩, List.forall_mem_cons.mpr ⟨by simpa using hfresh, fun c hc hw => ?_⟩,
            Nat.succ_lt_succ hlength⟩
          exact hnew c hc (List.mem_append_left _ hw)
    · rintro ⟨inner, b, hblocks, hsegment, hb, hnodup, hnew, hlength⟩
      cases inner with
      | nil =>
        refine ⟨b, (List.isChain_cons_cons.mp hsegment.walk).1, ?_⟩
        obtain ⟨blocks⟩ := q
        obtain rfl : blocks = walked ++ [a, b] := by simpa using hblocks
        simp [hb]
      | cons next inner =>
        obtain ⟨hnext, hwalk⟩ := List.isChain_cons_cons.mp hsegment.walk
        obtain ⟨hcut, hplain⟩ := List.forall_mem_cons.mp hsegment.plain
        obtain ⟨hfresh, hnew⟩ := List.forall_mem_cons.mp hnew
        obtain ⟨hnotin, hnodup⟩ := List.nodup_cons.mp hnodup
        refine ⟨next, hnext, ?_⟩
        rw [if_neg (by simp [hcut]), if_neg (by simpa using hfresh)]
        refine ih.mpr ⟨inner, b, by simp [hblocks], ⟨hwalk, hplain⟩, hb, hnodup, fun c hc hw => ?_,
          Nat.lt_of_succ_lt_succ hlength⟩
        rcases List.mem_append.mp hw with hw | hw
        · exact hnew c hc hw
        · exact hnotin (List.mem_singleton.mp hw ▸ hc)

theorem length_of_mem_pathsFrom (h : q ∈ pathsFrom g isCut fuel walked a) : 1 < q.length := by
  obtain ⟨inner, b, hblocks, -⟩ := mem_pathsFrom.mp h
  simp only [Path.length, hblocks, List.length_append, List.length_cons, List.length_nil]
  omega

/-- A listed path starts where it was asked for and ends at a cut point, and no block between is one. -/
theorem exists_of_mem_pathsFrom (h : q ∈ pathsFrom g isCut fuel walked a) :
    ∃ rest b, q.blocks = walked ++ a :: rest ∧ (∀ c ∈ rest.dropLast, isCut c = false) ∧ rest.getLast? = some b ∧
      isCut b = true := by
  obtain ⟨inner, b, hblocks, hsegment, hb, -⟩ := mem_pathsFrom.mp h
  exact ⟨inner ++ [b], b, by simp [hblocks], by simpa using hsegment.plain, by simp, hb⟩

/-- A path from the start of a search follows edges. -/
theorem isChain_of_mem_pathsFrom (h : q ∈ pathsFrom g isCut fuel [] a) :
    q.blocks.IsChain fun x y => y ∈ g.successors x := by
  obtain ⟨inner, b, hblocks, hsegment, -⟩ := mem_pathsFrom.mp h
  rw [hblocks]
  exact hsegment.walk

/-- Fuel beyond the number of blocks not yet walked makes no difference. -/
theorem pathsFrom_succ (hg : g.Bounded) (hnodup : (walked ++ [a]).Nodup) (hlt : ∀ c ∈ walked ++ [a], c < g.size)
    (hfuel : g.size < fuel + walked.length) :
    pathsFrom g isCut (fuel + 1) walked a = pathsFrom g isCut fuel walked a := by
  induction fuel generalizing walked a with
  | zero =>
    have hsub : walked ++ [a] ⊆ List.range g.size := fun c hc => List.mem_range.mpr (hlt c hc)
    have hle := (List.subperm_of_subset hnodup hsub).length_le
    simp only [List.length_append, List.length_singleton, List.length_range] at hle
    omega
  | succ fuel ih =>
    rw [pathsFrom]
    conv_rhs => rw [pathsFrom]
    refine List.flatMap_congr fun next hnext => ?_
    split
    · rfl
    · split
      · rfl
      · rename_i hfresh
        refine ih (List.nodup_append'.mpr ⟨hnodup, List.nodup_singleton _, by simpa using hfresh⟩) (fun c hc => ?_)
          (by simp only [List.length_append, List.length_singleton]; omega)
        rcases List.mem_append.mp hc with hc | hc
        · exact hlt c hc
        · rw [List.mem_singleton.mp hc]
          exact hg.successors a (hlt a (by simp)) next hnext

theorem pathsFrom_eq (hg : g.Bounded) (ha : a < g.size) (hfuel : g.size < fuel) :
    pathsFrom g isCut fuel [] a = pathsFrom g isCut (g.size + 1) [] a := by
  induction fuel, hfuel using Nat.le_induction with
  | base => rfl
  | succ fuel hfuel ih =>
    rw [← ih]
    exact pathsFrom_succ hg (by simp) (by simpa using ha) (by simpa using hfuel)

/-- Where two paths part, the first takes an earlier successor. -/
def Path.Earlier (g : ControlFlow) (q q' : Path) : Prop :=
  ∃ common last next next' rest rest', q.blocks = common ++ last :: next :: rest ∧
    q'.blocks = common ++ last :: next' :: rest' ∧ (g.successors last).idxOf next < (g.successors last).idxOf next'

theorem Path.Earlier.ne {q' : Path} (h : Path.Earlier g q q') : q ≠ q' := by
  rintro rfl
  obtain ⟨common, last, next, next', rest, rest', hq, hq', hlt⟩ := h
  have hnext := List.append_cancel_left (hq.symm.trans hq')
  simp only [List.cons.injEq, true_and] at hnext
  rw [hnext.1] at hlt
  exact Nat.lt_irrefl _ hlt

theorem pairwise_idxOf {l : List ℕ} (h : l.Nodup) : l.Pairwise fun x y => l.idxOf x < l.idxOf y := by
  refine List.pairwise_iff_getElem.mpr fun i j hi hj hij => ?_
  rwa [h.idxOf_getElem i hi, h.idxOf_getElem j hj]

/-- The search lists paths in depth-first order. -/
theorem pairwise_pathsFrom (hs : ∀ b, (g.successors b).Nodup) :
    (pathsFrom g isCut fuel walked a).Pairwise (Path.Earlier g) := by
  induction fuel generalizing walked a with
  | zero => exact .nil
  | succ fuel ih =>
    rw [pathsFrom]
    refine List.pairwise_flatMap.mpr ⟨fun next _ => ?_, (pairwise_idxOf (hs a)).imp fun {next next'} hlt q hq q' hq' => ?_⟩
    · split
      · exact List.pairwise_singleton _ _
      · split
        · exact .nil
        · exact ih
    · -- Both extend the blocks walked so far, each by its own successor.
      have hextends : ∀ {d : Block} {r : Path}, (r ∈ if isCut d = true then [(⟨walked ++ [a, d]⟩ : Path)]
          else if (walked ++ [a]).contains d = true then [] else pathsFrom g isCut fuel (walked ++ [a]) d) →
          ∃ rest, r.blocks = walked ++ a :: d :: rest := by
        intro d r hr
        split at hr
        · exact ⟨[], by rw [List.mem_singleton.mp hr]⟩
        · split at hr
          · cases hr
          · obtain ⟨inner, b, hblocks, -⟩ := mem_pathsFrom.mp hr
            exact ⟨inner ++ [b], by simp [hblocks]⟩
      obtain ⟨rest, hrest⟩ := hextends hq
      obtain ⟨rest', hrest'⟩ := hextends hq'
      exact ⟨walked, a, next, next', rest, rest', hrest, hrest', hlt⟩

end Listing

namespace Arena

variable {g : ControlFlow}

theorem successors_lt (hg : g.Bounded) {n t : ℕ} (hn : n < (build g).size) (ht : t ∈ (build g).successors n) :
    t < (build g).size := by
  obtain ⟨b, hb, -⟩ := exists_block_of_successor hg (List.getElem?_eq_getElem hn) ht
  exact (List.getElem?_eq_some_iff.mp hb).1

/-- The successor table from which the cut points of an arena are computed. -/
def edges (g : ControlFlow) : List (List ℕ) := (build g).blocks.map fun b => (g.successors b).map (build g).blocks.idxOf

theorem length_edges (g : ControlFlow) : (edges g).length = (build g).size := List.length_map _

theorem inRange_edges (hg : g.Bounded) : InRange (edges g) := by
  intro targets htargets t ht
  rw [length_edges]
  obtain ⟨n, hn⟩ := List.getElem?_of_mem htargets
  have hlt : n < (build g).size := length_edges g ▸ (List.getElem?_eq_some_iff.mp hn).1
  have hrow : (build g).successors n = targets := by
    change row (edges g) n = targets
    simp [row, Array.getD_eq_getD_getElem?, hn]
  exact successors_lt hg hlt (hrow ▸ ht)

/-- The search from the entry that finds the targets of back edges. -/
def search (a : Arena) : Flow.Search := Flow.Search.run a.successors a.size [0]

theorem isCut_eq {n : ℕ} (hn : n < (build g).size) : (build g).cuts.isCut n =
    ((build g).cuts.isWidening n || n == 0 || (build g).cuts.role n != .plain) :=
  CutPoints.isCut_compute ((length_edges g).symm ▸ hn)

theorem isWidening_of_back {n : ℕ} (hn : n < (build g).size) (h : n ∈ (build g).search.backTargets) :
    (build g).cuts.isWidening n = true := by
  have hcompute : (build g).cuts.isWidening n =
      (_ || (Search.run (row (edges g)) (edges g).length [0]).backTargets.contains n) :=
    CutPoints.isWidening_compute ((length_edges g).symm ▸ hn)
  rw [length_edges] at hcompute
  rw [hcompute, Bool.or_eq_true]
  exact .inr (List.contains_iff_mem.mpr h)

theorem isWidening_of_not_isCut {n : ℕ} (hn : n < (build g).size) (h : (build g).cuts.isCut n = false) :
    (build g).cuts.isWidening n = false := by
  rw [isCut_eq hn, Bool.or_eq_false_iff, Bool.or_eq_false_iff] at h
  exact h.1.1

theorem isCut_zero (hg : g.Bounded) : (build g).cuts.isCut 0 = true := by
  have hlt : 0 < (build g).size := (List.getElem?_eq_some_iff.mp (blocks_zero hg)).1
  rw [isCut_eq hlt]
  simp

theorem isCut_of_isErrorSite {n : ℕ} (hn : n < (build g).size) (h : (build g).cuts.isErrorSite n = true) :
    (build g).cuts.isCut n = true := by
  have hrole : (build g).cuts.role n ≠ .plain := by
    intro hplain
    rw [CutPoints.isErrorSite, hplain] at h
    cases h
  rw [isCut_eq hn]
  simp [hrole]

/-- The successors of a cut point are the cut points at the ends of its segments. -/
theorem mem_successors_cuts (hg : g.Bounded) {n m : ℕ} (hn : (build g).cuts.isCut n = true) :
    m ∈ (build g).cuts.successors n ↔ (build g).cuts.isCut m = true ∧
      ∃ inner, Segment (build g).successors (build g).cuts.isCut n inner m :=
  CutPoints.mem_successors_compute (inRange_edges hg) hn

/-- What holds of the entry and is kept along edges holds of all blocks found. -/
theorem discover_induct {succ : Block → List Block} {P : Block → Prop} (hP : ∀ b, P b → ∀ s ∈ succ b, P s) {fuel : ℕ}
    {pending found : List Block} (hpending : ∀ b ∈ pending, P b) (hfound : ∀ b ∈ found, P b) :
    ∀ b ∈ discover succ fuel pending found, P b := by
  induction fuel generalizing pending found with
  | zero => exact hfound
  | succ fuel ih =>
    cases pending with
    | nil => exact hfound
    | cons c pending =>
      have hfresh : ∀ b ∈ ((succ c).filter fun s => !found.contains s).eraseDups, P b := by
        intro b hb
        exact hP c (hpending c (by simp)) b (List.mem_filter.mp (List.mem_eraseDups.mp hb)).1
      refine ih (fun b hb => ?_) fun b hb => ?_
      · rcases List.mem_append.mp hb with hb | hb
        · exact hfresh b hb
        · exact hpending b (by simp [hb])
      · rcases List.mem_append.mp hb with hb | hb
        · exact hfound b hb
        · exact hfresh b hb

/-- All nodes are in reach of the entry. -/
theorem reaches (hg : g.Bounded) {n : ℕ} (hn : n < (build g).size) : Reaches (build g).successors 0 n := by
  have hblocks : ∀ b ∈ (build g).blocks, b ∈ (build g).blocks ∧
      Reaches (build g).successors 0 ((build g).blocks.idxOf b) := by
    refine discover_induct (fun b hb s hs => ?_) (fun b hb => ?_) fun b hb => ?_
    · obtain ⟨p, hp, hedge⟩ := exists_successor hg (blocks_idxOf hb.1) hs
      have hmem := List.mem_of_getElem? hp
      obtain rfl := node_unique hg hp (blocks_idxOf hmem)
      exact ⟨hmem, hb.2.tail hedge⟩
    all_goals
      rw [List.mem_singleton.mp hb]
      have hentry := blocks_zero hg
      have hmem := List.mem_of_getElem? hentry
      rw [node_unique hg (blocks_idxOf hmem) hentry]
      exact ⟨hmem, .refl⟩
  obtain ⟨hmem, hreach⟩ := hblocks _ (List.getElem_mem hn)
  rwa [node_unique hg (blocks_idxOf hmem) (List.getElem?_eq_getElem hn)] at hreach

/-- A rank that grows along every edge to a node that is no widening point. -/
theorem exists_rank (hg : g.Bounded) : ∃ rank : ℕ → ℕ, ∀ n t, n < (build g).size → t ∈ (build g).successors n →
    (build g).cuts.isWidening t = false → rank n < rank t := by
  have hsucc : ∀ n < (build g).size, ∀ t ∈ (build g).successors n, t < (build g).size := fun n hn t => successors_lt hg hn
  have hentry : ∀ n ∈ [0], n < (build g).size := by
    intro n hn
    rw [List.mem_singleton.mp hn]
    exact (List.getElem?_eq_some_iff.mp (blocks_zero hg)).1
  obtain ⟨finished, hnodup, hfound, -, -, hordered⟩ := Search.exists_finished hsucc hentry
  have hall : ∀ n < (build g).size, n ∈ finished := by
    intro n hn
    rw [← hfound, Search.found_run_iff hsucc hentry]
    exact ⟨0, by simp, reaches hg hn⟩
  refine ⟨finished.idxOf, fun n t hn ht hplain => hordered.idxOf_lt hnodup (hall n hn) ht fun hback => ?_⟩
  rw [isWidening_of_back (successors_lt hg hn ht) hback] at hplain
  cases hplain

/-- A measure that grows along every edge to a node that is no cut point. -/
theorem exists_measure (hg : g.Bounded) : ∃ measure : ℕ → ℕ, ∀ n t, n < (build g).size → t ∈ (build g).successors n →
    (build g).cuts.isCut t = false → measure n < measure t := by
  obtain ⟨rank, hrank⟩ := exists_rank hg
  exact ⟨rank, fun n t hn ht hcut => hrank n t hn ht (isWidening_of_not_isCut (successors_lt hg hn ht) hcut)⟩

theorem index?_eq (hg : g.Bounded) {n : ℕ} {b : Block} (hn : (build g).blocks[n]? = some b) :
    (build g).index? b = some n := (index?_eq_some_iff (nodup_blocks hg)).mpr hn

/-- Whether the node of a block is a cut point. -/
def isCutBlock (a : Arena) (b : Block) : Bool := (a.index? b).any a.cuts.isCut

theorem isCutBlock_eq (hg : g.Bounded) {n : ℕ} {b : Block} (hn : (build g).blocks[n]? = some b) :
    (build g).isCutBlock b = (build g).cuts.isCut n := by
  rw [isCutBlock, index?_eq hg hn]
  rfl

/-- A segment of blocks, seen from the nodes. -/
theorem exists_node_segment (hg : g.Bounded) {n : ℕ} {a b : Block} {inner : List Block}
    (hn : (build g).blocks[n]? = some a) (h : Segment g.successors (build g).isCutBlock a inner b) :
    ∃ m, (build g).blocks[m]? = some b ∧ (∀ c ∈ inner, c ∈ (build g).blocks) ∧
      Segment (build g).successors (build g).cuts.isCut n (inner.map (build g).blocks.idxOf) m := by
  induction inner generalizing n a with
  | nil =>
    obtain ⟨m, hm, hedge⟩ := exists_successor hg hn (List.isChain_cons_cons.mp h.walk).1
    exact ⟨m, hm, by simp, .cons_cons hedge (.singleton _), by simp⟩
  | cons c inner ih =>
    obtain ⟨hnext, hwalk⟩ := List.isChain_cons_cons.mp h.walk
    obtain ⟨hcut, hplain⟩ := List.forall_mem_cons.mp h.plain
    obtain ⟨k, hk, hedge⟩ := exists_successor hg hn hnext
    obtain ⟨m, hm, hmem, hsegment⟩ := ih hk ⟨hwalk, hplain⟩
    have hc := List.mem_of_getElem? hk
    rw [isCutBlock_eq hg hk] at hcut
    refine ⟨m, hm, List.forall_mem_cons.mpr ⟨hc, hmem⟩, ?_⟩
    rw [List.map_cons, node_unique hg (blocks_idxOf hc) hk]
    exact hsegment.cons hcut hedge

/-- A segment of nodes is one of blocks. -/
theorem exists_block_segment (hg : g.Bounded) {n m : ℕ} {a : Block} {inner : List ℕ}
    (hn : (build g).blocks[n]? = some a) (h : Segment (build g).successors (build g).cuts.isCut n inner m) :
    ∃ b blocks, (build g).blocks[m]? = some b ∧ Segment g.successors (build g).isCutBlock a blocks b := by
  induction inner generalizing n a with
  | nil =>
    obtain ⟨b, hb, hedge⟩ := exists_block_of_successor hg hn (List.isChain_cons_cons.mp h.walk).1
    exact ⟨b, [], hb, .cons_cons hedge (.singleton _), by simp⟩
  | cons k inner ih =>
    obtain ⟨hnext, hwalk⟩ := List.isChain_cons_cons.mp h.walk
    obtain ⟨hcut, hplain⟩ := List.forall_mem_cons.mp h.plain
    obtain ⟨c, hc, hedge⟩ := exists_block_of_successor hg hn hnext
    obtain ⟨b, blocks, hb, hsegment⟩ := ih hc ⟨hwalk, hplain⟩
    rw [← isCutBlock_eq hg hc] at hcut
    exact ⟨b, c :: blocks, hb, hsegment.cons hcut hedge⟩

/-- A segment meets no block twice before its end. -/
theorem nodup_of_segment (hg : g.Bounded) {a b : Block} {inner : List Block} (ha : a ∈ (build g).blocks)
    (h : Segment g.successors (build g).isCutBlock a inner b) : (a :: inner).Nodup := by
  obtain ⟨measure, hm⟩ := exists_measure hg
  obtain ⟨m, -, -, hwalk, hplain⟩ := exists_node_segment hg (blocks_idxOf ha) h
  have hrise : ((a :: inner).map (build g).blocks.idxOf).IsChain fun x y => measure x < measure y := by
    refine List.IsChain.imp_of_mem_tail_imp (fun x y _ hy hxy => ?_) (List.isChain_append.mp hwalk).1
    have hx : x < (edges g).length := lt_of_mem_row (show y ∈ row (edges g) x from hxy)
    exact hm x y (length_edges g ▸ hx) hxy (hplain y hy)
  have hnodup : ((a :: inner).map (build g).blocks.idxOf).Nodup := by
    have : Trans (fun x y => measure x < measure y) (fun x y => measure x < measure y) fun x y => measure x < measure y :=
      ⟨Nat.lt_trans⟩
    refine (List.isChain_iff_pairwise.mp hrise).imp fun hlt heq => ?_
    rw [heq] at hlt
    exact Nat.lt_irrefl _ hlt
  exact hnodup.of_map _

/-- A search of a block lists all segments that start there. -/
theorem mem_pathsFrom_iff (hg : g.Bounded) {a : Block} (ha : a ∈ (build g).blocks) {q : Path} :
    q ∈ pathsFrom g (build g).isCutBlock (g.size + 1) [] a ↔ ∃ inner b, q.blocks = a :: inner ++ [b] ∧
      Segment g.successors (build g).isCutBlock a inner b ∧ (build g).isCutBlock b = true := by
  rw [mem_pathsFrom]
  constructor
  · rintro ⟨inner, b, hblocks, hsegment, hb, -⟩
    exact ⟨inner, b, hblocks, hsegment, hb⟩
  · rintro ⟨inner, b, hblocks, hsegment, hb⟩
    obtain ⟨hnotin, hnodup⟩ := List.nodup_cons.mp (nodup_of_segment hg ha hsegment)
    refine ⟨inner, b, hblocks, hsegment, hb, hnodup, fun c hc hca => ?_, ?_⟩
    · rw [List.nil_append, List.mem_singleton] at hca
      exact hnotin (hca ▸ hc)
    · obtain ⟨m, -, hmem, -⟩ := exists_node_segment hg (blocks_idxOf ha) hsegment
      have hle := (List.subperm_of_subset hnodup hmem).length_le
      have hsize := length_blocks_le hg
      omega

end Arena

/-- What a list of paths from a block holds: the segments that end at a cut point, in depth-first order. -/
structure ListsSegments (g : ControlFlow) (isCut : Block → Bool) (a : Block) (paths : List Path) : Prop where
  mem : ∀ q, q ∈ paths ↔ ∃ inner b, q.blocks = a :: inner ++ [b] ∧ Segment g.successors isCut a inner b ∧ isCut b = true
  once : paths.Nodup
  order : paths.Pairwise (Path.Earlier g)

/-- The oracle lists the segments that start at a cut point, whatever fuel it takes beyond the number of blocks, and they
lead to the successors of the cut point. -/
theorem prepare_listsSegments {g : ControlFlow} (hg : g.Bounded) (hs : ∀ b, (g.successors b).Nodup) {c : Context}
    (hc : c.arena = .build g) (key : Key) (t : Transfer) {n : ℕ} {a : Block} (hn : c.arena.blocks[n]? = some a)
    (hcut : c.arena.cuts.isCut n = true) : ∃ paths,
      ((SearchOracle.new g t).prepare (c.view key) a).paths = [(a, paths)] ∧
      (∀ fuel > g.size, pathsFrom g (c.view key).isCut fuel [] a = paths) ∧
      ListsSegments g (c.view key).isCut a paths ∧
      ∀ b, (∃ q ∈ paths, q.destination? = some b) ↔ ∃ m ∈ c.arena.cuts.successors n, c.arena.blocks[m]? = some b := by
  obtain ⟨arena, nodes⟩ := c
  dsimp only at hc hn hcut ⊢
  subst hc
  have ha := List.mem_of_getElem? hn
  have horder : (pathsFrom g (Arena.build g).isCutBlock (g.size + 1) [] a).Pairwise (Path.Earlier g) :=
    pairwise_pathsFrom hs
  have hlists : ListsSegments g (Arena.build g).isCutBlock a _ :=
    ⟨fun q => Arena.mem_pathsFrom_iff hg ha, horder.imp fun h => h.ne, horder⟩
  refine ⟨_, rfl, fun fuel hfuel => pathsFrom_eq hg ((Arena.discovering_blocks hg).1.bounded a ha) hfuel, hlists, fun b => ?_⟩
  constructor
  · rintro ⟨q, hq, hdest⟩
    obtain ⟨inner, d, hblocks, hsegment, hd⟩ := (hlists.mem q).mp hq
    rw [Path.destination?, hblocks, List.getLast?_concat] at hdest
    obtain rfl := Option.some.inj hdest
    obtain ⟨m, hm, -, hnodes⟩ := Arena.exists_node_segment hg hn hsegment
    rw [Arena.isCutBlock_eq hg hm] at hd
    exact ⟨m, (Arena.mem_successors_cuts hg hcut).mpr ⟨hd, _, hnodes⟩, hm⟩
  · rintro ⟨m, hm, hb⟩
    obtain ⟨hmcut, inner, hnodes⟩ := (Arena.mem_successors_cuts hg hcut).mp hm
    obtain ⟨d, blocks, hd, hsegment⟩ := Arena.exists_block_segment hg hn hnodes
    obtain rfl := Option.some.inj (hd.symm.trans hb)
    rw [← Arena.isCutBlock_eq hg hd] at hmcut
    exact ⟨⟨a :: blocks ++ [d]⟩, (hlists.mem _).mpr ⟨blocks, d, rfl, hsegment, hmcut⟩, List.getLast?_concat⟩

/-- Two paths that part behind the same block are listed by its successors. -/
theorem prepare_listsSegments_loop :
    let g := ControlFlow.ofTable 0 [[1, 2], [3], [3], [1, 4], []] [.plain, .plain, .plain, .plain, .exit] []
    let view := (Context.build g).view ⟨.focusing, .intervals, false, false⟩
    g.Bounded ∧ (∀ b, (g.successors b).Nodup) ∧ (Context.build g).arena.cuts.isCut 0 = true ∧
      ListsSegments g view.isCut 0 [⟨[0, 1]⟩, ⟨[0, 2, 3, 1]⟩, ⟨[0, 2, 3, 4]⟩] := by
  intro g view
  have hg : g.Bounded := by
    constructor <;> decide
  have hs : ∀ b, (g.successors b).Nodup := by
    intro b
    by_cases hb : b < 5
    · revert b
      decide
    · have hnil : g.successors b = [] := by simp [g, ControlFlow.ofTable, hb]
      simp [hnil]
  have hcut : (Context.build g).arena.cuts.isCut 0 = true := by decide +kernel
  have hblock : (Context.build g).arena.blocks[0]? = some 0 := by decide +kernel
  obtain ⟨paths, -, hfuel, hlists, -⟩ := prepare_listsSegments hg hs rfl ⟨.focusing, .intervals, false, false⟩
    ⟨fun _ => none, fun _ => [], fun _ v => v, fun _ _ v => v, fun _ _ => []⟩ hblock hcut
  have hpaths : pathsFrom g view.isCut (g.size + 1) [] 0 = [⟨[0, 1]⟩, ⟨[0, 2, 3, 1]⟩, ⟨[0, 2, 3, 4]⟩] := by decide +kernel
  obtain rfl := (hfuel _ (Nat.lt_succ_self _)).symm.trans hpaths
  exact ⟨hg, hs, hcut, hlists⟩

end PathInvariants
