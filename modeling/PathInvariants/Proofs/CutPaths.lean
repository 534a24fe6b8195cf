import PathInvariants.Proofs.Coverage
import PathInvariants.Proofs.PathListing

/-!
# Paths between cut points

Every cycle of an arena meets a cut point, so an execution that stops at error sites falls into
segments from one cut point to the next, and the blocks of a segment are one of the listed paths.
-/
namespace PathInvariants

theorem rel_of_mem_steps {R : Block → Block → Prop} {q : Path} (h : q.blocks.IsChain R) {s : Block × Block}
    (hs : s ∈ q.steps) : R s.1 s.2 := by
  unfold Path.steps at hs
  generalize q.blocks = l at h hs
  induction l with
  | nil => cases hs
  | cons a l ih =>
    cases l with
    | nil => cases hs
    | cons b l =>
      obtain ⟨hab, hrest⟩ := List.isChain_cons_cons.mp h
      rcases List.mem_cons.mp hs with rfl | hs
      · exact hab
      · exact ih hrest hs

namespace Arena

variable {g : ControlFlow}

/-- Along a chain of edges whose inner blocks are no cut points, ranks grow, except into a widening point. -/
theorem exists_node_of_chain (hg : g.Bounded) {rank : ℕ → ℕ}
    (hrank : ∀ n t, n < (build g).size → t ∈ (build g).successors n → (build g).cuts.isWidening t = false →
      rank n < rank t) {rest : List Block} {a b : Block} {n : ℕ} (hn : (build g).blocks[n]? = some a)
    (hchain : (a :: rest).IsChain fun x y => y ∈ g.successors x)
    (hplain : ∀ c ∈ rest.dropLast, (build g).isCutBlock c = false) (hlast : rest.getLast? = some b) :
    (∀ c ∈ rest, c ∈ (build g).blocks) ∧
      ∃ m, (build g).blocks[m]? = some b ∧ ((build g).cuts.isWidening m = false → rank n < rank m) := by
  induction rest generalizing a n with
  | nil => cases hlast
  | cons c rest ih =>
    obtain ⟨hedge, hchain⟩ := List.isChain_cons_cons.mp hchain
    obtain ⟨t, ht, hsucc⟩ := exists_successor hg hn hedge
    have hstep := hrank n t (List.getElem?_eq_some_iff.mp hn).1 hsucc
    have hc := List.mem_of_getElem? ht
    cases rest with
    | nil =>
      obtain rfl : c = b := Option.some.inj hlast
      exact ⟨by simpa using hc, t, ht, hstep⟩
    | cons d rest =>
      have hcut : (build g).cuts.isCut t = false := by
        rw [← isCutBlock_eq hg ht]
        exact hplain c (by simp)
      obtain ⟨hmem, m, hm, hlt⟩ := ih ht hchain (fun x hx => hplain x (List.mem_cons_of_mem _ hx)) hlast
      refine ⟨?_, m, hm, fun hw => ?_⟩
      · intro x hx
        rcases List.mem_cons.mp hx with rfl | hx
        · exact hc
        · exact hmem x hx
      · have hlow := hstep (isWidening_of_not_isCut (List.getElem?_eq_some_iff.mp ht).1 hcut)
        exact hlow.trans (hlt hw)

/-- A listed path stays in the arena and leads to a node, of higher rank unless that is a widening point. -/
theorem exists_destination (hg : g.Bounded) {rank : ℕ → ℕ}
    (hrank : ∀ n t, n < (build g).size → t ∈ (build g).successors n → (build g).cuts.isWidening t = false →
      rank n < rank t) {fuel n : ℕ} {a : Block} {q : Path} (hn : (build g).blocks[n]? = some a)
    (hq : q ∈ pathsFrom g (build g).isCutBlock fuel [] a) :
    (∀ c ∈ q.blocks, c ∈ (build g).blocks) ∧ ∃ m b, q.destination? = some b ∧ (build g).blocks[m]? = some b ∧
      ((build g).cuts.isWidening m = false → rank n < rank m) := by
  have hchain := isChain_of_mem_pathsFrom hq
  obtain ⟨rest, b, hblocks, hplain, hlast, -⟩ := exists_of_mem_pathsFrom hq
  rw [List.nil_append] at hblocks
  rw [hblocks] at hchain
  obtain ⟨hmem, m, hm, hlt⟩ := exists_node_of_chain hg hrank hn hchain hplain hlast
  refine ⟨?_, m, b, ?_, hm, hlt⟩
  · rw [hblocks]
    simpa using ⟨List.mem_of_getElem? hn, hmem⟩
  · rw [Path.destination?, hblocks, List.getLast?_cons, hlast]
    rfl

/-- A listed path passes the check of answers. -/
theorem checkPath_eq (hg : g.Bounded) {fuel n : ℕ} {a : Block} {q : Path} (hn : (build g).blocks[n]? = some a)
    (hq : q ∈ pathsFrom g (build g).isCutBlock fuel [] a) : Analysis.checkPath g (build g) a q = .ok () := by
  obtain ⟨rank, hrank⟩ := exists_rank hg
  have hmem := (exists_destination hg hrank hn hq).1
  have hchain := isChain_of_mem_pathsFrom hq
  obtain ⟨rest, b, hblocks, -⟩ := exists_of_mem_pathsFrom hq
  have hsource : q.source? = some a := by rw [Path.source?, hblocks]; rfl
  have hsteps : q.steps.find? (fun s => !g.hasEdge s.1 s.2) = none := by
    refine List.find?_eq_none.mpr fun s hs => ?_
    simpa [ControlFlow.hasEdge] using rel_of_mem_steps hchain hs
  have hinside : (q.blocks.any fun b => ((build g).index? b).isNone) = false := by
    refine List.any_eq_false.mpr fun c hc => ?_
    obtain ⟨m, hm⟩ := List.getElem?_of_mem (hmem c hc)
    simp [index?_eq hg hm]
  simp only [Analysis.checkPath, hsource, hsteps, hinside, ne_eq, not_true_eq_false, if_false, Bool.false_eq_true]
  rfl

end Arena

/-- Having left `a` with the store `σ` and come through the blocks `walked`, of which only the first may be a
cut point. -/
inductive Leaves (isCut : Block → Bool) (step : Block → Store → Block → Store → Prop) (a : Block) (σ : Store) :
    List Block → Block → Store → Prop
  | start {b : Block} {σ₁ : Store} : step a σ b σ₁ → Leaves isCut step a σ [a] b σ₁
  | next {walked : List Block} {b c : Block} {σ₁ σ₂ : Store} : Leaves isCut step a σ walked b σ₁ → isCut b = false →
      step b σ₁ c σ₂ → Leaves isCut step a σ (walked ++ [b]) c σ₂

theorem Walk.snoc {step : Block → Store → Block → Store → Prop} {walked : List Block} {b c : Block} {σ σ₁ σ₂ : Store}
    (h : Walk step (walked ++ [b]) σ σ₁) (hs : step b σ₁ c σ₂) : Walk step (walked ++ [b] ++ [c]) σ σ₂ := by
  induction walked generalizing σ with
  | nil =>
    cases h
    exact .cons hs (.last _ _)
  | cons a walked ih =>
    cases walked with
    | nil =>
      cases h with
      | cons hab h =>
        exact .cons hab (ih h)
    | cons d walked =>
      cases h with
      | cons hab h =>
        exact .cons hab (ih h)

namespace Leaves

variable {g : ControlFlow} {isCut : Block → Bool} {step : Block → Store → Block → Store → Prop} {a b : Block}
  {σ σ₁ : Store} {walked : List Block}

theorem walk (h : Leaves isCut step a σ walked b σ₁) : Walk step (walked ++ [b]) σ σ₁ := by
  induction h with
  | start hs => exact .cons hs (.last _ _)
  | next _ _ hs ih => exact ih.snoc hs

/-- The blocks that an execution comes through are those of a segment. -/
theorem exists_segment (hstep : ∀ a σ b σ', step a σ b σ' → b ∈ g.successors a)
    (h : Leaves isCut step a σ walked b σ₁) : ∃ inner, walked = a :: inner ∧ Flow.Segment g.successors isCut a inner b := by
  induction h with
  | start hs => exact ⟨[], rfl, .cons_cons (hstep _ _ _ _ hs) (.singleton _), by simp⟩
  | next _ hb hs ih =>
    obtain ⟨inner, rfl, hsegment⟩ := ih
    exact ⟨inner ++ [_], rfl, hsegment.snoc hb (hstep _ _ _ _ hs)⟩

end Leaves

namespace Arena

/-- An execution takes a path from one cut point, where it does not stop, to the next. -/
structure PathStep (arena : Arena) (step : Block → Store → Block → Store → Prop) (n : ℕ) (σ : Store) (q : ℕ)
    (σ' : Store) : Prop where
  cut : arena.cuts.isCut n = true
  safe : arena.cuts.isErrorSite n = false
  next : arena.cuts.isCut q = true
  leaves : ∃ a b walked, arena.blocks[n]? = some a ∧ arena.blocks[q]? = some b ∧
    Leaves arena.isCutBlock step a σ walked b σ'

section Steps

variable {g : ControlFlow} {step : Block → Store → Block → Store → Prop}
  (hstep : ∀ a σ b σ', step a σ b σ' → b ∈ g.successors a)

include hstep

theorem PathStep.exists_path (hg : g.Bounded) {n q : ℕ} {σ σ' : Store} (h : (build g).PathStep step n σ q σ') :
    ∃ a b walked, (build g).blocks[n]? = some a ∧ (build g).blocks[q]? = some b ∧
      ⟨walked ++ [b]⟩ ∈ pathsFrom g (build g).isCutBlock (g.size + 1) [] a ∧ Walk step (walked ++ [b]) σ σ' := by
  obtain ⟨a, b, walked, ha, hb, hleaves⟩ := h.leaves
  obtain ⟨inner, rfl, hsegment⟩ := hleaves.exists_segment hstep
  refine ⟨a, b, a :: inner, ha, hb, ?_, hleaves.walk⟩
  exact (mem_pathsFrom_iff hg (List.mem_of_getElem? ha)).mpr ⟨inner, b, rfl, hsegment, (isCutBlock_eq hg hb).trans h.next⟩

/-- A path between two cut points makes one a successor of the other. -/
theorem PathStep.mem_successors (hg : g.Bounded) {n q : ℕ} {σ σ' : Store} (h : (build g).PathStep step n σ q σ') :
    q ∈ (build g).cuts.successors n := by
  obtain ⟨a, b, walked, ha, hb, hleaves⟩ := h.leaves
  obtain ⟨inner, rfl, hsegment⟩ := hleaves.exists_segment hstep
  obtain ⟨m, hm, -, hnodes⟩ := exists_node_segment hg ha hsegment
  obtain rfl := node_unique hg hm hb
  exact (mem_successors_cuts hg h.cut).mpr ⟨h.next, _, hnodes⟩

/-- Paths are taken only where they start. -/
theorem PathStep.starts (hg : g.Bounded) {n q : ℕ} {σ σ' : Store} (h : (build g).PathStep step n σ q σ') :
    ((build g).cuts.isCut n && !(build g).cuts.isErrorSite n && !((build g).cuts.successors n).isEmpty) = true := by
  have hne : ((build g).cuts.successors n).isEmpty = false :=
    List.isEmpty_eq_false_iff_exists_mem.mpr ⟨q, h.mem_successors hstep hg⟩
  simp [h.cut, h.safe, hne]

end Steps

end Arena

namespace Program

open Arena

variable {p : Program} {b : Block} {σ : Store}

theorem step_edge (p : Program) (a : Block) (σ : Store) (b : Block) (σ' : Store) (h : p.Step a σ b σ') :
    b ∈ p.graph.control.successors a := h.edge

/-- The arena of the control flow of a program. -/
def arena (p : Program) : Arena := build p.graph.control

/-- A safe execution stands at a cut point after a number of paths, or has left one and not come to the next. -/
theorem exists_segment (hp : p.graph.WellFormed) (h : p.ReachesSafely b σ) : ∃ q, p.arena.blocks[q]? = some b ∧
    ((p.arena.cuts.isCut q = true ∧ Reached (p.arena.PathStep p.Step) q σ) ∨
      (p.arena.cuts.isCut q = false ∧ ∃ n a σ₀ walked, p.arena.blocks[n]? = some a ∧ p.arena.cuts.isCut n = true ∧
        p.arena.cuts.isErrorSite n = false ∧ Reached (p.arena.PathStep p.Step) n σ₀ ∧
        Leaves p.arena.isCutBlock p.Step a σ₀ walked b σ)) := by
  have hg := hp.bounded
  induction h with
  | entry σ => exact ⟨0, blocks_zero hg, .inl ⟨isCut_zero hg, .entry σ⟩⟩
  | @step a b σ σ' _ hstop hs ih =>
    obtain ⟨m, hm, ih⟩ := ih
    obtain ⟨q, hq, -⟩ := exists_successor hg hm (p.step_edge _ _ _ _ hs)
    have hsafe : p.arena.cuts.isErrorSite m = false := by
      rw [CutPoints.isErrorSite, arena, role_build hm]
      exact hstop
    -- In both cases the execution has left a cut point on the way to `b`.
    obtain ⟨n, a₀, σ₀, walked, hn, hcut, hsafe, hreached, hleaves⟩ : ∃ n a₀ σ₀ walked,
        p.arena.blocks[n]? = some a₀ ∧ p.arena.cuts.isCut n = true ∧ p.arena.cuts.isErrorSite n = false ∧
        Reached (p.arena.PathStep p.Step) n σ₀ ∧ Leaves p.arena.isCutBlock p.Step a₀ σ₀ walked b σ' := by
      rcases ih with ⟨hcut, hreached⟩ | ⟨hcut, n, a₀, σ₀, walked, hn, hcut', hsafe', hreached, hleaves⟩
      · exact ⟨m, a, σ, [a], hm, hcut, hsafe, hreached, .start hs⟩
      · refine ⟨n, a₀, σ₀, _, hn, hcut', hsafe', hreached, hleaves.next ?_ hs⟩
        rwa [arena, isCutBlock_eq hg hm]
    refine ⟨q, hq, ?_⟩
    cases hc : p.arena.cuts.isCut q with
    | true => exact .inl ⟨rfl, .step hreached ⟨hcut, hsafe, hc, a₀, b, walked, hn, hq, hleaves⟩⟩
    | false => exact .inr ⟨rfl, n, a₀, σ₀, walked, hn, hcut, hsafe, hreached, hleaves⟩

/-- The paths from a block to the next cut points, as the searching oracle lists them. -/
def paths (p : Program) (a : Block) : List Path := pathsFrom p.graph.control p.arena.isCutBlock (p.graph.size + 1) [] a

/-- An execution may walk through blocks that are no cut points. -/
theorem reachesSafely_of_walk (hp : p.graph.WellFormed) {n : ℕ} {a : Block} {rest : List Block} {σ' : Store}
    (h : Walk p.Step (a :: rest) σ σ') (ha : p.arena.blocks[n]? = some a) (hsafe : p.arena.cuts.isErrorSite n = false)
    (hplain : ∀ c ∈ rest.dropLast, p.arena.isCutBlock c = false) (hr : p.ReachesSafely a σ)
    (hb : (a :: rest).getLast? = some b) : p.ReachesSafely b σ' := by
  have hg := hp.bounded
  have hrole : (p.graph.role a).isErrorSite = false := by rwa [CutPoints.isErrorSite, arena, role_build ha] at hsafe
  induction rest generalizing a n σ with
  | nil =>
    cases h
    obtain rfl : a = b := Option.some.inj hb
    exact hr
  | cons c rest ih =>
    cases h with
    | cons hs h =>
      have hc := Arrives.step hr hrole hs
      obtain ⟨m, hm, -⟩ := exists_successor hg ha (p.step_edge _ _ _ _ hs)
      rw [List.getLast?_cons_cons] at hb
      cases rest with
      | nil =>
        cases h
        obtain rfl : c = b := Option.some.inj hb
        exact hc
      | cons d rest =>
        have hcut := hplain c (by simp)
        rw [arena, isCutBlock_eq hg hm] at hcut
        have hsafe' := Bool.eq_false_iff.mpr fun herr => by
          rw [isCut_of_isErrorSite (List.getElem?_eq_some_iff.mp hm).1 herr] at hcut
          cases hcut
        refine ih h hm hsafe' (fun e he => hplain e ?_) hc hb ?_
        · exact List.mem_cons_of_mem _ he
        · rwa [CutPoints.isErrorSite, role_build hm] at hsafe'

/-- An execution may take a listed path, which leads to a cut point. -/
theorem reachesSafely_of_mem_paths (hp : p.graph.WellFormed) {n : ℕ} {a : Block} {q : Path} {σ' : Store}
    (hq : q ∈ p.paths a) (h : Walk p.Step q.blocks σ σ') (ha : p.arena.blocks[n]? = some a)
    (hsafe : p.arena.cuts.isErrorSite n = false) (hr : p.ReachesSafely a σ) (hb : q.destination? = some b) :
    p.ReachesSafely b σ' ∧ p.arena.isCutBlock b = true := by
  obtain ⟨rest, b', hblocks, hplain, hlast, hcut⟩ := exists_of_mem_pathsFrom hq
  rw [List.nil_append] at hblocks
  rw [Path.destination?, hblocks] at hb
  rw [hblocks] at h
  refine ⟨reachesSafely_of_walk hp h ha hsafe hplain hr hb, ?_⟩
  obtain ⟨d, rest, rfl⟩ := List.exists_cons_of_ne_nil (fun hnil => by simp [hnil] at hlast : rest ≠ [])
  rw [List.getLast?_cons_cons, hlast] at hb
  rwa [← Option.some.inj hb]

/-- The stores that paths lead to are those of safe executions at cut points. -/
theorem reachesSafely_iff (hp : p.graph.WellFormed) {q : ℕ} (hq : p.arena.blocks[q]? = some b)
    (hcut : p.arena.cuts.isCut q = true) : p.ReachesSafely b σ ↔ Reached (p.arena.PathStep p.Step) q σ := by
  have hg := hp.bounded
  constructor
  · intro h
    obtain ⟨m, hm, hseg⟩ := exists_segment hp h
    obtain rfl := node_unique hg hm hq
    rcases hseg with ⟨-, hreached⟩ | ⟨hfalse, -⟩
    · exact hreached
    · rw [hcut] at hfalse
      cases hfalse
  · intro h
    clear hcut
    induction h generalizing b with
    | entry σ =>
      obtain rfl : b = p.graph.control.entry := Option.some.inj (hq.symm.trans (blocks_zero hg))
      exact .entry σ
    | step _ ht ih =>
      obtain ⟨a, c, walked, ha, hc, hmem, hwalk⟩ := ht.exists_path p.step_edge hg
      obtain rfl : c = b := Option.some.inj (hc.symm.trans hq)
      exact (reachesSafely_of_mem_paths hp hmem hwalk ha ht.safe (ih ha) (by simp [Path.destination?])).1

end Program

end PathInvariants
