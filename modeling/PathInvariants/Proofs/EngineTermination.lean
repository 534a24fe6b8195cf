import PathInvariants.Proofs.PassTermination

/-!
# Termination of the classic and the guided iteration

Whatever a client's transfer functions do, a classic or guided run without a deadline completes on
every finite graph, and a guided one makes at most one round for each edge and one more.
-/
namespace PathInvariants

variable {Ω S : Type}

namespace Analysis

open Run

variable {su : Setup} {L : Layout} {rank : ℕ → ℕ} {r : Run Ω S}

section Resources

variable (ht : su.options.timeout = none) (ρ : Resources)

include ht

theorem transformEdge_under : (transformEdge (su.under ρ) : _ → _ → _ → Analysis Ω S Value) = transformEdge su := by
  funext n p v
  simp only [transformEdge, transformNodes, transform, checkDeadline_under ht]
  rfl

theorem ascendEdge_under : (ascendEdge (su.under ρ) : _ → _ → _ → Analysis Ω S Bool) = ascendEdge su := by
  funext n v p
  simp only [ascendEdge, nextValue, widen, transformEdge_under ht, checkDeadline_under ht]
  rfl

theorem descendEdge_under : (descendEdge (su.under ρ) : _ → _ → _ → Analysis Ω S Unit) = descendEdge su := by
  funext n v p
  simp only [descendEdge, transformEdge_under ht]
  rfl

end Resources

/-- A visit that takes the stable value of a node along its edges into the descending slots. -/
theorem ensures_narrow {f : Value → ℕ → Analysis Ω S Unit} {n : ℕ}
    (hsucc : ∀ p ∈ L.arena.successors n, p < L.arena.size)
    (hf : ∀ v p, p < L.arena.size → ∀ r, r.Operable su.key L → Ensures (f v p) r fun _ r' =>
      r'.Operable su.key L ∧ r'.memory = r.memory ∧ r'.engine.computed = r.engine.computed)
    (hr : r.Operable su.key L) (hn : n < L.arena.size) :
    Ensures (do
      setComputed n true
      let start ← value su n .stable
      ((← arena).successors n).forM (f start)) r fun _ r' =>
      r'.Operable su.key L ∧ r'.memory = r.memory ∧ r'.engine.computed = r.engine.computed.set n true := by
  have hmark := hr.mark n true
  obtain ⟨s, hs, -⟩ := hmark.slots n hn
  rw [ensures_bind, ensures_setComputed (hr.computed.symm ▸ hn), ensures_bind, ensures_value hs, ensures_bind,
    ensures_arena, hmark.arena]
  refine ensures_forM (I := fun x => x.Operable su.key L ∧ x.memory = r.memory ∧
    x.engine.computed = r.engine.computed.set n true) ⟨hmark, rfl, rfl⟩ fun p hp x ⟨hx, hmemory, hcomputed⟩ => ?_
  exact (hf _ p (hsucc p hp) x hx).mono fun _ x' ⟨hx', hmemory', hcomputed'⟩ =>
    ⟨hx', hmemory'.trans hmemory, hcomputed'.trans hcomputed⟩

end Analysis

open Analysis Run

/-- What an analysis without a deadline needs to know of its layout. -/
structure Workable (su : Setup) (L : Layout) (rank : ℕ → ℕ) : Prop where
  timeout : su.options.timeout = none
  lists : L.Lists su.transfer
  entry : 0 < L.arena.size
  successors : ∀ n < L.arena.size, ∀ p ∈ L.arena.successors n, p < L.arena.size
  rank : ∀ n < L.arena.size, ∀ p ∈ L.arena.successors n, L.arena.cuts.isWidening p = false → rank n < rank p

/-- The analysis has no known properties either. -/
structure Unaided (su : Setup) (L : Layout) (rank : ℕ → ℕ) : Prop extends Workable su L rank where
  uninformed : L.informed = false

namespace Classic

variable {su : Setup} {L : Layout} {rank : ℕ → ℕ} {r : Run Ω Unit}

theorem ensures_narrowNode (hsu : Workable su L rank) (hr : r.Operable su.key L) {n : ℕ} (hn : n < L.arena.size) :
    Ensures (narrowNode su n) r fun _ r' => r'.Operable su.key L ∧ r'.memory = r.memory ∧
      r'.engine.computed = r.engine.computed.set n true :=
  ensures_narrow (hsu.successors n hn)
    (fun _ _ hlt _ hx => ensures_descendEdge hsu.timeout hsu.lists hx hn hlt) hr hn

theorem computeNode_under (ht : su.options.timeout = none) (ρ : Resources) :
    (computeNode (su.under ρ) : ℕ → Analysis Ω Unit Unit) = computeNode su := by
  funext n
  simp only [computeNode, ascendEdge_under ht]
  rfl

theorem narrowNode_under (ht : su.options.timeout = none) (ρ : Resources) :
    (narrowNode (su.under ρ) : ℕ → Analysis Ω Unit Unit) = narrowNode su := by
  funext n
  simp only [narrowNode, descendEdge_under ht]
  rfl

end Classic

/-- The edges of an arena, by their ends. -/
def Arena.pairs (a : Arena) : List (ℕ × ℕ) := (List.range a.size).flatMap fun n => (a.successors n).map (n, ·)

namespace Guided

variable {su : Setup} {L : Layout} {rank : ℕ → ℕ} {r r' : Run Ω Memory}

/-- The number of edges not found feasible yet. -/
def Memory.missing (m : Memory) (a : Arena) : ℕ := (a.pairs.toFinset.filter fun e => e ∉ m.feasible).card

/-- The changed nodes are nodes of the arena. -/
def Memory.Within (m : Memory) (a : Arena) : Prop := ∀ n ∈ m.changed.nodes, n < a.size

/-- An edge has been found, or memory and worklist are as they were. -/
def Searches (a : Arena) (r r' : Run Ω Memory) : Prop :=
  r'.memory.missing a < r.memory.missing a ∨
    r'.memory = r.memory ∧ r'.engine.worklist = r.engine.worklist

theorem Searches.trans {a : Arena} {r r₁ r' : Run Ω Memory} (h : Searches a r r₁) (h' : Searches a r₁ r') :
    Searches a r r' := by
  rcases h with hlt | ⟨hmemory, hworklist⟩
  · refine .inl ?_
    rcases h' with hlt' | ⟨hmemory', -⟩
    · exact hlt'.trans hlt
    · rwa [hmemory']
  · rcases h' with hlt' | ⟨hmemory', hworklist'⟩
    · exact .inl (hmemory ▸ hlt')
    · exact .inr ⟨hmemory'.trans hmemory, hworklist'.trans hworklist⟩

theorem ensures_isFeasible {n p : ℕ} {Q : Bool → Run Ω Memory → Prop} :
    Ensures (isFeasible n p) r Q ↔ Q (r.memory.feasible.contains (n, p)) r := by
  simp only [isFeasible, ensures_bind, ensures_memory, ensures_pure]

theorem Memory.Within.push {m : Memory} {a : Arena} {n : ℕ} (h : m.Within a) (hn : n < a.size) (label : ℕ) :
    Memory.Within { m with changed := m.changed.push n label } a := by
  intro t ht
  rcases Worklist.mem_nodes_push.mp ht with rfl | ht
  · exact hn
  · exact h t ht

theorem ensures_narrowNode (hsu : Unaided su L rank) (hr : r.Operable su.key L) {n : ℕ} (hn : n < L.arena.size) :
    Ensures (narrowNode su n) r fun _ r' => r'.Operable su.key L ∧ r'.memory = r.memory ∧
      r'.engine.computed = r.engine.computed.set n true := by
  refine ensures_narrow (hsu.successors n hn) (fun v p hlt x hx => ?_) hr hn
  rw [ensures_bind, ensures_isFeasible]
  split
  · exact ensures_descendEdge hsu.timeout hsu.lists hx hn hlt
  · exact ensures_pure.mpr ⟨hx, rfl, rfl⟩

section Resources

variable (ht : su.options.timeout = none) (ρ : Resources)

include ht

theorem computeNode_under : (computeNode (su.under ρ) : ℕ → Analysis Ω Memory Unit) = computeNode su := by
  funext n
  simp only [computeNode, ascendEdge_under ht]
  rfl

theorem narrowNode_under : (narrowNode (su.under ρ) : ℕ → Analysis Ω Memory Unit) = narrowNode su := by
  funext n
  simp only [narrowNode, descendEdge_under ht]
  rfl

end Resources

end Guided

/-- Every node of a run that the engine can work on has an invariant to report. -/
theorem Run.Operable.exists_invariants {key : Key} {L : Layout} {r : Run Ω S} (hr : r.Operable key L) :
    ∃ is, r.engine.context.invariants key = .ok is := by
  refine exists_mapM_ok fun n hn => ?_
  rw [List.mem_range, Context.size, hr.nodes_length] at hn
  obtain ⟨s, hs, -⟩ := hr.slots n hn
  obtain ⟨node, hnode, hslots⟩ := Option.bind_eq_some_iff.mp hs
  simp only [Context.invariantAt, Context.slots, Context.block, Context.node, hnode, hslots, bind, Except.bind, pure,
    Except.pure]
  exact ⟨_, rfl⟩

/-- An analysis whose strategy halts completes, with the same outcome for all resources that are enough. -/
theorem exists_outcome_of_halts [PathOracle Ω] (su : Setup) (st : Strategy Ω S) (name : String) {oracle : Ω}
    {ctx : Context} {Q : Run Ω S → Prop} (hst : ∀ ρ (e : Engine Ω), runTechnique (su.under ρ) e = st.runFresh (su.under ρ) e)
    (h : Halts (fun ρ => st.run (su.under ρ)) ⟨.new su.options ctx oracle, st.initial⟩ fun _ r =>
      (∃ L, r.Operable su.key L) ∧ Q r) :
    ∃ N o c r, (∀ ρ : Resources, N ≤ ρ.fuel → analyzeWith (su.under ρ) name oracle ctx = (.ok o, c)) ∧
      o.isCompleted = true ∧ o.stats = r.engine.stats ∧ Q r := by
  obtain ⟨N, u, r, hrun, ⟨L, hr⟩, hQ⟩ := h
  obtain ⟨is, his⟩ := hr.exists_invariants
  refine ⟨N, ⟨name, su.key, .completed, is, r.engine.context.sites is, r.engine.stats, st.isDegraded r.memory⟩,
    r.engine.context, r, fun ρ hρ => ?_, rfl, rfl, hQ⟩
  have hfresh : st.runFresh (su.under ρ) (.new su.options ctx oracle) = (.ok (st.isDegraded r.memory), r.engine) := by
    have hyields := hrun ρ hρ
    rw [Yields] at hyields
    rw [Strategy.runFresh, hyields]
    rfl
  have htechnique : runTechnique (su.under ρ) (.new (su.under ρ).options ctx oracle) =
      (.ok (st.isDegraded r.memory), r.engine) := (hst ρ _).trans hfresh
  have hinvariants : r.engine.context.invariants (su.under ρ).key = .ok is := his
  simp only [analyzeWith, htechnique, hinvariants]
  rfl

/-- An analysis whose strategy comes to the end of its fuel gives up. -/
theorem analyzeWith_of_exhausts [PathOracle Ω] {su : Setup} (st : Strategy Ω S) (name : String) {oracle : Ω} {ctx : Context}
    (hst : ∀ e : Engine Ω, runTechnique su e = st.runFresh su e)
    (h : Exhausts (st.run su) ⟨.new su.options ctx oracle, st.initial⟩) :
    (analyzeWith su name oracle ctx).1 = .error .outOfFuel := by
  obtain ⟨r, hrun⟩ := h
  have htechnique : runTechnique su (.new su.options ctx oracle) = (.error .outOfFuel, r.engine) := by
    rw [hst, Strategy.runFresh, hrun]
    rfl
  simp only [analyzeWith, htechnique]
  rfl

/-- The guards between the blocks of an arena. -/
def Arena.guards (a : Arena) (t : Transfer) : List LinearConstraint :=
  a.blocks.flatMap fun b => a.blocks.flatMap fun c => t.thresholds b c

end PathInvariants
