import PathInvariants.Proofs.ClassicSoundness
import PathInvariants.Proofs.EndlessPasses
import PathInvariants.Proofs.SymbolRanges

/-!
# Termination of classic iteration with known properties

A run completes if and only if none of its passes regains bounds forever. The second pass of a restart
from the seeds may do so: what it widens, the equalities of the first result give back, one step
further on.
-/
namespace PathInvariants

variable {Ω : Type}

namespace Classic

open Analysis Run

/-- What comes between two passes: the first result becomes known, and the nodes that start from seeds wait. Tells
whether there are any. -/
def regroup (su : Setup) : Analysis Ω Unit Bool := do
  if su.options.seeded then
    keepStable su
    if ← findSeeds su then
      let _ ← settle su
      resetComputed
      clearWorklist
      (List.range (← nodeCount)).forM fun n => do
        unless (← slot su n .stable).isBottom do push n
      return true
    else
      restoreKnown su
      return false
  else return false

/-- The first pass and what follows it up to a second one; tells whether there is one. -/
def untilRestart (su : Setup) : Analysis Ω Unit Bool := do
  drain (computeNode su) su.resources.fuel
  descendRounds su (narrowNode su) (su.options.roundsFor .classic)
  regroup su

/-- Both passes. -/
def passes (su : Setup) : Analysis Ω Unit Unit := do
  if ← untilRestart su then
    drain (computeNode su) su.resources.fuel
    descendRounds su (narrowNode su) (su.options.roundsFor .classic)

theorem computeFunction_eq (su : Setup) : (computeFunction su : Analysis Ω Unit Unit) = (do
    push 0
    passes su) := by
  simp only [computeFunction, passes, untilRestart, ascend, if_true, bind_assoc]
  cases hseeded : su.options.seeded with
  | false => simp [regroup, hseeded]
  | true =>
    simp only [restartFromSeeds, regroup, hseeded, if_true, ascend, bind_assoc]
    refine congrArg _ (funext fun _ => congrArg _ (funext fun _ => congrArg _ (funext fun _ => congrArg _ (funext fun _ =>
      congrArg _ (funext fun found => ?_)))))
    cases found <;> simp

/-- What a classic analysis with known properties needs to know of its layout. -/
structure Restartable (su : Setup) (L : Layout) (rank : ℕ → ℕ) : Prop extends Workable su L rank where
  nodup : ∀ n < L.arena.size, (L.arena.successors n).Nodup
  widening : ∀ n ∈ L.arena.cuts.wideningNodes, n < L.arena.size
  informed : L.informed = true
  technique : su.options.technique = .classic

variable {su : Setup} {L : Layout} {rank : ℕ → ℕ} {n : ℕ} {r r₁ r' : Run Ω Unit}

section Regroup

variable (hsu : Restartable su L rank) (hr : r.Operable su.key L)

include hsu hr

theorem ensures_keepStable : Ensures (keepStable su) r fun _ r' => r'.Operable su.key L := by
  simp only [keepStable, ensures_bind, ensures_nodeCount, hr.nodes_length]
  refine ensures_forM hr fun n hn x hx => ?_
  rw [List.mem_range] at hn
  obtain ⟨s, hs, hover⟩ := hx.slots n hn
  rw [ensures_bind, ensures_slots hs, ensures_setSlots hs]
  exact hx.put hn ⟨hover.stable, hover.descending, hover.initial, hover.stable, by simp [hsu.informed]⟩

omit hsu in
theorem ensures_restoreKnown : Ensures (restoreKnown su) r fun _ r' => r'.Operable su.key L := by
  simp only [restoreKnown, ensures_bind, ensures_nodeCount, hr.nodes_length]
  refine ensures_forM hr fun n hn x hx => ?_
  rw [List.mem_range] at hn
  obtain ⟨s, hs, hover⟩ := hx.slots n hn
  rw [ensures_bind, ensures_slots hs, ensures_setSlots hs]
  exact hx.put hn ⟨hover.known, hover.descending, hover.initial, hover.known, hover.unknown⟩

omit hsu in
theorem ensures_plantSeeds (hn : n < L.arena.size) : Ensures (plantSeeds su n) r fun _ r' =>
    ∃ thresholds, r'.Operable su.key { L with thresholds } := by
  obtain ⟨s, hs, hover⟩ := hr.slots n hn
  have hplant : ∀ seeds : List LinearConstraint, Ensures (if seeds.isEmpty then pure false else do
      setValue su n .descending (← value su n .initial)
      modifyEngine fun e => { e with thresholds := Transfer.addNew e.thresholds seeds }
      pure true) r fun _ r' => ∃ thresholds, r'.Operable su.key { L with thresholds } := by
    intro seeds
    split
    · exact ensures_pure.mpr ⟨L.thresholds, hr⟩
    · have hput := hr.put hn (s := s.set .descending (s.descending.set 0 s.initial.first))
        ⟨hover.stable, hover.initial, hover.initial, hover.known, hover.unknown⟩
      simp only [ensures_bind, ensures_value hs, ensures_setValue hs, ensures_modifyEngine, ensures_pure]
      exact ⟨Transfer.addNew r.engine.thresholds seeds, hput.arena, hput.blocks, hput.envs, hput.computed, hput.waiting,
        hput.slots, fun _ hc => hc, hput.rounds⟩
  simp only [plantSeeds, seedsAt, ensures_bind, ensures_value hs]
  split
  · rw [ensures_pure]
    exact hplant []
  · rw [ensures_bind, ensures_value hs, ensures_pure]
    exact hplant _

theorem ensures_findSeeds : Ensures (findSeeds su) r fun _ r' => ∃ thresholds, r'.Operable su.key { L with thresholds } := by
  simp only [findSeeds, ensures_bind, ensures_nodeCount, hr.nodes_length]
  have hclear : Ensures (((List.range L.arena.size).filter (· != 0)).forM fun n => do
      setSlot su n .descending (.single (← bottom su n))) r fun _ r' => r'.Operable su.key L := by
    refine ensures_forM hr fun n hn x hx => ?_
    have hlt := List.mem_range.mp (List.mem_filter.mp hn).1
    obtain ⟨s, hs, hover⟩ := hx.slots n hlt
    simp only [bottom, ensures_bind, ensures_env (hx.envs n hlt), ensures_pure, ensures_setSlot hs]
    exact hx.put hlt ⟨hover.stable, rfl, hover.initial, hover.known, hover.unknown⟩
  refine hclear.mono fun _ r₁ hr₁ => ?_
  rw [ensures_arena, hr₁.arena]
  refine (ensures_mapM (I := fun x => ∃ thresholds, x.Operable su.key { L with thresholds }) ⟨L.thresholds, hr₁⟩ ?_).mono ?_
  · rintro n hn x ⟨T, hx⟩
    exact ensures_plantSeeds (L := { L with thresholds := T }) hx (hsu.widening n hn)
  rintro found r₂ ⟨T, hr₂⟩
  split
  · rw [ensures_bind, ensures_modifyEngine, ensures_pure]
    exact ⟨T, hr₂.arena, hr₂.blocks, hr₂.envs, hr₂.computed, hr₂.waiting, hr₂.slots, hr₂.thresholds, hr₂.rounds⟩
  · exact ensures_pure.mpr ⟨T, hr₂⟩

omit hsu in
theorem ensures_pushLive : Ensures ((List.range r.engine.context.nodes.length).forM fun n => do
    unless (← slot su n .stable).isBottom do push n) r fun _ r' => r'.Operable su.key L := by
  rw [hr.nodes_length]
  refine ensures_forM hr fun n hn x hx => ?_
  rw [List.mem_range] at hn
  obtain ⟨s, hs, -⟩ := hx.slots n hn
  simp only [slot, ensures_bind, ensures_slots hs, ensures_pure]
  split
  · exact ensures_pure.mpr hx
  · exact ensures_push.mpr (hx.push hn)

/-- Between two passes nothing can fail. -/
theorem ensures_regroup : Ensures (regroup su) r fun _ r' => ∃ thresholds, r'.Operable su.key { L with thresholds } := by
  unfold regroup
  split
  · rw [ensures_bind]
    refine (ensures_keepStable hsu hr).mono fun _ r₁ hr₁ => ensures_bind.mpr ?_
    refine (ensures_findSeeds hsu hr₁).mono ?_
    rintro found r₂ ⟨T, hr₂⟩
    cases found with
    | false =>
      rw [if_neg Bool.false_ne_true, ensures_bind]
      exact (ensures_restoreKnown hr₂).mono fun _ r₃ hr₃ => ensures_pure.mpr ⟨T, hr₃⟩
    | true =>
      rw [if_pos rfl, ensures_bind]
      refine (ensures_settle (by rw [hsu.technique]; decide) hr₂).mono ?_
      rintro _ r₃ ⟨hr₃, -⟩
      simp only [resetComputed, clearWorklist, ensures_bind, ensures_modifyEngine, ensures_nodeCount]
      have hcleared : Operable su.key { L with thresholds := T } { r₃ with engine := { r₃.engine with
          computed := r₃.engine.computed.map fun _ => false
          worklist := .empty } } :=
        ⟨hr₃.arena, hr₃.blocks, hr₃.envs, (List.length_map _).trans hr₃.computed, fun _ h => absurd h List.not_mem_nil,
          hr₃.slots, hr₃.thresholds, hr₃.rounds⟩
      exact (ensures_pushLive hcleared).mono fun _ r₄ hr₄ => ensures_pure.mpr ⟨T, hr₄⟩
  · exact ensures_pure.mpr ⟨L.thresholds, hr⟩

end Regroup

/-- The layout for a pass lists the thresholds that the pass starts with, and all guards. -/
theorem Restartable.relist (h : Restartable su L rank) (thresholds : List LinearConstraint) :
    Restartable su { L with thresholds := thresholds ++ L.arena.guards su.transfer } rank :=
  ⟨⟨h.timeout, fun a ha b hb _ hc => List.mem_append_right _ (List.mem_flatMap.mpr ⟨a, ha, List.mem_flatMap.mpr
    ⟨b, hb, hc⟩⟩), h.entry, h.successors, h.rank⟩, h.nodup, h.widening, h.informed, h.technique⟩

theorem operable_relist {thresholds : List LinearConstraint} (hr : r.Operable su.key { L with thresholds })
    (added : List LinearConstraint) : r.Operable su.key { L with thresholds := r.engine.thresholds ++ added } :=
  ⟨hr.arena, hr.blocks, hr.envs, hr.computed, hr.waiting, hr.slots, fun _ hc => List.mem_append_left _ hc, hr.rounds⟩

/-- After the first pass there is a second one, which starts from `r₁`. -/
def Restarts (su : Setup) (r r₁ : Run Ω Unit) : Prop := ∃ ρ, Yields (untilRestart (su.under ρ)) r true r₁

theorem regroup_under (su : Setup) (ρ : Resources) : (regroup (su.under ρ) : Analysis Ω Unit Bool) = regroup su := rfl

theorem persists_untilRestart (ht : su.options.timeout = none) :
    Persists fun ρ => (untilRestart (su.under ρ) : Analysis Ω Unit Bool) := by
  simp only [untilRestart, computeNode_under ht, narrowNode_under ht, regroup_under]
  refine Persists.bind (persists_drain (computeNode su)) fun _ => ?_
  exact Persists.bind (persists_descendRounds ht (narrowNode su) (su.options.roundsFor .classic)) fun _ =>
    Persists.const (regroup su)

/-- A run whose first pass regains bounds forever comes to the end of any fuel. -/
theorem RegainsForever.exhausts_passes (ht : su.options.timeout = none) (h : RegainsForever su r) (ρ : Resources) :
    Exhausts (passes (su.under ρ)) r := by
  rw [passes, untilRestart, computeNode_under ht]
  exact ((h.exhausts _).bind _).bind _

/-- A run whose second pass regains bounds forever comes to the end of any fuel. -/
theorem Restarts.exhausts_passes (ht : su.options.timeout = none) (h : Restarts su r r₁) (hregains : RegainsForever su r₁)
    (ρ : Resources) : Exhausts (passes (su.under ρ)) r := by
  obtain ⟨ρ₀, hyields⟩ := h
  rcases persists_untilRestart ht hyields ρ with hyields' | ⟨-, hends⟩
  · refine hyields'.exhausts_bind ?_
    rw [if_pos rfl, computeNode_under ht]
    exact (hregains.exhausts _).bind _
  · exact hends.bind _

section Passes

variable (hsu : Restartable su L rank) {thresholds : List LinearConstraint}
  (hr : r.Operable su.key { L with thresholds })

include hsu hr

theorem halts_drain_or_regainsForever : Halts (fun ρ => drain (computeNode su) ρ.fuel) r (fun _ r' =>
    r'.Operable su.key { L with thresholds := r.engine.thresholds ++ L.arena.guards su.transfer }) ∨ RegainsForever su r := by
  have hlisted := hsu.relist r.engine.thresholds
  exact halts_or_regainsForever hlisted.toWorkable hlisted.nodup (operable_relist hr _) (by rw [hr.arena])

/-- A pass and the descending passes after it halt unless the pass regains bounds forever. -/
theorem halts_pass (hregains : ¬ RegainsForever su r) : Halts (fun ρ => do
    drain (computeNode (su.under ρ)) ρ.fuel
    descendRounds (su.under ρ) (narrowNode (su.under ρ)) (su.options.roundsFor .classic)) r fun _ r' =>
      r'.Operable su.key { L with thresholds := r.engine.thresholds ++ L.arena.guards su.transfer } := by
  simp only [computeNode_under hsu.timeout, narrowNode_under hsu.timeout]
  have hpass := (halts_drain_or_regainsForever hsu hr).resolve_right hregains
  refine Halts.bind (hpass.mono fun _ r₁ hr₁ => ?_)
  exact (halts_descendRounds hsu.timeout (by rw [hsu.technique]; nofun)
    (fun x n hx hn => ensures_narrowNode (hsu.relist _).toWorkable hx hn) hsu.entry _ hr₁).mono fun _ r₂ hr₂ => hr₂.1

theorem halts_untilRestart (hregains : ¬ RegainsForever su r) : Halts (fun ρ => untilRestart (su.under ρ)) r fun _ r₁ =>
    ∃ thresholds, r₁.Operable su.key { L with thresholds } := by
  simp only [untilRestart, ← bind_assoc, regroup_under]
  refine Halts.bind ((halts_pass hsu hr hregains).mono fun _ r₁ hr₁ => ?_)
  exact (ensures_regroup (hsu.relist r.engine.thresholds) hr₁).halts

/-- A second pass has a state to work on from. -/
theorem Restarts.operable (h : Restarts su r r₁) : ∃ thresholds, r₁.Operable su.key { L with thresholds } := by
  obtain ⟨ρ, hyields⟩ := h
  have hregains : ¬ RegainsForever su r := by
    intro hforever
    rw [untilRestart, computeNode_under hsu.timeout] at hyields
    exact ((hforever.exhausts _).bind _).not_yields hyields
  obtain ⟨N, b, r₂, hhalts, hr₂⟩ := halts_untilRestart hsu hr hregains
  obtain ⟨-, rfl⟩ := (persists_untilRestart hsu.timeout).eq_of_yields hyields (hhalts ⟨ρ.clock, N⟩ le_rfl)
  exact hr₂

/-- A run halts unless one of its passes regains bounds forever. -/
theorem halts_passes (hregains : ¬ RegainsForever su r) (hregains' : ∀ r₁, Restarts su r r₁ → ¬ RegainsForever su r₁) :
    Halts (fun ρ => passes (su.under ρ)) r fun _ r' => ∃ L, r'.Operable su.key L := by
  obtain ⟨N, b, r₁, hyields, T, hr₁⟩ := halts_untilRestart hsu hr hregains
  refine Halts.bind ⟨N, b, r₁, hyields, ?_⟩
  cases b with
  | false => exact (ensures_pure.mpr ⟨_, hr₁⟩ : Ensures _ _ _).halts
  | true =>
    simp only [if_true]
    have hrestarts : Restarts su r r₁ := ⟨⟨su.resources.clock, N⟩, hyields _ le_rfl⟩
    exact (halts_pass hsu hr₁ (hregains' r₁ hrestarts)).mono fun _ r₂ hr₂ => ⟨_, hr₂⟩

end Passes

/-- One of the passes regains bounds forever. -/
def Diverges (su : Setup) (r : Run Ω Unit) : Prop :=
  RegainsForever su r ∨ ∃ r₁, Restarts su r r₁ ∧ RegainsForever su r₁

theorem Diverges.exhausts_passes (ht : su.options.timeout = none) (h : Diverges su r) (ρ : Resources) :
    Exhausts (passes (su.under ρ)) r := by
  rcases h with hregains | ⟨r₁, hrestarts, hregains⟩
  · exact hregains.exhausts_passes ht ρ
  · exact hrestarts.exhausts_passes ht hregains ρ

section Outcomes

variable [PathOracle Ω] {ctx : Context} {oracle : Ω} {r₀ : Run Ω Unit} (ht : su.options.technique = .classic)
  (hstart : Yields (do prepare su; push 0) ⟨.new su.options ctx oracle, ()⟩ () r₀) (name : String)

include ht hstart

theorem exists_outcome (h : Halts (fun ρ => passes (su.under ρ)) r₀ fun _ r' => ∃ L, r'.Operable su.key L) :
    ∃ N o c, (∀ ρ : Resources, N ≤ ρ.fuel → analyzeWith (su.under ρ) name oracle ctx = (.ok o, c)) ∧
      o.isCompleted = true := by
  have hrun : Halts (fun ρ => strategy.run (su.under ρ)) ⟨.new su.options ctx oracle, ()⟩ fun _ r =>
      (∃ L, r.Operable su.key L) ∧ True := by
    simp only [Strategy.run, strategy, computeFunction_eq, ← bind_assoc]
    exact Halts.bind ⟨0, (), r₀, fun _ _ => hstart, h.mono fun _ r hr => ⟨hr, trivial⟩⟩
  obtain ⟨N, o, c, -, houtcome, hcompleted, -⟩ := exists_outcome_of_halts su strategy name
    (fun ρ e => by simp only [runTechnique, Setup.under, ht]) hrun
  exact ⟨N, o, c, houtcome, hcompleted⟩

theorem outOfFuel_of_exhausts {ρ : Resources} (h : Exhausts (passes (su.under ρ)) r₀) :
    (analyzeWith (su.under ρ) name oracle ctx).1 = .error .outOfFuel := by
  have hrun : Exhausts (strategy.run (su.under ρ)) ⟨.new su.options ctx oracle, ()⟩ := by
    simp only [Strategy.run, strategy, computeFunction_eq, ← bind_assoc]
    exact Yields.exhausts_bind hstart h
  exact analyzeWith_of_exhausts strategy name (fun e => by simp only [runTechnique, Setup.under, ht]) hrun

end Outcomes

section Programs

variable {p : Program} {options : Options} {resources : Resources} {ctx : Context} {oracle : Ω} {r₀ : Run Ω Unit}
  (hp : p.graph.WellFormed) (ht : options.technique = .classic) (htimeout : options.timeout = none)
  (hctx : ctx.OfGraph p.graph.control) (hkinds : ctx.Respects p.transfer)
  (hstart : Yields (do prepare (p.setup options resources); push 0) ⟨.new options ctx oracle, ()⟩ () r₀)

include hp ht htimeout hctx hkinds hstart

theorem exists_restartable : ∃ L rank, L.arena = .build p.graph.control ∧
    Restartable (p.setup options resources) L rank ∧ r₀.Operable (p.setup options resources).key L := by
  have hg := hp.bounded
  obtain ⟨rank, hrank⟩ := Arena.exists_rank hg
  have hentry : 0 < (Arena.build p.graph.control).size := (List.getElem?_eq_some_iff.mp (Arena.blocks_zero hg)).1
  have hblocks : ctx.nodes.map (·.block) = (Arena.build p.graph.control).blocks :=
    hctx.blocks.trans (by rw [hctx.arena])
  obtain ⟨u, r, hprepare, hpush⟩ := yields_bind.mp hstart
  obtain rfl := yields_push.mp hpush
  obtain ⟨envs, hr⟩ : ∃ envs, r.Operable (p.setup options resources).key
      ⟨.build p.graph.control, envs, (Arena.build p.graph.control).guards p.transfer, 0, true⟩ := by
    refine operable_of_prepare _ hentry ?_ ?_ ?_ ?_ ?_ hprepare
    exacts [hctx.arena, hblocks, hkinds, rfl, rfl]
  refine ⟨_, rank, rfl, ⟨⟨htimeout, fun a ha b hb c hc => ?_, hentry, fun n hn t ht => Arena.successors_lt hg hn ht,
    fun n hn t ht => hrank n t hn ht⟩, fun n hn => Arena.nodup_successors hg p.graph.nodup_successors hn,
    fun n hn => Arena.lt_size_of_mem_wideningNodes hn, rfl, ht⟩, hr.push hentry⟩
  exact List.mem_flatMap.mpr ⟨a, ha, List.mem_flatMap.mpr ⟨b, hb, hc⟩⟩

/-- A classic run without a deadline completes, with one and the same outcome from some fuel on, if and only if none of
its passes regains bounds forever. Otherwise it comes to the end of any fuel. -/
theorem classic_terminates_iff [PathOracle Ω] (name : String) :
    ((∃ N o c, (∀ ρ : Resources, N ≤ ρ.fuel → analyzeWith (p.setup options ρ) name oracle ctx = (.ok o, c)) ∧
        o.isCompleted = true) ↔ ¬ Diverges (p.setup options resources) r₀) ∧
      (Diverges (p.setup options resources) r₀ →
        ∀ ρ : Resources, (analyzeWith (p.setup options ρ) name oracle ctx).1 = .error .outOfFuel) := by
  obtain ⟨L, rank, -, hsu, hr₀⟩ := exists_restartable hp ht htimeout hctx hkinds hstart
  have hexhausts : Diverges (p.setup options resources) r₀ → ∀ ρ : Resources,
      (analyzeWith (p.setup options ρ) name oracle ctx).1 = .error .outOfFuel := fun hdiverges ρ =>
    outOfFuel_of_exhausts ht hstart name (hdiverges.exhausts_passes htimeout ρ)
  refine ⟨⟨?_, fun hnot => ?_⟩, hexhausts⟩
  · rintro ⟨N, o, c, houtcome, -⟩ hdiverges
    have hboth := hexhausts hdiverges ⟨resources.clock, N⟩
    rw [houtcome _ le_rfl] at hboth
    cases hboth
  · rw [Diverges, not_or, not_exists] at hnot
    exact exists_outcome ht hstart name (halts_passes hsu hr₀ hnot.1 fun r₁ hrestarts hregains =>
      hnot.2 r₁ ⟨hrestarts, hregains⟩)

end Programs

/-- Classic iteration with a restart from the seeds, without a deadline. -/
def restarting : Options where
  technique := .classic
  seeded := true
  timeout := none

theorem classic_terminates_iff_counter : ∃ r₀,
    Yields (do prepare (Program.counter.setup restarting .ample); push 0) ⟨.new restarting
      (.build Program.counter.graph.control) (SearchOracle.new Program.counter.graph.control Program.counter.transfer), ()⟩
      () r₀ ∧ ¬ Diverges (Program.counter.setup restarting .ample) r₀ ∧
    ∃ N o c, (∀ ρ : Resources, N ≤ ρ.fuel → analyze (Program.counter.setup restarting ρ) "f"
      (.build Program.counter.graph.control) = (.ok o, c)) ∧ o.isCompleted = true := by
  obtain ⟨o, c, h, -⟩ := exists_of_completes (Program.counter.setup restarting .ample)
    (.build Program.counter.graph.control) (fun _ _ => true) (by decide +kernel)
  have hstart := yields_of_toOption (m := (do prepare (Program.counter.setup restarting .ample); push 0))
    (r := ⟨.new restarting (.build Program.counter.graph.control)
      (SearchOracle.new Program.counter.graph.control Program.counter.transfer), ()⟩) (a := ()) (by decide +kernel)
  obtain ⟨hiff, hexhausts⟩ := classic_terminates_iff Program.counter_wellFormed (show restarting.technique = .classic from rfl)
    rfl (Context.ofGraph_build _) (Context.respects_build _ _) hstart "f"
  have hcompletes := fun hnot => And.intro hnot (hiff.mpr hnot)
  refine ⟨_, hstart, hcompletes fun hdiverges => ?_⟩
  have hfuel : (analyze (Program.counter.setup restarting .ample) "f" (.build Program.counter.graph.control)).1 =
      .error .outOfFuel := hexhausts hdiverges .ample
  rw [h] at hfuel
  cases hfuel

/-- `z` is raised to one more than `x`, and then `x` to `z`. -/
def seesaw : Program where
  name := "seesaw"
  declared := [("x", some .int), ("y", some .int), ("z", some .int)]
  graph :=
    { payloads := [⟨[.assign "x" (.const 0), .assign "y" (.const 0), .assign "z" (.const 0)], none⟩, ⟨[], none⟩,
        ⟨[.assign "x" (.var "z"), .assign "y" (.const 0)], none⟩,
        ⟨[.assign "z" (.var "x" + .const 1), .assign "y" (.const 1)], none⟩]
      roles := []
      edges := [(0, 1, []), (1, 2, []), (2, 1, []), (1, 3, []), (3, 1, [])] }

/-- The stores at block 1. One step raises `z` above `x`, the next one makes `x` follow. -/
def Swings (j : ℕ) (σ : Store) : Prop := σ "x" = j / 2 ∧ σ "y" = j % 2 ∧ σ "z" = (j + 1) / 2

def level : LinearExpr := .var "x" + .var "y" - .var "z"

/-- What the first pass finds at the blocks after the entry. -/
def balance : Value := (Value.top .intervalEqualities (.ofInts ["x", "y", "z"])).constrainAll
  [.eq level, .ge (.var "x"), .ge (.var "y"), .ge (.const 1 - .var "y"), .ge (.var "z")]

theorem Swings.level {j : ℕ} {σ : Store} (h : Swings j σ) : level.eval σ = 0 := by
  obtain ⟨hx, hy, hz⟩ := h
  simp [Classic.level, hx, hy, hz]
  omega

theorem allows_balance {j : ℕ} {σ : Store} (h : Swings j σ) : balance.Allows σ.point := by
  refine Value.allows_constrainAll ?_ (Value.allows_top _ _ _)
  have hlevel := h.level
  obtain ⟨hx, hy, hz⟩ := h
  simp [LinearConstraint.holds, LinearConstraint.eq, LinearConstraint.ge, Comparison.holds, hx, hy, hz, hlevel]
  omega

theorem balance_facts : (balance.box.get "x").leq (.atLeast 0) = true ∧ (balance.box.get "y").leq (.closed 0 1) = true ∧
    level ∈ balance.eqs.rows := by decide +kernel

/-- Three of the stores determine the equation up to a factor. -/
theorem exists_scale_level {e : LinearExpr} (h : ∀ j ≤ 2, ∀ σ, Swings j σ → e.value σ.point = 0) :
    ∃ c : ℤ, e = level.scale c := by
  have hvalue : ∀ s t : Symbol, ∀ a b : ℤ, s ≠ t →
      e.value (Store.point (Function.update (Function.update (fun _ => 0) s a) t b)) =
        e.constant + e.coeff s * a + e.coeff t * b := by
    intro s t a b hst
    rw [Store.point_update, Store.point_update, LinearExpr.value_update_eq, LinearExpr.value_update_eq,
      Function.update_of_ne hst.symm, show Store.point (fun _ => 0) = 0 from rfl, LinearExpr.value_zero]
    simp
  have hzero := h 0 (by omega) (Function.update (Function.update (fun _ => 0) "x" 0) "y" 0) (by simp [Swings])
  have hone := h 1 (by omega) (Function.update (Function.update (fun _ => 0) "y" 1) "z" 1) (by simp [Swings])
  have htwo := h 2 (by omega) (Function.update (Function.update (fun _ => 0) "x" 1) "z" 1) (by simp [Swings])
  rw [hvalue _ _ _ _ (by decide)] at hzero hone htwo
  norm_cast at hzero hone htwo
  have hconstant : e.constant = 0 := by omega
  refine ⟨e.coeff "x", LinearExpr.ext_coeff (fun s => ?_) (by rw [hconstant]; exact (Int.zero_mul _).symm)⟩
  rw [LinearExpr.coeff_scale, level, LinearExpr.coeff_sub, LinearExpr.coeff_add]
  simp only [LinearExpr.var, LinearExpr.coeff_term]
  by_cases hx : s = "x"
  · simp [hx]
  by_cases hy : s = "y"
  · simp [hy]
    omega
  by_cases hz : s = "z"
  · simp [hz]
    omega
  · have hother := h 0 (by omega) (Function.update (Function.update (fun _ => 0) "x" 0) s 1)
      (by simp [Swings, Ne.symm hx, Ne.symm hy, Ne.symm hz])
    rw [hvalue _ _ _ _ (Ne.symm hx)] at hother
    norm_cast at hother
    simp [hx, hy, hz]
    omega

/-- The ranges of `x` and `z` go no further than the store with the given number. -/
def Below (k : ℕ) (v : Value) : Prop :=
  (v.box.get "x").leq (.closed 0 (k / 2)) = true ∧ (v.box.get "z").leq (.closed 0 ((k + 1) / 2)) = true

/-- The value holds the stores up to the one with the given number, and its ranges of `x` and `z` go no further. -/
structure Spans (k : ℕ) (v : Value) : Prop where
  holds : ∀ j ≤ k, ∀ σ, Swings j σ → v.Allows σ.point
  below : Below k v

theorem Below.mono {k l : ℕ} {v : Value} (h : Below k v) (hkl : k ≤ l) : Below l v := by
  refine ⟨Interval.leq_trans h.1 (Interval.leq_iff.mpr fun n hn => ?_),
    Interval.leq_trans h.2 (Interval.leq_iff.mpr fun n hn => ?_)⟩ <;>
  · rw [Interval.mem_closed] at hn ⊢
    omega

section Balance

variable {k : ℕ} {u v y M : Value}

theorem exists_swings (j : ℕ) : ∃ σ, Swings j σ :=
  ⟨fun s => if s = "x" then j / 2 else if s = "y" then j % 2 else (j + 1) / 2, by simp [Swings]⟩

/-- A range between those of the first and the last store is in the value. -/
theorem Spans.leq_get {s : Symbol} {i : Interval} {a b : ℤ} (h : Spans k v) (ha : ∀ σ, Swings 0 σ → σ s = a)
    (hb : ∀ σ, Swings k σ → σ s = b) (hi : i.leq (.closed a b) = true) : i.leq (v.box.get s) = true := by
  obtain ⟨σ, hσ⟩ := exists_swings 0
  obtain ⟨τ, hτ⟩ := exists_swings k
  have hlo := Interval.admits_intCast.mp ((h.holds 0 (Nat.zero_le k) σ hσ).1 s)
  have hhi := Interval.admits_intCast.mp ((h.holds k le_rfl τ hτ).1 s)
  rw [ha σ hσ] at hlo
  rw [hb τ hτ] at hhi
  exact Interval.leq_of_mem hlo hhi hi

variable (hM : ∀ j ≤ k, ∀ σ, Swings j σ → M.Allows σ.point) (hk : 2 ≤ k) (hr : M.isRelational = true)

include hM hk hr

theorem exists_scale_of_mem {e : LinearExpr} (he : e ∈ M.allEqualities.rows) : ∃ c : ℤ, e = level.scale c :=
  exists_scale_level fun j hj σ hσ =>
    (Value.solvedBy_allEqualities (hM j (hj.trans hk) σ hσ).1).mpr ((hM j (hj.trans hk) σ hσ).2 hr) e he

/-- The equation of what is known is left. -/
theorem exists_level_row (heqs : M.eqs = u.eqs.meet balance.eqs) : ∃ c ≠ 0, level.scale c ∈ M.allEqualities.rows := by
  by_contra hnone
  have hsolved : M.allEqualities.SolvedBy (Function.update 0 "x" 1) := by
    intro e he
    obtain ⟨c, rfl⟩ := exists_scale_of_mem hM hk hr he
    obtain rfl : c = 0 := by_contra fun hc => hnone ⟨c, hc, he⟩
    simp [LinearExpr.value_scale]
  have hmeet := (Value.solvedBy_allEqualities_iff.mp hsolved).1
  rw [heqs, Equalities.solvedBy_meet] at hmeet
  have hlevel := hmeet.2 level balance_facts.2.2
  simp [level, LinearExpr.value_sub, LinearExpr.value_add] at hlevel

/-- What is left of the ranges is attained on the plane of the equation. -/
theorem exists_of_mem_balanced (heqs : M.eqs = u.eqs.meet balance.eqs) {s : Symbol} (hs : s ∈ ["x", "z"])
    (hint : M.isIntegral s = true) {n : ℤ} (hn : n ∈ M.reduce.box.get s) :
    ∃ m, M.box.Admits m ∧ m s = n ∧ m "x" + m "y" = m "z" := by
  obtain ⟨c, hc, hrow⟩ := exists_level_row hM hk hr heqs
  have hcoeff : (level.scale c).coeff s ≠ 0 := by
    have hlevel : ∀ s ∈ ["x", "z"], level.coeff s ≠ 0 := by decide
    rw [LinearExpr.coeff_scale]
    exact mul_ne_zero (hlevel s hs) hc
  obtain ⟨m, hm, hmn, hvalue⟩ := Value.exists_of_mem_reduce hr hrow hcoeff hint hn
  refine ⟨m, hm, hmn, ?_⟩
  rw [LinearExpr.value_scale, mul_eq_zero, or_iff_left (Int.cast_ne_zero.mpr hc)] at hvalue
  simp only [level, LinearExpr.value_sub, LinearExpr.value_add, LinearExpr.value_var] at hvalue
  linarith

omit hM hk hr in
/-- The equation passes the bound of one range on to the other. -/
theorem bounds_of_kept {m : Valuation} (hm : u.box.Admits m) (hbalance : balance.box.Admits m)
    (hkept : (u.box.get "x").leq (.closed 0 (k / 2)) = true ∨ (u.box.get "z").leq (.closed 0 ((k + 1) / 2)) = true)
    (hlevel : m "x" + m "y" = m "z") :
    (0 ≤ m "x" ∧ m "x" ≤ ((k + 1) / 2 : ℤ)) ∧ 0 ≤ m "z" ∧ m "z" ≤ ((k + 2) / 2 : ℤ) := by
  obtain ⟨hx, hy, -⟩ := balance_facts
  have hx₀ := (Interval.bounds_of_admits_make (Interval.admits_of_leq hx (hbalance "x"))).1 0 rfl
  obtain ⟨hy₀, hy₁⟩ := Interval.bounds_of_admits_make (Interval.admits_of_leq hy (hbalance "y"))
  replace hy₀ := hy₀ 0 rfl
  replace hy₁ := hy₁ 1 rfl
  push_cast at hx₀ hy₀ hy₁
  rcases hkept with hkept | hkept
  · have hle := (Interval.bounds_of_admits_make (Interval.admits_of_leq hkept (hm "x"))).2 _ rfl
    have hhalf : ((k / 2 : ℤ) : ℚ) ≤ ((k + 1) / 2 : ℤ) := by
      rw [Int.cast_le]
      omega
    have hnext : ((k / 2 : ℤ) : ℚ) + 1 = ((k + 2) / 2 : ℤ) := by
      rw [show ((k : ℤ) + 2) / 2 = k / 2 + 1 by omega]
      push_cast
      ring
    refine ⟨⟨hx₀, hle.trans hhalf⟩, ?_, ?_⟩ <;> linarith
  · have hle := (Interval.bounds_of_admits_make (Interval.admits_of_leq hkept (hm "z"))).2 _ rfl
    have hhalf : (((k + 1) / 2 : ℤ) : ℚ) ≤ ((k + 2) / 2 : ℤ) := by
      rw [Int.cast_le]
      omega
    refine ⟨⟨hx₀, ?_⟩, ?_, hle.trans hhalf⟩ <;> linarith

/-- The next store is in the box if its numbers are in the ranges. -/
theorem allows_succ (hx : ((k + 1) / 2 : ℤ) ∈ M.box.get "x") (hz : ((k + 2) / 2 : ℤ) ∈ M.box.get "z") {σ : Store}
    (hσ : Swings (k + 1) σ) : M.Allows σ.point := by
  refine ⟨fun s => ?_, fun _ => ?_⟩
  · rw [Store.point, Interval.admits_intCast]
    by_cases hsx : s = "x"
    · rw [hsx, hσ.1]
      exact_mod_cast hx
    by_cases hsz : s = "z"
    · rw [hsz, hσ.2.2]
      exact_mod_cast hz
    -- The other symbols have the same values in one of the first two stores.
    · have hearly : Swings ((k + 1) % 2) (Function.update (Function.update σ "x" 0) "z" ((k + 1) % 2)) := by
        refine ⟨?_, ?_, ?_⟩
        · simp
          omega
        · simp [hσ.2.1]
        · simp
          omega
      have hmem := Interval.admits_intCast.mp ((hM _ (by omega) _ hearly).1 s)
      rwa [Function.update_of_ne hsz, Function.update_of_ne hsx] at hmem
  · refine (Value.solvedBy_allEqualities_iff.mp fun e he => ?_).1
    obtain ⟨c, rfl⟩ := exists_scale_of_mem hM hk hr he
    rw [LinearExpr.value_scale, LinearExpr.value_point, hσ.level]
    simp

variable (hbox : M.box = u.box.meet balance.box) (heqs : M.eqs = u.eqs.meet balance.eqs)
  (hint : ∀ s ∈ ["x", "z"], M.isIntegral s = true)
  (hkept : (u.box.get "x").leq (.closed 0 (k / 2)) = true ∨ (u.box.get "z").leq (.closed 0 ((k + 1) / 2)) = true)

include hbox heqs hint hkept

theorem below_reduce : Below (k + 1) M.reduce := by
  have hattained : ∀ s ∈ ["x", "z"], ∀ n, n ∈ M.reduce.box.get s → ∃ m : Valuation, m s = n ∧
      (0 ≤ m "x" ∧ m "x" ≤ ((k + 1) / 2 : ℤ)) ∧ 0 ≤ m "z" ∧ m "z" ≤ ((k + 2) / 2 : ℤ) := by
    intro s hs n hn
    obtain ⟨m, hm, hmn, hlevel⟩ := exists_of_mem_balanced hM hk hr heqs hs (hint s hs) hn
    rw [hbox, Box.admits_meet] at hm
    exact ⟨m, hmn, bounds_of_kept hm.1 hm.2 hkept hlevel⟩
  constructor <;> refine Interval.leq_iff.mpr fun n hn => Interval.mem_closed.mpr ?_
  · obtain ⟨m, hmn, hbounds, -⟩ := hattained "x" (by simp) n hn
    rw [hmn] at hbounds
    exact_mod_cast hbounds
  · obtain ⟨m, hmn, -, hbounds⟩ := hattained "z" (by simp) n hn
    rw [hmn] at hbounds
    exact_mod_cast hbounds

/-- The ranges go as far as before or to the next store, which the value then holds. -/
theorem spans_reduce : Spans k M.reduce ∨ Spans (k + 1) M.reduce := by
  have hallows : ∀ {σ : Store}, M.reduce.Allows σ.point ↔ M.Allows σ.point :=
    Value.allows_reduce (Environment.integralAt_point _ _)
  have hbelow := below_reduce hM hk hr hbox heqs hint hkept
  have hholds : ∀ j ≤ k, ∀ σ, Swings j σ → M.reduce.Allows σ.point := fun j hj σ hσ => hallows.mpr (hM j hj σ hσ)
  by_cases hnext : ((k + 1) / 2 : ℤ) ∈ M.reduce.box.get "x" ∧ ((k + 2) / 2 : ℤ) ∈ M.reduce.box.get "z"
  · have hx := Interval.leq_iff.mp (M.get_reduce_leq "x") _ hnext.1
    have hz := Interval.leq_iff.mp (M.get_reduce_leq "z") _ hnext.2
    refine .inr ⟨fun j hj σ hσ => ?_, hbelow⟩
    rcases Nat.le_succ_iff.mp hj with hj | rfl
    · exact hholds j hj σ hσ
    · exact hallows.mpr (allows_succ hM hk hr hx hz hσ)
  -- One of the two numbers is that of the last store, which is there.
  · refine .inl ⟨hholds, ?_⟩
    obtain ⟨σ, hσ⟩ := exists_swings k
    have hx := Interval.admits_intCast.mp ((hholds k le_rfl σ hσ).1 "x")
    have hz := Interval.admits_intCast.mp ((hholds k le_rfl σ hσ).1 "z")
    rw [hσ.1] at hx
    rw [hσ.2.2] at hz
    have hbounds : (∀ n, n ∈ M.reduce.box.get "x" → 0 ≤ n ∧ n ≤ (k + 1) / 2) ∧
        ∀ n, n ∈ M.reduce.box.get "z" → 0 ≤ n ∧ n ≤ (k + 2) / 2 := by
      refine ⟨fun n hn => ?_, fun n hn => ?_⟩
      · exact_mod_cast Interval.mem_closed.mp (Interval.leq_iff.mp hbelow.1 n hn)
      · exact_mod_cast Interval.mem_closed.mp (Interval.leq_iff.mp hbelow.2 n hn)
    have hleft : ∀ n, n ∈ M.reduce.box.get "x" → n ≤ k / 2 := by
      intro n hn
      by_contra hlt
      obtain rfl : n = (k + 1) / 2 := by have := hbounds.1 n hn; omega
      exact hnext ⟨hn, by rwa [show ((k : ℤ) + 2) / 2 = (k + 1) / 2 by omega]⟩
    have hright : ∀ n, n ∈ M.reduce.box.get "z" → n ≤ (k + 1) / 2 := by
      intro n hn
      by_contra hlt
      obtain rfl : n = (k + 2) / 2 := by have := hbounds.2 n hn; omega
      exact hnext ⟨by rwa [show ((k : ℤ) + 1) / 2 = k / 2 by omega], hn⟩
    exact ⟨Interval.leq_iff.mpr fun n hn => Interval.mem_closed.mpr ⟨(hbounds.1 n hn).1, hleft n hn⟩,
      Interval.leq_iff.mpr fun n hn => Interval.mem_closed.mpr ⟨(hbounds.2 n hn).1, hright n hn⟩⟩

end Balance

theorem Spans.meet {k : ℕ} {u y : Value} (hk : 2 ≤ k) (hd : u.domain = .intervalEqualities)
    (hu : ∀ j ≤ k, ∀ σ, Swings j σ → u.Allows σ.point)
    (hkept : (u.box.get "x").leq (.closed 0 (k / 2)) = true ∨ (u.box.get "z").leq (.closed 0 ((k + 1) / 2)) = true)
    (h : u.meet balance = .ok y) (hint : ∀ s ∈ ["x", "z"], y.isIntegral s = true) : Spans k y ∨ Spans (k + 1) y := by
  obtain ⟨env, -, hy⟩ := Value.meet_eq h
  have hlive : ¬ u.isBottom = true := by
    obtain ⟨σ, hσ⟩ := exists_swings 0
    exact fun hb => Value.not_allows_of_isBottom hb _ (hu 0 (Nat.zero_le k) σ hσ)
  rw [if_neg hlive] at hy
  subst hy
  refine spans_reduce (u := u) ?_ hk ?_ rfl rfl ?_ hkept
  · exact fun j hj σ hσ => ⟨Box.admits_meet.mpr ⟨(hu j hj σ hσ).1, (allows_balance hσ).1⟩, fun hr =>
      (Equalities.solvedBy_meet _ _ _).mpr ⟨(hu j hj σ hσ).2 hr, (allows_balance hσ).2 rfl⟩⟩
  · simp [Value.isRelational, hd]
  · intro s hs
    have hs' := hint s hs
    rwa [Value.isIntegral, Value.env_reduce] at hs'

section Edges

variable {k n p : ℕ} {v x : Value} {L : Layout} {s : Slots Disjunction} {i : Disjunction}

/-- Towards block 1 the image keeps one of the two bounds, and away from it both. -/
theorem kept_of_edge (hedge : (n, p) ∈ [(0, 1), (1, 2), (1, 3), (2, 1), (3, 1)]) (hv : n ≠ 0 → Below k v)
    (henv : ∀ s ∈ ["x", "z"], (L.envs p).contains s = true) :
    (((L.image seesaw.transfer ⟨[n, p]⟩ p v).box.get "x").leq (.closed 0 (k / 2)) = true ∨
      ((L.image seesaw.transfer ⟨[n, p]⟩ p v).box.get "z").leq (.closed 0 ((k + 1) / 2)) = true) ∧
      (p ≠ 1 → Below k (L.image seesaw.transfer ⟨[n, p]⟩ p v)) := by
  have hwith : ∀ {u : Value} {s : Symbol} {i : Interval}, s ∈ ["x", "z"] → (u.box.get s).leq i = true →
      ((u.withEnv (L.envs p)).box.get s).leq i = true := fun hs hle =>
    Interval.leq_trans (Value.get_withEnv_leq (henv _ hs)) hle
  have hother : ∀ {u : Value} {s t : Symbol} {e : LinearExpr} {i : Interval}, t ≠ s → (u.box.get t).leq i = true →
      ((u.assign s e).box.get t).leq i = true := fun hts hle =>
    Interval.leq_trans (Value.get_assign_of_ne_leq _ hts _) hle
  have haway : n ≠ 0 → Below k (v.withEnv (L.envs p)) := fun hn =>
    ⟨hwith (by simp) (hv hn).1, hwith (by simp) (hv hn).2⟩
  simp only [List.mem_cons, Prod.mk.injEq, List.not_mem_nil, or_false] at hedge
  rcases hedge with ⟨rfl, rfl⟩ | ⟨rfl, rfl⟩ | ⟨rfl, rfl⟩ | ⟨rfl, rfl⟩ | ⟨rfl, rfl⟩
  · have hzero : ((v.assign "x" (.const 0)).box.get "x").leq (.closed 0 (k / 2)) = true := by
      refine Interval.leq_trans (v.get_assign_self_leq "x" (.const 0)) (Interval.leq_iff.mpr fun n hn => ?_)
      obtain rfl : n = 0 := Interval.mem_point.mp hn
      rw [Interval.mem_closed]
      omega
    exact ⟨.inl (hwith (by simp) (hother (by decide) (hother (by decide) hzero))), nofun⟩
  · exact ⟨.inl (haway (by simp)).1, fun _ => haway (by simp)⟩
  · exact ⟨.inl (haway (by simp)).1, fun _ => haway (by simp)⟩
  · exact ⟨.inr (hwith (by simp) (hother (by decide) (hother (by decide) (hv (by simp)).2))), nofun⟩
  · exact ⟨.inl (hwith (by simp) (hother (by decide) (hother (by decide) (hv (by simp)).1))), nofun⟩

/-- The kind of the values. -/
def relational : ValueKind := ⟨.intervalEqualities, false, nofun⟩

/-- Widening leaves the bound alone that the image keeps, and the equation gives the other one back, at most one store
further on. -/
theorem Spans.widen {w : Value} {thresholds : List LinearConstraint} (h : Spans k v) (hk : 2 ≤ k)
    (hv : v.OfKind relational) (hw : w.OfKind relational)
    (hkept : (w.box.get "x").leq (.closed 0 (k / 2)) = true ∨ (w.box.get "z").leq (.closed 0 ((k + 1) / 2)) = true)
    (hx : (Value.widenAligned thresholds v w).meet balance = .ok x) (hint : ∀ s ∈ ["x", "z"], x.isIntegral s = true) :
    Spans k x ∨ Spans (k + 1) x := by
  refine Spans.meet hk (hv.widenAligned hw thresholds).1 (fun j hj σ hσ => ?_) (hkept.imp (fun hle => ?_) fun hle => ?_) hx hint
  · exact Value.allows_widenAligned hv hw thresholds (.inl (h.holds j hj σ hσ))
  · have hin := h.leq_get (fun _ hσ => hσ.1) (fun _ hσ => hσ.1) hle
    exact Interval.leq_trans (Value.get_widenAligned_leq hin) h.below.1
  · have hin := h.leq_get (fun _ hσ => hσ.2.2) (fun _ hσ => hσ.2.2) hle
    exact Interval.leq_trans (Value.get_widenAligned_leq hin) h.below.2

/-- What holds of the slots of a node while the ranges go no further than the store with the given number. -/
structure Poised (k n : ℕ) (s : Slots Disjunction) : Prop where
  kind : s.stable.first.OfKind relational
  known : n ≠ 0 → s.known.first = balance
  below : n ≠ 0 → Below k s.stable.first
  holds : n = 1 → ∀ j ≤ k, ∀ σ, Swings j σ → s.stable.first.Allows σ.point

theorem Poised.mono {l : ℕ} (h : Poised k n s) (hn : n ≠ 1) (hkl : k ≤ l) : Poised l n s :=
  ⟨h.kind, h.known, fun h0 => (h.below h0).mono hkl, fun h1 => absurd h1 hn⟩

theorem Poised.next (hk : 2 ≤ k) (hs : Poised k p s) (hover : s.Over (L.envs p) L.informed)
    (hwidening : L.arena.cuts.isWidening p = decide (p = 1))
    (hedge : (n, p) ∈ [(0, 1), (1, 2), (1, 3), (2, 1), (3, 1)]) (hkind : v.OfKind relational) (hv : n ≠ 0 → Below k v)
    (hx : L.Next p s.known.first s.stable.first (L.image seesaw.transfer ⟨[n, p]⟩ p v) x) (henv : x.env = L.envs p) :
    ∃ l ≥ k, (p ≠ 1 → l = k) ∧ Poised l p { s with stable := s.stable.set 0 x, initial := i } := by
  have h0 : p ≠ 0 := by
    rintro rfl
    simp at hedge
  have hknown := hs.known h0
  have hbalance : balance.env = L.envs p := hknown ▸ hover.known
  have hcontains : ∀ s ∈ ["x", "z"], balance.env.contains s = true ∧ balance.isIntegral s = true := by decide +kernel
  obtain ⟨hkept, haway⟩ := kept_of_edge hedge hv fun s hs => hbalance ▸ (hcontains s hs).1
  have hw : (L.image seesaw.transfer ⟨[n, p]⟩ p v).OfKind relational :=
    ((seesaw.transfer_follows relational).ofKind_along hkind _).withEnv _
  obtain ⟨u, hu, hmeet⟩ := hx
  rw [hknown, if_neg (show ¬ balance.isBottom = true by decide +kernel)] at hmeet
  have hxkind : u.OfKind relational → x.OfKind relational := fun h => h.meet ⟨by decide +kernel, nofun⟩ hmeet
  by_cases hp : p = 1
  · have hspans : Spans k s.stable.first := ⟨hs.holds hp, hs.below h0⟩
    rw [hwidening, if_pos (by simpa using hp)] at hu
    obtain ⟨thresholds, -, rfl⟩ := hu
    have hukind := hs.kind.widenAligned hw thresholds
    have hint : ∀ s ∈ ["x", "z"], x.isIntegral s = true := by
      intro s hs
      rw [Value.isIntegral, henv, ← hbalance]
      exact (hcontains s hs).2
    rcases hspans.widen hk hs.kind hw hkept hmeet hint with hx | hx
    · exact ⟨k, le_rfl, fun _ => rfl, hxkind hukind, fun _ => hknown, fun _ => hx.below, fun _ => hx.holds⟩
    · exact ⟨k + 1, Nat.le_succ k, fun h => absurd hp h, hxkind hukind, fun _ => hknown, fun _ => hx.below, fun _ => hx.holds⟩
  · rw [hwidening, if_neg (by simpa using hp)] at hu
    subst hu
    refine ⟨k, le_rfl, fun _ => rfl, hxkind (hw.joinAligned hs.kind), fun _ => hknown, fun _ => ?_, fun h => absurd h hp⟩
    have hbelow := haway hp
    exact ⟨Interval.leq_trans (Value.get_meet_leq hmeet "x") (Value.get_joinAligned_leq hbelow.1 (hs.below h0).1),
      Interval.leq_trans (Value.get_meet_leq hmeet "z") (Value.get_joinAligned_leq hbelow.2 (hs.below h0).2)⟩

end Edges

theorem seesaw_arena : (Arena.build seesaw.graph.control).blocks = [0, 1, 2, 3] ∧ ∀ n < 4,
    (Arena.build seesaw.graph.control).cuts.isWidening n = decide (n = 1) ∧
      ∀ p ∈ (Arena.build seesaw.graph.control).successors n, (n, p) ∈ [(0, 1), (1, 2), (1, 3), (2, 1), (3, 1)] := by
  decide +kernel

theorem size_of_seesaw {L : Layout} (hL : L.arena = .build seesaw.graph.control) : L.arena.size = 4 := by
  rw [hL, Arena.size, seesaw_arena.1]
  rfl

section Pass

variable {Ω : Type} {ρ : Resources} {L : Layout} {rank : ℕ → ℕ} {k n p : ℕ} {r r' : Run Ω Unit} {v : Value}

/-- The slots of all nodes are poised. -/
def Sways (L : Layout) (k : ℕ) (r : Run Ω Unit) : Prop :=
  r.Operable restarting.key L ∧ ∀ n s, r.slots? restarting.key n = some s → Poised k n s

variable (hsu : Workable (seesaw.setup restarting ρ) L rank) (hL : L.arena = .build seesaw.graph.control) (hk : 2 ≤ k)

include hsu hL hk

theorem ensures_ascendEdge_sways (hr : Sways L k r) (hn : n < L.arena.size) (hp : p ∈ L.arena.successors n)
    (hkind : v.OfKind relational) (hv : n ≠ 0 → Below k v) :
    Ensures (ascendEdge (seesaw.setup restarting ρ) n v p) r fun _ r' => ∃ l ≥ k, Sways L l r' := by
  obtain ⟨hblocks, hedges⟩ := seesaw_arena
  have hlt := hsu.successors n hn p hp
  have hsize := size_of_seesaw hL
  have hedge := (hedges n (hsize ▸ hn)).2 p (hL ▸ hp)
  refine (ensures_ascendEdge hsu.timeout hsu.lists hr.1 hn hlt).mono ?_
  rintro grown r' ⟨hr', ⟨-, hq⟩ | ⟨-, a, b, s, x, i, ha, hb, hs, -, hnext, hstores⟩⟩
  · exact ⟨k, le_rfl, hr', fun m t ht => hr.2 m t ((hq.slots? _ m).symm.trans ht)⟩
  · have hblock : ∀ m < 4, [0, 1, 2, 3][m]? = some m := by decide
    rw [hL, hblocks, hblock _ (hsize ▸ hn)] at ha
    rw [hL, hblocks, hblock _ (hsize ▸ hlt)] at hb
    obtain rfl := Option.some.inj ha
    obtain rfl := Option.some.inj hb
    obtain ⟨t, ht, hover⟩ := hr.1.slots p hlt
    obtain rfl : t = s := Option.some.inj (ht.symm.trans hs)
    obtain ⟨t', ht', hover'⟩ := hr'.slots p hlt
    have hslot := (hstores.slots p).symm.trans ht'
    rw [if_pos rfl] at hslot
    obtain rfl := Option.some.inj hslot
    obtain ⟨l, hkl, hsame, hpoised⟩ := (hr.2 p t hs).next (i := i) hk hover (hL ▸ (hedges p (hsize ▸ hlt)).1) hedge hkind hv
      hnext hover'.stable
    refine ⟨l, hkl, hr', fun m u hu => ?_⟩
    replace hu := (hstores.slots m).symm.trans hu
    split at hu
    · rename_i hmp
      obtain rfl := Option.some.inj hu
      exact hmp ▸ hpoised
    · rename_i hmp
      by_cases hm : m = 1
      · rw [hsame fun hp => hmp (hm.trans hp.symm)]
        exact hr.2 m u hu
      · exact (hr.2 m u hu).mono hm hkl

theorem ensures_computeNode_sways (hr : Sways L k r) (hn : n < L.arena.size) :
    Ensures (computeNode (seesaw.setup restarting ρ) n) r fun _ r' => ∃ l ≥ k, Sways L l r' := by
  have hmark : Sways L k (r.mark n true) := ⟨hr.1.mark n true, hr.2⟩
  obtain ⟨s, hs, -⟩ := hmark.1.slots n hn
  have hpoised := hr.2 n s hs
  rw [computeNode, ensures_bind, ensures_setComputed (hr.1.computed.symm ▸ hn), ensures_bind, ensures_value hs]
  split
  · exact ensures_pure.mpr ⟨k, le_rfl, hmark⟩
  · rw [ensures_bind, ensures_arena, hmark.1.arena]
    refine ensures_forM (I := fun x => ∃ l ≥ k, Sways L l x) ⟨k, le_rfl, hmark⟩ ?_
    rintro p hp x ⟨l, hkl, hx⟩
    refine ensures_bind.mpr ((ensures_ascendEdge_sways hsu hL (hk.trans hkl) hx hn hp hpoised.kind
      fun h0 => (hpoised.below h0).mono hkl).mono ?_)
    rintro _ x' ⟨l', hll', hx'⟩
    exact ensures_pure.mpr ⟨l', hkl.trans hll', hx'⟩

/-- The ranges are bounded still when the pass comes to an end. -/
theorem sways_of_drain (hr : Sways L k r) {fuel : ℕ} (h : Yields (drain (computeNode (seesaw.setup restarting ρ)) fuel) r () r') :
    ∃ l ≥ k, Sways L l r' := by
  refine (yields_drain (I := fun x => ∃ l ≥ k, Sways L l x) h ⟨k, le_rfl, hr⟩ ?_ ?_).1
  · rintro x n label queue ⟨l, hkl, hx⟩ hq -
    exact ⟨l, hkl, hx.1.pop hq, hx.2⟩
  · rintro x n label queue x' ⟨l, hkl, hx⟩ hq hvisit
    have hn : n < L.arena.size := hx.1.waiting n (by simp [Waits, Worklist.nodes, hq])
    obtain ⟨l', hll', hx'⟩ := (ensures_computeNode_sways hsu hL (hk.trans hkl)
      (show Sways L l (x.pop queue) from ⟨hx.1.pop hq, hx.2⟩) hn).of_yields hvisit
    exact ⟨l', hkl.trans hll', hx'⟩

end Pass

/-- The stores that are in reach at the nodes. -/
def Visited (n : ℕ) (σ : Store) : Prop := n = 0 ∨ ∃ j, Swings j σ

theorem visited_step (n : ℕ) (σ : Store) (p : ℕ) (σ' : Store) (hσ : Visited n σ)
    (h : (Arena.build seesaw.graph.control).EdgeStep seesaw.Step n σ p σ') : Visited p σ' := by
  obtain ⟨hp, a, b, ha, hb, -, hbody, -⟩ := h
  obtain ⟨hblocks, hedges⟩ := seesaw_arena
  have hn : n < 4 := by
    rw [hblocks] at ha
    exact (List.getElem?_eq_some_iff.mp ha).1
  have hedge := (hedges n hn).2 p hp
  rw [hblocks] at ha
  simp only [List.mem_cons, Prod.mk.injEq, List.not_mem_nil, or_false] at hedge
  rcases hedge with ⟨rfl, rfl⟩ | ⟨rfl, rfl⟩ | ⟨rfl, rfl⟩ | ⟨rfl, rfl⟩ | ⟨rfl, rfl⟩ <;> obtain rfl := Option.some.inj ha
  · obtain _ | ⟨⟨⟩, _ | ⟨⟨⟩, _ | ⟨⟨⟩, ⟨⟩⟩⟩⟩ := (hbody : Statement.Runs
      [.assign "x" (.const 0), .assign "y" (.const 0), .assign "z" (.const 0)] σ σ')
    exact .inr ⟨0, by simp [Swings]⟩
  · obtain ⟨⟩ := (hbody : Statement.Runs [] σ σ')
    exact .inr (hσ.resolve_left (by simp))
  · obtain ⟨⟩ := (hbody : Statement.Runs [] σ σ')
    exact .inr (hσ.resolve_left (by simp))
  · obtain ⟨j, hx, hy, hz⟩ := hσ.resolve_left (by simp)
    obtain _ | ⟨⟨⟩, _ | ⟨⟨⟩, ⟨⟩⟩⟩ := (hbody : Statement.Runs [.assign "x" (.var "z"), .assign "y" (.const 0)] σ σ')
    refine .inr ⟨2 * ((j + 1) / 2), ?_⟩
    simp [Swings, hz]
    omega
  · obtain ⟨j, hx, hy, hz⟩ := hσ.resolve_left (by simp)
    obtain _ | ⟨⟨⟩, _ | ⟨⟨⟩, ⟨⟩⟩⟩ := (hbody : Statement.Runs [.assign "z" (.var "x" + .const 1), .assign "y" (.const 1)] σ σ')
    refine .inr ⟨2 * (j / 2) + 1, ?_⟩
    simp [Swings, hx]
    omega

theorem edgeStep_of_runs {n p : ℕ} {σ σ' : Store} (hedge : (n, p) ∈ [(0, 1), (1, 2), (1, 3), (2, 1), (3, 1)])
    (h : Statement.Runs (seesaw.statements n) σ σ') :
    (Arena.build seesaw.graph.control).EdgeStep seesaw.Step n σ p σ' := by
  have hedges : ∀ e ∈ [(0, 1), (1, 2), (1, 3), (2, 1), (3, 1)],
      e.2 ∈ (Arena.build seesaw.graph.control).successors e.1 ∧ e.2 ∈ seesaw.graph.successors e.1 ∧
        seesaw.guards e.1 e.2 = [] ∧ [0, 1, 2, 3][e.1]? = some e.1 ∧ [0, 1, 2, 3][e.2]? = some e.2 := by decide +kernel
  obtain ⟨hsuccessor, hstep, hguards, hn, hp⟩ := hedges (n, p) hedge
  rw [← seesaw_arena.1] at hn hp
  exact ⟨hsuccessor, n, p, hn, hp, hstep, h, by simp [hguards]⟩

/-- Values that the program does not leave hold all the stores at block 1. -/
theorem stable_of_covered_swings {Ω : Type} {r : Run Ω Unit}
    (hcov : ∀ n, r.Covered restarting.key Visited ((Arena.build seesaw.graph.control).EdgeStep seesaw.Step) n)
    {σ₀ : Store} (h₀ : r.Stable restarting.key 0 σ₀) (j : ℕ) : ∃ σ, Swings j σ ∧ r.Stable restarting.key 1 σ := by
  induction j with
  | zero =>
    have hstep := edgeStep_of_runs (n := 0) (p := 1) (σ := σ₀) (by simp)
      (.cons (.assign "x" (.const 0) _) (.cons (.assign "y" (.const 0) _) (.cons (.assign "z" (.const 0) _) (.nil _))))
    exact ⟨_, by simp [Swings], hcov 0 _ _ _ (.inl rfl) h₀ hstep⟩
  | succ j ih =>
    obtain ⟨σ, hσ, hstable⟩ := ih
    obtain ⟨hx, hy, hz⟩ := id hσ
    rcases Nat.mod_two_eq_zero_or_one j with hparity | hparity
    · have hthree := hcov 1 _ _ _ (.inr ⟨j, hσ⟩) hstable (edgeStep_of_runs (p := 3) (by simp) (.nil _))
      have hback := hcov 3 _ _ _ (.inr ⟨j, hσ⟩) hthree (edgeStep_of_runs (p := 1) (by simp)
        (.cons (.assign "z" (.var "x" + .const 1) _) (.cons (.assign "y" (.const 1) _) (.nil _))))
      refine ⟨_, ?_, hback⟩
      simp [Swings, hx]
      omega
    · have htwo := hcov 1 _ _ _ (.inr ⟨j, hσ⟩) hstable (edgeStep_of_runs (p := 2) (by simp) (.nil _))
      have hback := hcov 2 _ _ _ (.inr ⟨j, hσ⟩) htwo (edgeStep_of_runs (p := 1) (by simp)
        (.cons (.assign "x" (.var "z") _) (.cons (.assign "y" (.const 0) _) (.nil _))))
      refine ⟨_, ?_, hback⟩
      simp [Swings, hz]
      omega

/-- The entry knows nothing, and the other nodes know what the first pass has found. -/
def isPrimed (n : ℕ) (s : Slots Disjunction) : Bool :=
  if n = 0 then [s.stable, s.descending, s.initial, s.known].all fun d => d.first == .top .intervalEqualities d.first.env
  else s.known.first == balance && [s.stable, s.descending, s.initial].all fun d => d.first.domain == .intervalEqualities

theorem lawful_of_isPrimed {n : ℕ} {s : Slots Disjunction} (h : isPrimed n s = true) :
    SlotsLawful relational Visited n s := by
  unfold isPrimed at h
  split at h
  · rename_i h0
    simp only [List.all_cons, List.all_nil, Bool.and_true, Bool.and_eq_true, beq_iff_eq] at h
    obtain ⟨hstable, hdescending, hinitial, hknown⟩ := h
    have htop : ∀ {v : Value}, v = .top .intervalEqualities v.env → v.OfKind relational ∧ ∀ σ : Store, v.Allows σ.point := by
      intro v hv
      rw [hv]
      exact ⟨Value.ofKind_top (k := relational) _, fun σ => Value.allows_top _ _ _⟩
    refine ⟨(htop hstable).1, (htop hdescending).1, (htop hinitial).1, .inr ?_, fun _ σ =>
      ⟨(htop hstable).2 σ, (htop hdescending).2 σ, (htop hinitial).2 σ⟩⟩
    rw [(htop hknown).1.recast]
    exact ⟨(htop hknown).1, fun σ _ => (htop hknown).2 σ⟩
  · rename_i h0
    simp only [List.all_cons, List.all_nil, Bool.and_true, Bool.and_eq_true, beq_iff_eq] at h
    obtain ⟨hknown, hstable, hdescending, hinitial⟩ := h
    have hbalance : balance.OfKind relational := ⟨by decide +kernel, nofun⟩
    refine ⟨⟨hstable, nofun⟩, ⟨hdescending, nofun⟩, ⟨hinitial, nofun⟩, .inr ?_, fun hn => absurd hn h0⟩
    rw [hknown, hbalance.recast]
    refine ⟨hbalance, fun σ hσ => ?_⟩
    obtain ⟨j, hj⟩ := hσ.resolve_left h0
    exact allows_balance hj

/-- What the second pass has at block 1 once it holds three of the stores. -/
def tilted : Value := balance.constrainAll [.ge (.const 1 - .var "x"), .ge (.const 1 - .var "z")]

theorem allows_tilted {j : ℕ} {σ : Store} (hj : j ≤ 2) (h : Swings j σ) : tilted.Allows σ.point := by
  refine Value.allows_constrainAll ?_ (allows_balance h)
  obtain ⟨hx, -, hz⟩ := h
  simp [LinearConstraint.holds, LinearConstraint.ge, Comparison.holds, hx, hz]
  omega

instance (k : ℕ) (v : Value) : Decidable (Below k v) := inferInstanceAs (Decidable (_ ∧ _))

def isPoised (n : ℕ) (s : Slots Disjunction) : Bool :=
  s.stable.first.domain == .intervalEqualities && (n == 0 || s.known.first == balance && decide (Below 2 s.stable.first)) &&
    (n != 1 || s.stable.first == tilted)

theorem poised_of_isPoised {n : ℕ} {s : Slots Disjunction} (h : isPoised n s = true) : Poised 2 n s := by
  simp only [isPoised, Bool.and_eq_true, Bool.or_eq_true, beq_iff_eq, bne_iff_ne, decide_eq_true_eq] at h
  obtain ⟨⟨hdomain, hentry⟩, hfirst⟩ := h
  refine ⟨⟨hdomain, nofun⟩, fun h0 => (hentry.resolve_left h0).1, fun h0 => (hentry.resolve_left h0).2, ?_⟩
  rintro rfl j hj σ hσ
  rw [hfirst.resolve_left (by simp)]
  exact allows_tilted hj hσ

/-- The second pass can begin: the entry and block 1 wait, and the other nodes have nothing yet. -/
def isOpen {Ω : Type} (r : Run Ω Unit) : Bool :=
  r.engine.worklist.nodes == [0, 1] && (List.range 4).all fun n => r.computed? n == some false &&
    (r.slots? restarting.key n).any fun s => isPrimed n s && (n < 2 || s.stable.first.isBottom)

section Endless

variable {Ω : Type} {ρ : Resources} {L : Layout} {rank : ℕ → ℕ} {n : ℕ} {r r₂ r' : Run Ω Unit}

theorem isOpen_slots (h : isOpen r = true) (hn : n < 4) {s : Slots Disjunction} (hs : r.slots? restarting.key n = some s) :
    SlotsLawful relational Visited n s ∧ (n < 2 ∨ s.stable.first.isBottom = true) := by
  simp only [isOpen, Bool.and_eq_true, List.all_eq_true, List.mem_range] at h
  obtain ⟨-, hslots⟩ := h.2 n hn
  rw [hs, Option.any_some, Bool.and_eq_true, Bool.or_eq_true, decide_eq_true_eq] at hslots
  exact ⟨lawful_of_isPrimed hslots.1, hslots.2⟩

theorem isOpen_owed (h : isOpen r = true) (hn : n < 2) : r.Owed n := by
  simp only [isOpen, Bool.and_eq_true, List.all_eq_true, List.mem_range, beq_iff_eq] at h
  refine ⟨?_, fun hcomputed => ?_⟩
  · rw [Waits, h.1]
    interval_cases n <;> simp
  · have hfalse := (h.2 n (hn.trans (by decide))).1
    rw [hcomputed] at hfalse
    cases hfalse

variable (hsu : Restartable (seesaw.setup restarting ρ) L rank) (hL : L.arena = .build seesaw.graph.control)
  (hr : r.Operable restarting.key L) (hopen : isOpen r = true)

include hL hr hopen

/-- If the second pass came to an end, its values would hold all the stores at block 1. -/
theorem stable_of_yields {fuel : ℕ} (h : Yields (drain (computeNode (seesaw.setup restarting ρ)) fuel) r () r') (j : ℕ) :
    ∃ σ, Swings j σ ∧ r'.Stable restarting.key 1 σ := by
  have hsize := size_of_seesaw hL
  have hlaw : ∀ n s, r.slots? restarting.key n = some s →
      SlotsLawful relational Visited n s ∧ (n < 2 ∨ s.stable.first.isBottom = true) := fun n s hs =>
    isOpen_slots hopen (hsize ▸ hr.lt_of_slots hs) hs
  have hregular : r.Regular restarting.key (.build seesaw.graph.control) (SlotsLawful relational Visited) :=
    ⟨hr.arena.trans hL, hr.blocks.trans (by rw [hL]), fun n s hs => (hlaw n s hs).1⟩
  have hstart : ∀ n, r.Covered restarting.key Visited ((Arena.build seesaw.graph.control).EdgeStep seesaw.Step) n ∨
      r.Owed n := by
    intro n
    by_cases hn : n < 2
    · exact .inr (isOpen_owed hopen hn)
    · refine .inl fun σ p σ' _ ⟨s, hs, hall⟩ _ => ?_
      exact absurd hall (Value.not_allows_of_isBottom ((hlaw n s hs).2.resolve_left hn) _)
  have hvisit : ∀ (x : Run Ω Unit) n x', x.Regular restarting.key (.build seesaw.graph.control)
      (SlotsLawful relational Visited) → Yields (computeNode (seesaw.setup restarting ρ) n) x () x' → _ :=
    fun x n x' hx hvisit => computeNode_spec (nofun : Technique.classic ≠ .disjunctive) (seesaw.transfer_follows relational)
      (fun _ => .inl rfl) visited_step hvisit hx
  obtain ⟨-, hkeeps, hcovered, -⟩ := drain_covered visited_step
    (fun _ _ hx => ⟨hx.arena, hx.blocks, hx.slots⟩) hvisit h hregular hstart
  obtain ⟨s, hs, -⟩ := hr.slots 0 (by omega)
  have hentry : r.Stable restarting.key 0 fun _ => 0 := ⟨s, hs, ((hlaw 0 s hs).1.entry rfl _).1⟩
  exact stable_of_covered_swings hcovered (hkeeps 0 _ (.inl rfl) hentry) j

include hsu

/-- The second pass does not come to an end: at any time the values at block 1 hold finitely many of the stores. -/
theorem not_yields_drain {count : ℕ} (hturns : Yields (turns (computeNode (seesaw.setup restarting ρ)) count) r true r₂)
    (hpoised : ∀ n < 4, (r₂.slots? restarting.key n).any (isPoised n) = true) (fuel : ℕ) :
    ¬ Yields (drain (computeNode (seesaw.setup restarting ρ)) fuel) r () r' := by
  intro h
  have hsize := size_of_seesaw hL
  have hr₂ : r₂.Operable restarting.key L := operable_of_turns hsu.toWorkable hsu.nodup hr hturns
  have hsways : Sways L 2 r₂ := by
    refine ⟨hr₂, fun n s hs => poised_of_isPoised ?_⟩
    have hany := hpoised n (hsize ▸ hr₂.lt_of_slots hs)
    rwa [hs, Option.any_some] at hany
  have hmore : Yields (drain (computeNode (seesaw.setup restarting ρ)) (fuel + count)) r () r' :=
    (yields_drain_or_exhausts h (fuel + count)).resolve_right fun hless => absurd hless.1 (by omega)
  rw [Yields, run_drain_of_turns hturns] at hmore
  obtain ⟨l, -, -, hl⟩ := sways_of_drain hsu.toWorkable hL le_rfl hsways hmore
  obtain ⟨σ, ⟨hx, -⟩, s, hs, hall⟩ := stable_of_yields hL hr hopen h (l + 2)
  have hmem := Interval.leq_iff.mp ((hl 1 s hs).below (by simp)).1 _ (Interval.admits_intCast.mp (hall.1 "x"))
  rw [hx, Interval.mem_closed] at hmem
  omega

end Endless

/-- The run up to the seventh turn of its second pass. -/
def opening : Analysis SearchOracle Unit Bool := do
  prepare (seesaw.setup restarting .ample)
  push 0
  let restarts ← untilRestart (seesaw.setup restarting .ample)
  let e ← engine
  let turned ← turns (computeNode (seesaw.setup restarting .ample)) 7
  let e' ← engine
  return restarts && turned && isOpen ⟨e, ()⟩ &&
    (List.range 4).all fun n => ((⟨e', ()⟩ : Run SearchOracle Unit).slots? restarting.key n).any (isPoised n)

theorem opening_succeeds : (opening.run.run ⟨.new restarting (.build seesaw.graph.control)
    (.new seesaw.graph.control seesaw.transfer), ()⟩).1.toOption = some true := by
  decide +kernel

/-- In the second pass for this program a bound is regained forever: what is widened at block 1, the equation gives back,
one step further on. -/
theorem seesaw_regains_forever : ∃ r₀ r₁,
    Yields (do prepare (seesaw.setup restarting .ample); push 0) ⟨.new restarting (.build seesaw.graph.control)
      (SearchOracle.new seesaw.graph.control seesaw.transfer), ()⟩ () r₀ ∧
    Restarts (seesaw.setup restarting .ample) r₀ r₁ ∧ RegainsForever (seesaw.setup restarting .ample) r₁ ∧
    ∀ ρ, (analyze (seesaw.setup restarting ρ) "f" (.build seesaw.graph.control)).1 = .error .outOfFuel := by
  have hopening := yields_of_toOption opening_succeeds
  simp only [opening, yields_bind, yields_engine, yields_pure] at hopening
  obtain ⟨u, r, hprepare, u', r₀, hpush, restarts, _, huntil, e, r₁, ⟨rfl, rfl⟩, turned, _, hturns, e', r₂, ⟨rfl, rfl⟩,
    htests, -⟩ := hopening
  simp only [Bool.true_eq, Bool.and_eq_true, List.all_eq_true, List.mem_range] at htests
  obtain ⟨⟨⟨rfl, rfl⟩, hopen⟩, hpoised⟩ := htests
  have hstart : Yields (do prepare (seesaw.setup restarting .ample); push 0) ⟨.new restarting
      (.build seesaw.graph.control) (SearchOracle.new seesaw.graph.control seesaw.transfer), ()⟩ () r₀ :=
    yields_bind.mpr ⟨u, r, hprepare, hpush⟩
  obtain ⟨L, rank, hL, hsu, hr₀⟩ := exists_restartable ⟨by decide, by decide⟩ rfl rfl (Context.ofGraph_build _)
    (Context.respects_build _ _) hstart
  have hrestarts : Restarts (seesaw.setup restarting .ample) r₀ r₁ := ⟨.ample, huntil⟩
  obtain ⟨T, hr₁⟩ := hrestarts.operable hsu hr₀
  have hregains : RegainsForever (seesaw.setup restarting .ample) r₁ := by
    refine (halts_drain_or_regainsForever hsu hr₁).resolve_left ?_
    rintro ⟨N, _, r', hyields, -⟩
    exact not_yields_drain (hsu.relist r₁.engine.thresholds) hL (operable_relist hr₁ _) hopen hturns hpoised N
      (hyields ⟨Resources.ample.clock, N⟩ le_rfl)
  refine ⟨r₀, r₁, hstart, hrestarts, hregains, fun ρ => ?_⟩
  exact outOfFuel_of_exhausts rfl hstart "f" (hrestarts.exhausts_passes rfl hregains ρ)

end Classic

end PathInvariants
