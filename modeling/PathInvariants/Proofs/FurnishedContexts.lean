import PathInvariants.Proofs.CutPaths
import PathInvariants.Proofs.SharedContexts
import PathInvariants.Proofs.ValueLattice

/-!
# Furnished contexts

During a run every node has its slots, and all values in them are over the environment of the block. All
joins, meets and widenings of a run are of two such values at one node, so no symbol ever has two kinds, and
every node that a run comes to is in the arena. What can still go wrong depends on the oracle: this module
takes what an oracle has to promise as a parameter.
-/
namespace PathInvariants

open Analysis

variable {Ω : Type} {su : Setup}

/-- All disjuncts are over one environment. -/
def Disjunction.Over (env : Environment) (d : Disjunction) : Prop := ∀ v ∈ d.toList, v.env = env

namespace Disjunction.Over

variable {env : Environment} {d : Disjunction} {v : Value}

theorem single (hv : v.env = env) : (Disjunction.single v).Over env := by simpa [Over, Disjunction.single, toList] using hv

theorem set (hd : d.Over env) (hv : v.env = env) (i : ℕ) : (d.set i v).Over env := by
  intro w hw
  rcases mem_toList_set hw with rfl | hw | rfl
  · exact hv
  · exact hd w hw
  · exact hd d.first (by simp [toList])

/-- The hull of a union over one environment exists. -/
theorem exists_hull (hd : d.Over env) : ∃ v, d.hull = .ok v := by
  obtain ⟨hfirst, hothers⟩ := List.forall_mem_cons.mp hd
  refine ⟨d.first.joinOver env d.others, ?_⟩
  rw [hull, hfirst, Environment.foldlM_union hothers]
  rfl

end Disjunction.Over

/-- The environment of the node with the given number. -/
def Setup.envAt (su : Setup) (n : ℕ) : Environment :=
  ((Arena.build su.graph).blocks[n]?).elim .empty su.transfer.environment

/-- The node has slots under the key, with values over the environment of its block. -/
def Node.Furnished (t : Transfer) (key : Key) (x : Node Disjunction) : Prop :=
  ∃ s, x.slots? key = some s ∧ s.All (Disjunction.Over (t.environment x.block))

namespace Context

/-- The context of a graph in which all variables are tracked and all nodes furnished for the run. -/
structure Furnished (su : Setup) (c : Context) : Prop where
  ofGraph : c.OfGraph su.graph
  env : ∀ x ∈ c.nodes, x.env = su.transfer.environment x.block
  node : ∀ x ∈ c.nodes, x.Furnished su.transfer su.key

theorem OfGraph.block_getElem? {g : ControlFlow} {c : Context} (h : c.OfGraph g) {n : ℕ} {x : Node Disjunction}
    (hx : c.nodes[n]? = some x) : (Arena.build g).blocks[n]? = some x.block := by
  rw [← h.arena, ← h.blocks, List.getElem?_map, hx]
  rfl

theorem OfGraph.size_eq {g : ControlFlow} {c : Context} (h : c.OfGraph g) : c.size = (Arena.build g).size := by
  rw [Arena.size, ← h.arena, ← h.blocks, List.length_map]
  rfl

namespace Furnished

variable {c : Context} {n : ℕ} {x : Node Disjunction} {s : Slots Disjunction}

theorem envAt_eq (h : c.Furnished su) (hx : c.nodes[n]? = some x) : su.envAt n = su.transfer.environment x.block := by
  rw [Setup.envAt, h.ofGraph.block_getElem? hx]
  rfl

theorem exists_node (h : c.Furnished su) (hn : n < (Arena.build su.graph).size) : ∃ x, c.nodes[n]? = some x :=
  ⟨_, List.getElem?_eq_getElem (h.ofGraph.size_eq.symm ▸ hn : n < c.size)⟩

theorem exists_slots (h : c.Furnished su) (hx : c.nodes[n]? = some x) :
    ∃ s, x.slots? su.key = some s ∧ s.All (Disjunction.Over (su.envAt n)) := by
  rw [h.envAt_eq hx]
  exact h.node x (List.mem_of_getElem? hx)

theorem setSlots (h : c.Furnished su) (hx : c.nodes[n]? = some x) (hs : s.All (Disjunction.Over (su.envAt n))) :
    (c.setNode n (x.setSlots su.key s)).Furnished su := by
  have hmem := List.mem_of_getElem? hx
  have hframe := (Frame.refl su.key su.transfer c).setSlots (setSlots_eq_ok.mpr ⟨x, hx, rfl⟩ : c.setSlots n su.key s = .ok _)
  have hcases : ∀ y ∈ (c.setNode n (x.setSlots su.key s)).nodes, y ∈ c.nodes ∨ y = x.setSlots su.key s := fun y hy =>
    List.mem_or_eq_of_mem_set hy
  refine ⟨⟨h.ofGraph.arena, hframe.blocks_eq.trans h.ofGraph.blocks⟩, fun y hy => ?_, fun y hy => ?_⟩
  · rcases hcases y hy with hy | rfl
    · exact h.env y hy
    · exact h.env x hmem
  · rcases hcases y hy with hy | rfl
    · exact h.node y hy
    · rw [h.envAt_eq hx] at hs
      exact ⟨s, Node.slots?_setSlots x su.key s, hs⟩

theorem prepared (h : c.OfGraph su.graph) : (c.prepared su).Furnished su where
  ofGraph := ⟨h.arena, by rw [Context.prepared, List.map_map]; exact h.blocks⟩
  env x hx := by
    obtain ⟨y, -, rfl⟩ := List.mem_map.mp hx
    rfl
  node x hx := by
    obtain ⟨y, -, rfl⟩ := List.mem_map.mp hx
    refine ⟨_, Node.slots?_setSlots _ su.key _, fun sl => ?_⟩
    cases sl <;> exact Disjunction.Over.single rfl

/-- The invariants of all nodes can be read off. -/
theorem exists_invariants (h : c.Furnished su) : ∃ is, c.invariants su.key = .ok is := by
  refine exists_mapM_ok fun n hn => ?_
  obtain ⟨x, hx⟩ : ∃ x, c.nodes[n]? = some x := ⟨_, List.getElem?_eq_getElem (List.mem_range.mp hn)⟩
  obtain ⟨s, hs, -⟩ := h.exists_slots hx
  have hslots := slots_eq_ok.mpr ⟨x, hx, hs⟩
  have hblock := block_eq_ok.mpr ⟨x, hx, rfl⟩
  simp [invariantAt, hslots, hblock, bind, Except.bind, pure, Except.pure]

end Furnished

end Context

/-- Joins, meets and widenings of values over one environment stay over it. -/
theorem Value.meets_of_env {env : Environment} {F : Fault → Prop} {v w : Value} (hv : v.env = env) (hw : w.env = env) :
    Meets F (·.env = env) (v.join w) ∧ Meets F (·.env = env) (v.meet w) ∧
      ∀ thresholds, Meets F (·.env = env) (v.widenTo thresholds w) := by
  have henv : v.env = w.env := hv.trans hw.symm
  obtain ⟨u, hu, huenv⟩ := exists_meet_of_env henv
  refine ⟨?_, ?_, fun thresholds => ?_⟩
  · rw [join_of_env henv]
    exact meets_ok ((env_joinAligned v w).trans hv)
  · rw [hu]
    exact meets_ok (huenv.trans hv)
  · rw [widenTo_of_env henv]
    exact meets_ok ((env_widenAligned thresholds v w).trans hv)

/-- The cut points that follow a node are nodes. -/
theorem Arena.lt_size_of_mem_cuts_successors {g : ControlFlow} {n m : ℕ} (h : m ∈ (build g).cuts.successors n) :
    m < (build g).size := by
  unfold CutPoints.successors at h
  rw [Array.getD_eq_getD_getElem?] at h
  cases hn : (build g).cuts.following[n]? with
  | none => simp [hn] at h
  | some following =>
    simp only [hn, Option.getD_some] at h
    obtain ⟨p, -, rfl⟩ := Array.mem_map.mp (Array.mem_of_getElem? hn)
    split at h
    · have hm := List.mem_range.mp (List.mem_filter.mp h).1
      simpa [build, size] using hm
    · cases h

/-- Nodes of the arena, and values over their environments. -/
def Shape.over (hg : su.graph.Bounded) (path : Path → Prop) : Shape su where
  node n := n < (Arena.build su.graph).size
  env n e := e = su.envAt n
  value n v := v.env = su.envAt n
  union n d := d.Over (su.envAt n)
  stores _ _ := True
  departs _ := True
  path := path
  node_entry := (List.getElem?_eq_some_iff.mp (Arena.blocks_zero hg)).1
  value_withEnv he _ := he
  value_joinOver he v ws := (v.env_joinOver _ ws).trans he
  value_top he := he
  value_bottom he := he
  value_mem hd := hd
  union_single hv := .single hv
  union_set hd hv _ := hd.set hv _
  stores_first _ := trivial
  stores_pilot _ _ := trivial
  stores_lt _ _ _ _ := trivial
  stores_bottom _ _ := trivial
  stores_get? _ _ _ := trivial

/-- What a run needs of its engine: a furnished context in the frame of the one it started with, a mark for every node,
and nodes in the worklist. -/
structure Engine.Furnished (su : Setup) (c : Context) (oracle : Ω → Prop) (e : Engine Ω) : Prop where
  context : e.context.Furnished su
  frame : c.Frame su.key su.transfer e.context
  oracle : oracle e.oracle
  computed : e.computed.length = (Arena.build su.graph).size
  waiting : ∀ n ∈ e.worklist.nodes, n < (Arena.build su.graph).size

namespace EngineInvariant

variable [PathOracle Ω]

/-- What an oracle promises when it is asked in a furnished context. -/
def Promised (su : Setup) (oracle : Ω → Prop) (path : Path → Prop) (fails : Failure → Prop) : Prop :=
  ∀ (c : Context) (o : Ω) (n : ℕ) (start : Block) (descending : Bool) (filter : PathFilter), c.Furnished su → oracle o →
    (Arena.build su.graph).blocks[n]? = some start →
    let asked := PathOracle.query ⟨start, descending, filter⟩ (c.view su.key) (PathOracle.push o)
    oracle (PathOracle.pop asked.2).2 ∧ Meets fails (fun _ => True) (PathOracle.pop asked.2).1 ∧
      Meets fails (fun answer => (answer = .unknown → fails .oracleUnknown) ∧ ∀ p i, answer = .sat p i → path p ∧
        Meets (fun v => fails (.violation v)) (fun _ => True) (checkPath su.graph (.build su.graph) start p)) asked.1

/-- Furnished engines as an invariant, given the promises of the oracle. -/
def furnished (hg : su.graph.Bounded) (c : Context) {oracle : Ω → Prop} {path : Path → Prop} {fails : Failure → Prop}
    (hpromised : Promised su oracle path fails) (hends : ∀ p, path p →
      (p.destination? = none → fails (.violation .emptyPath)) ∧ ∀ b, p.destination? = some b →
        (Arena.build su.graph).index? b = none → fails (.violation (.notInArena b)))
    (htimeout : fails .timeout) (hfuel : fails .outOfFuel) : EngineInvariant Ω su where
  toShape := .over hg path
  holds := Engine.Furnished su c oracle
  fails := fails
  fails_timeout := htimeout
  fails_outOfFuel := hfuel
  arena {e} h := by
    rw [h.context.ofGraph.arena]
    exact ⟨fun n hn => Arena.lt_size_of_mem_wideningNodes hn, fun n hn =>
      ⟨fun s hs => Arena.successors_lt hg hn hs, fun s hs => Arena.lt_size_of_mem_cuts_successors hs⟩⟩
  nodeCount h n hn := hn.trans_eq h.context.ofGraph.size_eq
  lookup {e} h n hn := by
    obtain ⟨x, hx⟩ := h.context.exists_node hn
    rw [Context.node_eq_ok.mpr hx]
    exact meets_ok ((h.context.env x (List.mem_of_getElem? hx)).trans (h.context.envAt_eq hx).symm)
  slots {e} h n hn := by
    obtain ⟨x, hx⟩ := h.context.exists_node hn
    obtain ⟨s, hs, hover⟩ := h.context.exists_slots hx
    rw [Context.slots_eq_ok.mpr ⟨x, hx, hs⟩]
    exact meets_ok hover
  setSlots {e} h n hn s hs := by
    obtain ⟨x, hx⟩ := h.context.exists_node hn
    have hset : e.context.setSlots n su.key s = .ok _ := Context.setSlots_eq_ok.mpr ⟨x, hx, rfl⟩
    rw [hset]
    exact meets_ok fun e' he' => ⟨h.context.setSlots hx hs, h.frame.setSlots hset, he'.oracle, he'.computed, he'.waiting⟩
  computed h n hn := .inl (h.computed.symm ▸ hn)
  setComputed h h' _ hlength := ⟨h.context, h.frame, h.oracle, hlength.trans h'.computed, h.waiting⟩
  push {e} h n hn label := ⟨h.context, h.frame, h.oracle, h.computed, fun m hm => by
    rcases Worklist.mem_nodes_push.mp hm with rfl | hm
    · exact hn
    · exact h.waiting m hm⟩
  pop {e} h n worklist hpop := by
    obtain ⟨hmem, hsub⟩ := Worklist.of_pop? hpop
    exact ⟨h.waiting n hmem, fun e' he' => ⟨he'.context, he'.frame, he'.oracle, he'.computed, fun m hm => h.waiting m (hsub m hm)⟩⟩
  clear h := ⟨h.context, h.frame, h.oracle, h.computed, nofun⟩
  quiet h _ _ _ _ _ := ⟨h.context, h.frame, h.oracle, h.computed, h.waiting⟩
  join hv hw := (Value.meets_of_env hv hw).1
  meet hv hw := (Value.meets_of_env hv hw).2.1
  widenTo hv hw := (Value.meets_of_env hv hw).2.2
  ask {e e'} h h' n start _ hstart descending filter := by
    obtain ⟨x, hx, rfl⟩ := Context.block_eq_ok.mp hstart
    have hblock := h'.context.ofGraph.block_getElem? hx
    obtain ⟨horacle, hpop, hanswer, hfailed⟩ := hpromised e.context e.oracle n x.block descending filter h.context h.oracle hblock
    refine ⟨fun e he => ⟨he.context, he.frame, horacle, he.computed, he.waiting⟩, hpop, fun answer ha => ?_, hfailed⟩
    refine ⟨(hanswer answer ha).1, fun p i hsat => ?_⟩
    obtain ⟨hpath, hcheck⟩ := (hanswer answer ha).2 p i hsat
    exact ⟨⟨hpath, trivial⟩, fun e he => he.context.ofGraph.arena.symm ▸ hcheck⟩
  destination_none hp := (hends _ hp).1
  index {e} h p hp b hb := by
    rw [h.context.ofGraph.arena]
    refine ⟨fun n hn => ?_, (hends p hp).2 b hb⟩
    exact (List.idxOf?_eq_some_iff.mp hn).1

end EngineInvariant

namespace Context

/-- Every run under some key has furnished all nodes. -/
def Complete (t : Transfer) (c : Context) : Prop := ∀ key, c.hasRun key = true → ∀ x ∈ c.nodes, x.Furnished t key

variable [PathOracle Ω] {c : Context}

/-- A run on a complete context of a graph ends furnished, and fails as its oracle is allowed to only. -/
theorem furnished_runTechnique (hg : su.graph.Bounded) (hgraph : c.OfGraph su.graph) (htracked : c.Tracked su.transfer)
    (hcomplete : c.Complete su.transfer) {oracle : Ω → Prop} {path : Path → Prop} {fails : Failure → Prop}
    (hpromised : EngineInvariant.Promised su oracle path fails) (hends : ∀ p, path p →
      (p.destination? = none → fails (.violation .emptyPath)) ∧ ∀ b, p.destination? = some b →
        (Arena.build su.graph).index? b = none → fails (.violation (.notInArena b)))
    (htimeout : fails .timeout) (hfuel : fails .outOfFuel) {o : Ω} (ho : oracle o) :
    (runTechnique su (.new su.options c o)).2.Furnished su c oracle ∧
      ∀ f, (runTechnique su (.new su.options c o)).1 = .error f → fails f := by
  let K := EngineInvariant.furnished hg c hpromised hends htimeout hfuel
  have himports : K.Imports := by
    intro known hknown e e' n he he' hrun hn
    obtain ⟨x, hx⟩ : ∃ x, c.nodes[n]? = some x := ⟨_, List.getElem?_eq_getElem (hn.trans_eq hgraph.size_eq.symm)⟩
    rw [he.frame.hasRun_eq hknown] at hrun
    obtain ⟨s, hs, hover⟩ := hcomplete known hrun x (List.mem_of_getElem? hx)
    obtain ⟨hull, hhull⟩ := (hover .stable).exists_hull
    rw [he'.frame.slots_eq hknown, slots_eq_ok.mpr ⟨x, hx, hs⟩]
    refine meets_ok ?_
    rw [show s.stable.hull = .ok hull from hhull]
    exact meets_ok trivial
  refine EngineInvariant.runTechnique_keeps himports (e := .new su.options c o) htracked ?_ fun e he => ?_
  · refine ⟨.prepared hgraph, .prepared su c, ho, ?_, nofun⟩
    simp [Engine.new, hgraph.size_eq]
  · refine ⟨he.context, he.frame, he.oracle, ?_, he.waiting⟩
    simp [Engine.new, hgraph.size_eq]

theorem Reached.complete {g : ControlFlow} {t : Transfer} (hg : g.Bounded) (h : Reached g t c) : c.Complete t := by
  induction h with
  | build =>
    intro key hrun
    cases hhead : (Arena.build g).blocks.head? <;> simp [hasRun, Context.build, hhead, Node.new, Node.hasSlots, Node.slots?] at hrun
  | @run c h Ω _ options resources name oracle ih =>
    intro key hrun y hy
    let su : Setup := ⟨g, t, options, resources⟩
    have hframe := frame_analyzeWith su name oracle c
    by_cases hkey : key = su.key
    · have hpromised : EngineInvariant.Promised su (fun _ : Ω => True) (fun _ => True) fun _ => True :=
        fun _ _ _ _ _ _ _ _ _ => ⟨trivial, ⟨fun _ _ => trivial, fun _ _ => trivial⟩,
          fun _ _ => ⟨fun _ => trivial, fun _ _ _ => ⟨trivial, fun _ _ => trivial, fun _ _ => trivial⟩⟩, fun _ _ => trivial⟩
      have hfurnished := (furnished_runTechnique hg h.ofGraph h.tracked ih hpromised
        (fun _ _ => ⟨fun _ => trivial, fun _ _ _ => trivial⟩) trivial trivial (o := oracle) trivial).1
      rw [analyzeWith_eq] at hy
      exact hkey ▸ hfurnished.context.node y hy
    · rw [hframe.hasRun_eq hkey] at hrun
      obtain ⟨x, hx, hkept⟩ := hframe.exists_kept hy
      obtain ⟨s, hs, hover⟩ := ih key hrun x hx
      exact ⟨s, (hkept.slots key hkey).trans hs, hkept.block.symm ▸ hover⟩

end Context

end PathInvariants
