import PathInvariants.Proofs.SharedContexts

/-!
# Non-interference

Two contexts are alike to a run when they have the same arena and, node by node, the same block, the
same environment and the same slots under the key of the run. Every operation of the engine takes twin
states, which differ in alike contexts only, to twin states, with the same result or failure. A run that
imports nothing starts by making the contexts of one graph alike, whatever ran on them before.
-/
namespace PathInvariants

open Analysis

variable {Ω S α : Type}

/-- What a run under `key` sees of a node. -/
def Node.facet (key : Key) (x : Node Disjunction) : Block × Environment × Option (Slots Disjunction) :=
  (x.block, x.env, x.slots? key)

namespace Context

/-- A run under `key` cannot tell the contexts apart. -/
structure Alike (key : Key) (c c' : Context) : Prop where
  arena : c'.arena = c.arena
  nodes : c'.nodes.map (Node.facet key) = c.nodes.map (Node.facet key)

namespace Alike

variable {key : Key} {c c' : Context}

theorem size (h : Alike key c c') : c'.size = c.size := by simpa [Context.size] using congrArg List.length h.nodes

theorem facet_eq (h : Alike key c c') (n : ℕ) :
    (c'.nodes[n]?).map (Node.facet key) = (c.nodes[n]?).map (Node.facet key) := by
  rw [← List.getElem?_map, ← List.getElem?_map, h.nodes]

/-- Both contexts have the node, or neither has. -/
theorem lookup (h : Alike key c c') (n : ℕ) : (c.nodes[n]? = none ∧ c'.nodes[n]? = none) ∨
    ∃ x x', c.nodes[n]? = some x ∧ c'.nodes[n]? = some x' ∧ x'.block = x.block ∧ x'.env = x.env ∧
      x'.slots? key = x.slots? key := by
  have hfacet := h.facet_eq n
  cases hx : c.nodes[n]? with
  | none => exact .inl ⟨rfl, by simpa [hx] using hfacet⟩
  | some x =>
    obtain ⟨x', hx', heq⟩ : ∃ x', c'.nodes[n]? = some x' ∧ x'.facet key = x.facet key := by simpa [hx] using hfacet
    simp only [Node.facet, Prod.mk.injEq] at heq
    exact .inr ⟨x, x', rfl, hx', heq⟩

theorem block_eq (h : Alike key c c') (n : ℕ) : c'.block n = c.block n := by
  unfold block node
  rcases h.lookup n with ⟨hx, hx'⟩ | ⟨x, x', hx, hx', hblock, -⟩
  · rw [hx, hx']
  · simp [hx, hx', bind, Except.bind, hblock]

theorem slots_eq (h : Alike key c c') (n : ℕ) : c'.slots n key = c.slots n key := by
  unfold slots node
  rcases h.lookup n with ⟨hx, hx'⟩ | ⟨x, x', hx, hx', -, -, hslots⟩
  · rw [hx, hx']
  · simp [hx, hx', bind, Except.bind, hslots]

/-- An oracle is shown the same. -/
theorem view_eq (h : Alike key c c') : c'.view key = c.view key := by
  have hlookup : ∀ b, (c.arena.index? b).bind (c'.nodes[·]?) = none ∧ (c.arena.index? b).bind (c.nodes[·]?) = none ∨
      ∃ x x', (c.arena.index? b).bind (c'.nodes[·]?) = some x' ∧ (c.arena.index? b).bind (c.nodes[·]?) = some x ∧
        x'.env = x.env ∧ x'.slots? key = x.slots? key := by
    intro b
    cases c.arena.index? b with
    | none => exact .inl ⟨rfl, rfl⟩
    | some n =>
      rcases h.lookup n with ⟨hx, hx'⟩ | ⟨x, x', hx, hx', -, henv, hslots⟩
      · exact .inl ⟨hx', hx⟩
      · exact .inr ⟨x, x', hx', hx, henv, hslots⟩
  simp only [view, h.arena, StateView.mk.injEq, true_and]
  refine ⟨funext fun b => funext fun sl => ?_, funext fun b => ?_⟩
  · rcases hlookup b with ⟨hx', hx⟩ | ⟨x, x', hx', hx, -, hslots⟩
    · rw [hx', hx]
    · simp [hx', hx, hslots]
  · rcases hlookup b with ⟨hx', hx⟩ | ⟨x, x', hx', hx, henv, -⟩
    · rw [hx', hx]
    · simp [hx', hx, henv]

theorem setSlots (h : Alike key c c') (n : ℕ) (s : Slots Disjunction) :
    (c.setSlots n key s = .error (.noNode n) ∧ c'.setSlots n key s = .error (.noNode n)) ∨
      ∃ d d', c.setSlots n key s = .ok d ∧ c'.setSlots n key s = .ok d' ∧ Alike key d d' := by
  unfold Context.setSlots node
  rcases h.lookup n with ⟨hx, hx'⟩ | ⟨x, x', hx, hx', hblock, henv, -⟩
  · exact .inl ⟨by rw [hx]; rfl, by rw [hx']; rfl⟩
  · have hfacet : (x'.setSlots key s).facet key = (x.setSlots key s).facet key := by
      simp [Node.facet, Node.setSlots, Node.slots?, hblock, henv]
    refine .inr ⟨c.setNode n (x.setSlots key s), c'.setNode n (x'.setSlots key s), by rw [hx]; rfl, by rw [hx']; rfl, h.arena, ?_⟩
    simp only [setNode, List.map_set, h.nodes, hfacet]

/-- Contexts with the same blocks are alike once they are prepared. -/
theorem prepared {su : Setup} (harena : c'.arena = c.arena) (hblocks : c'.nodes.map (·.block) = c.nodes.map (·.block)) :
    Alike su.key (c.prepared su) (c'.prepared su) := by
  have hfacet : ∀ l : List (Node Disjunction), (l.map (Node.prepared su)).map (Node.facet su.key) =
      (l.map (·.block)).map fun b => (b, su.transfer.environment b,
        some (.filled (.single (.bottom su.options.domain (su.transfer.environment b))))) := by
    intro l
    rw [List.map_map, List.map_map]
    refine List.map_congr_left fun x _ => ?_
    simp [Node.facet, Node.prepared, Node.setSlots, Node.slots?]
  exact ⟨harena, by rw [Context.prepared, Context.prepared, hfacet, hfacet, hblocks]⟩

end Alike

end Context

/-- The same run in a context that it cannot tell apart from its own, with a memory of `M`. -/
def Run.Twin (key : Key) (M : S → Prop) (r r' : Run Ω S) : Prop :=
  ∃ c, r.engine.context.Alike key c ∧ r' = r.withContext c ∧ M r.memory

namespace Run.Twin

variable {su : Setup} {M : S → Prop} {F : Failure → Prop} {Q : α → Prop} {n : ℕ}

/-- A computation that goes on with the state it finds, as far as it does not depend on the context. -/
theorem engine {f : Engine Ω → Analysis Ω S α} (hf : ∀ e c, e.context.Alike su.key c → f { e with context := c } = f e)
    (h : ∀ e, Paired (Run.Twin su.key M) F (f e) Q) : Paired (Run.Twin su.key M) F (Analysis.engine >>= f) Q := by
  refine .engine_bind ?_
  rintro r _ ⟨c, hc, rfl, hM⟩
  rw [show (r.withContext c).engine = { r.engine with context := c } from rfl, hf _ _ hc]
  exact h r.engine r _ ⟨c, hc, rfl, hM⟩

theorem modifyEngine {f : Engine Ω → Engine Ω} (hcontext : ∀ e, (f e).context = e.context)
    (hf : ∀ e c, e.context.Alike su.key c → f { e with context := c } = { f e with context := c }) :
    Paired (Run.Twin su.key M) F (Analysis.modifyEngine f) fun _ => True := by
  refine .modifyEngine ?_
  rintro r _ ⟨c, hc, rfl, hM⟩
  exact ⟨c, (hcontext r.engine).symm ▸ hc, congrArg (Run.mk · r.memory) (hf r.engine c hc), hM⟩

theorem memory : Paired (Run.Twin (Ω := Ω) su.key M) F Analysis.memory M := by
  refine .of_yields ?_
  rintro r _ ⟨c, hc, rfl, hM⟩
  exact ⟨r.memory, r, _, rfl, rfl, ⟨c, hc, rfl, hM⟩, hM⟩

theorem modifyMemory {f : S → S} (hf : ∀ m, M m → M (f m)) :
    Paired (Run.Twin (Ω := Ω) su.key M) F (Analysis.modifyMemory f) fun _ => True := by
  rintro r _ ⟨c, hc, rfl, hM⟩
  exact ⟨rfl, ⟨c, hc, rfl, hf _ hM⟩, fun _ _ => trivial, nofun⟩

theorem modifyStats (f : Stats → Stats) :
    Paired (Run.Twin (Ω := Ω) su.key M) F (Analysis.modifyStats f) fun _ => True :=
  modifyEngine (fun _ => rfl) fun _ _ _ => rfl

theorem arena : Paired (Run.Twin (Ω := Ω) su.key M) F Analysis.arena fun _ => True :=
  engine (fun _ _ hc => by rw [hc.arena]) fun _ => .pure trivial

variable (hF : ∀ f, F f)
include hF

theorem block : Paired (Run.Twin (Ω := Ω) su.key M) F (Analysis.block n) fun _ => True :=
  engine (fun _ _ hc => by rw [hc.block_eq]) fun _ => .ofViolation (fun _ _ => trivial) fun _ _ => hF _

theorem env : Paired (Run.Twin (Ω := Ω) su.key M) F (Analysis.env n) fun _ => True := by
  refine engine (fun e c hc => ?_) fun e =>
    .bind (.ofViolation (fun _ _ => trivial) fun _ _ => hF _) fun _ _ => .pure trivial
  simp only [Context.node]
  rcases hc.lookup n with ⟨hx, hx'⟩ | ⟨x, x', hx, hx', -, henv, -⟩
  · rw [hx, hx']
  · rw [hx, hx']
    exact congrArg (pure : Environment → Analysis Ω S Environment) henv

theorem setSlots (s : Slots Disjunction) :
    Paired (Run.Twin (Ω := Ω) su.key M) F (Analysis.setSlots su n s) fun _ => True := by
  refine .engine_bind ?_
  rintro r _ ⟨c, hc, rfl, hM⟩
  rcases hc.setSlots n s with ⟨hset, hset'⟩ | ⟨d, d', hset, hset', hd⟩
  · simp only [withContext, hset, hset']
    exact ⟨rfl, ⟨c, hc, rfl, hM⟩, nofun, fun _ _ => hF _⟩
  · simp only [withContext, hset, hset']
    exact ⟨rfl, ⟨d', hd, rfl, hM⟩, fun _ _ => trivial, nofun⟩

theorem checkDeadline : Paired (Run.Twin (Ω := Ω) su.key M) F (Analysis.checkDeadline su) fun _ => True := by
  refine engine (fun _ _ _ => rfl) fun e => .bind (modifyEngine (fun _ => rfl) fun _ _ _ => rfl) fun _ _ => ?_
  refine .ite (fun _ => ?_) fun _ => .pure trivial
  exact .bind (modifyEngine (fun _ => rfl) fun _ _ _ => rfl) fun _ _ => .throw (hF _)

theorem widening (v w : Value) (thresholds : List LinearConstraint) : Paired (Run.Twin (Ω := Ω) su.key M) F (do
    let widened ← Analysis.ofFault (v.widenTo thresholds w)
    Analysis.modifyStats fun s => { s with widenings := s.widenings + 1 }
    Analysis.checkDeadline su
    return widened) fun _ => True := by
  refine .bind (.ofFault (fun _ _ => trivial) fun _ _ => hF _) fun _ _ => .bind (modifyStats _) fun _ _ => ?_
  exact .bind (checkDeadline hF) fun _ _ => .pure trivial

theorem query [PathOracle Ω] (descending : Bool) (filter : PathFilter) :
    Paired (Run.Twin (Ω := Ω) su.key M) F (Analysis.query su n descending filter) fun _ => True := by
  rw [query_eq_queryAtOnce]
  refine .bind (block hF) fun start _ => engine (fun e c hc => by simp only [hc.view_eq]) fun e => ?_
  refine .bind (modifyEngine (fun _ => rfl) fun _ _ _ => rfl) fun _ _ => ?_
  refine .bind (.liftExcept (fun _ _ => trivial) fun _ _ => hF _) fun _ _ => ?_
  refine .bind (.liftExcept (fun _ _ => trivial) fun _ _ => hF _) fun answer _ => ?_
  refine .bind (modifyStats _) fun _ _ => .bind (checkDeadline hF) fun _ _ => ?_
  split
  · exact .pure trivial
  · exact .bind (modifyEngine (fun _ => rfl) fun _ _ _ => rfl) fun _ _ => .throw (hF _)
  · exact .bind arena fun _ _ => .bind (.ofViolation (fun _ _ => trivial) fun _ _ => hF _) fun _ _ => .pure trivial

theorem destinationOf (p : Path) : Paired (Run.Twin (Ω := Ω) su.key M) F (Analysis.destinationOf p) fun _ => True := by
  unfold Analysis.destinationOf Analysis.indexOf
  split
  · refine .bind arena fun _ _ => ?_
    split
    · exact .pure trivial
    · exact .throw (hF _)
  · exact .throw (hF _)

end Run.Twin

/-- Twins stay twins. -/
def Discipline.twin [PathOracle Ω] (su : Setup) (remembers : (ℕ → Prop) → (ℕ → Prop) → S → Prop) :
    Discipline (Ω := Ω) (S := S) su remembers where
  toShape := .free su
  related := Run.Twin su.key (remembers (fun _ => True) fun _ => ∀ _ : Value, True)
  fails _ := True
  fails_outOfFuel := trivial
  arena := Run.Twin.arena.mono fun _ _ => ⟨fun _ _ => trivial, fun _ _ => ⟨fun _ _ => trivial, fun _ _ => trivial⟩⟩
  nodeCount := Run.Twin.engine (fun e c hc => by rw [hc.size]) fun e => Paired.pure fun _ _ => trivial
  block _ := Run.Twin.block fun _ => trivial
  readEnv _ := Run.Twin.env fun _ => trivial
  slots _ := Run.Twin.engine (fun _ _ hc => by rw [hc.slots_eq]) fun _ =>
    Paired.ofViolation (fun _ _ _ => trivial) fun _ _ => trivial
  setSlots _ _ := Run.Twin.setSlots (fun _ => trivial) _
  isComputed _ := Run.Twin.engine (fun _ _ _ => rfl) fun e => by
    dsimp only
    split
    · exact Paired.pure trivial
    · exact Paired.throw trivial
  setComputed _ _ := Run.Twin.engine (fun _ _ _ => rfl) fun e =>
    Paired.ite (fun _ => Run.Twin.modifyEngine (fun _ => rfl) fun _ _ _ => rfl) fun _ => Paired.throw trivial
  resetComputed := Run.Twin.modifyEngine (fun _ => rfl) fun _ _ _ => rfl
  push _ := Run.Twin.modifyEngine (fun _ => rfl) fun _ _ hc => by simp only [hc.arena]
  pop? := Run.Twin.engine (fun _ _ _ => rfl) fun e => by
    split
    · exact Paired.pure fun _ _ => trivial
    · exact Paired.bind (Run.Twin.modifyEngine (fun _ => rfl) fun _ _ _ => rfl) fun _ _ => Paired.pure fun _ _ => trivial
  clearWorklist := Run.Twin.modifyEngine (fun _ => rfl) fun _ _ _ => rfl
  checkDeadline := Run.Twin.checkDeadline fun _ => trivial
  memory := Run.Twin.memory
  modifyMemory hf := Run.Twin.modifyMemory hf
  modifyStats := Run.Twin.modifyStats
  addThresholds _ := Run.Twin.modifyEngine (fun _ => rfl) fun _ _ _ => rfl
  useThresholds := Run.Twin.modifyEngine (fun _ => rfl) fun _ _ _ => rfl
  transform _ _ := Paired.bind (Run.Twin.modifyEngine (fun _ => rfl) fun _ _ _ => rfl) fun _ _ =>
    Paired.bind (Run.Twin.checkDeadline fun _ => trivial) fun _ _ => Paired.pure trivial
  widen _ _ := Run.Twin.engine (fun _ _ _ => rfl) fun _ => Run.Twin.widening (fun _ => trivial) _ _ _
  widenToThresholds _ _ := Run.Twin.engine (fun _ _ _ => rfl) fun _ => Run.Twin.widening (fun _ => trivial) _ _ _
  join _ _ := Paired.ofFault (fun _ _ => trivial) fun _ _ => trivial
  meet _ _ := Paired.ofFault (fun _ _ => trivial) fun _ _ => trivial
  query _ descending filter := (Run.Twin.query (fun _ => trivial) descending filter).mono
    fun _ _ _ _ _ => ⟨trivial, trivial⟩
  destinationOf _ := Run.Twin.destinationOf (fun _ => trivial) _

namespace Context.Alike

variable {key : Key} {c c' : Context}

theorem invariants_eq (h : Alike key c c') : c'.invariants key = c.invariants key := by
  have hat : c'.invariantAt key = c.invariantAt key := by
    funext n
    simp only [invariantAt, h.slots_eq, h.block_eq, h.arena]
  rw [invariants, invariants, h.size, hat]

theorem sites_eq (h : Alike key c c') (is : List NodeInvariant) : c'.sites is = c.sites is := by
  simp only [sites, h.arena]

theorem report_eq {su : Setup} {e : Engine Ω} (h : Alike su.key e.context c) (name : String) (result : Except Failure Bool) :
    Engine.report { e with context := c } su name result = e.report su name result := by
  simp only [Engine.report, h.invariants_eq, h.sites_eq]

end Context.Alike

variable [PathOracle Ω]

/-- A run that imports nothing does the same on every tracked context with the same blocks. -/
theorem runTechnique_alike {su : Setup} (hknown : su.options.known = none) {e : Engine Ω} {c : Context}
    (he : e.context.Tracked su.transfer) (hc : c.Tracked su.transfer) (harena : c.arena = e.context.arena)
    (hblocks : c.nodes.map (·.block) = e.context.nodes.map (·.block)) :
    (runTechnique su { e with context := c }).1 = (runTechnique su e).1 ∧
      ∃ d, (runTechnique su e).2.context.Alike su.key d ∧
        (runTechnique su { e with context := c }).2 = { (runTechnique su e).2 with context := d } := by
  obtain ⟨S, st, remembers, hst, hrun⟩ := exists_disciplined (Ω := Ω) su
  let D := Discipline.twin (Ω := Ω) su remembers
  have himport : D.Obeys (importRun su (List.range e.context.size)) := by
    unfold importRun
    rw [hknown]
    exact Paired.pure trivial
  have hrest := D.finishPreparation himport (Run.Twin.modifyEngine (fun _ => rfl) fun _ _ _ => rfl)
  have hsize : c.size = e.context.size := by simpa [Context.size] using congrArg List.length hblocks
  have hmatch := D.matches_run hst ⟨e, st.initial⟩ ⟨{ e with context := c }, st.initial⟩ he hc hsize
    ⟨c.prepared su, .prepared harena hblocks, rfl, hst.initial D.toShape⟩ hrest
  obtain ⟨d, hd, hd', -⟩ := hmatch.related
  rw [hrun, hrun, Strategy.runFresh_eq, Strategy.runFresh_eq]
  refine ⟨?_, d, hd, congrArg Run.engine hd'⟩
  dsimp only
  rw [hd', hmatch.same]
  rfl

/-- Runs that share a context do not interfere. A run leaves the slots under every other key as they were, in whatever
context. A run that imports nothing reports the same in a context that runs with its transfer function have used as in a
fresh one. -/
theorem analyzeWith_noninterference (su : Setup) (name : String) (oracle : Ω) (c : Context) :
    (∀ key ≠ su.key, ∀ n, (analyzeWith su name oracle c).2.slots n key = c.slots n key) ∧
      (c.Reached su.graph su.transfer → su.options.known = none →
        (analyzeWith su name oracle c).1 = (analyzeWith su name oracle (.build su.graph)).1) := by
  refine ⟨fun key hkey n => (Context.frame_analyzeWith su name oracle c).slots_eq hkey n, fun hc hknown => ?_⟩
  have hfresh := Context.ofGraph_build su.graph
  have harena : c.arena = (Context.build su.graph).arena := hc.ofGraph.arena.trans hfresh.arena.symm
  have hblocks : c.nodes.map (·.block) = (Context.build su.graph).nodes.map (·.block) := by
    rw [hc.ofGraph.blocks, hfresh.blocks, harena]
  obtain ⟨hsame, d, hd, hengine⟩ := runTechnique_alike hknown (e := .new su.options (.build su.graph) oracle)
    (Context.tracked_build su.graph su.transfer) hc.tracked harena hblocks
  have hsize : c.size = (Context.build su.graph).size := by simpa [Context.size] using congrArg List.length hblocks
  have hnew : { Engine.new su.options (.build su.graph) oracle with context := c } = Engine.new su.options c oracle := by
    simp only [Engine.new, hsize]
  rw [hnew] at hsame hengine
  rw [analyzeWith_eq, analyzeWith_eq]
  dsimp only
  rw [hsame, hengine, hd.report_eq]

/-- A classic run and then a disjunctive one that is cut off leave traces in the context of a third run. -/
theorem analyzeWith_noninterference_counter :
    let classic := Program.counter.setup { technique := .classic } .ample
    let stopped := Program.counter.setup { technique := .disjunctive } ⟨fun _ => 0, 2⟩
    let again := Program.counter.setup { technique := .disjunctive } .ample
    let fresh := Context.build Program.counter.graph.control
    let used := analyze stopped "f" (analyze classic "f" fresh).2
    used.1 = .error .outOfFuel ∧ used.2.hasRun classic.key = true ∧ used.2.hasRun again.key = true ∧
      (∀ n, (analyze again "f" used.2).2.slots n classic.key = used.2.slots n classic.key) ∧
      (analyze again "f" used.2).1 = (analyze again "f" fresh).1 := by
  intro classic stopped again fresh used
  have hused : used.2.Reached again.graph again.transfer := .run (.run .build _ _ "f" _) _ _ "f" _
  obtain ⟨hslots, hsame⟩ := analyzeWith_noninterference again "f" (SearchOracle.new again.graph again.transfer) used.2
  exact ⟨by decide +kernel, by decide +kernel, by decide +kernel, hslots classic.key (by decide), hsame hused rfl⟩

end PathInvariants
