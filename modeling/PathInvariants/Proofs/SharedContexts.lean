import PathInvariants.Proofs.EngineInvariants
import PathInvariants.Proofs.Outcomes

/-!
# Contexts that several runs share

A run tracks the live variables of every block before anything else. Their kinds are those that the
transfer function gives, so tracking them once more changes nothing, and the nodes that a run starts
with are a function of the blocks. Whatever a run does and however it ends, it leaves the slots of runs
under other keys as they were.
-/
namespace PathInvariants

open Analysis

variable {Ω S : Type}

/-- Symbols without a contradicting kind can be tracked, and then have the kind they are given. -/
theorem Environment.exists_track {kinds : Symbol → VariableKind} {env : Environment}
    (h : ∀ s, env.get s = none ∨ env.get s = kinds s) (symbols : List Symbol) :
    ∃ u, symbols.foldlM (fun e s => Environment.add e s (kinds s)) env = .ok u ∧
      ∀ s, u.get s = if s ∈ symbols then kinds s else env.get s := by
  induction symbols generalizing env with
  | nil => exact ⟨env, rfl, fun s => by simp⟩
  | cons t ts ih =>
    obtain ⟨e, he, hget⟩ : ∃ e, Environment.add env t (kinds t) = .ok e ∧ ∀ s, e.get s = if s = t then kinds t else env.get s := by
      cases hkind : kinds t with
      | none =>
        refine ⟨env, rfl, fun s => ?_⟩
        split
        · rename_i hst
          rw [hst]
          simpa [hkind] using h t
        · rfl
      | some kind =>
        have hclash : ∀ k, env.get t = some k → k = kind := by
          intro k hk
          simpa [hk, hkind] using h t
        refine ⟨Sparse.set env t (some kind), ?_, fun s => Sparse.get_set _ _ _ _⟩
        cases kind with
        | int => exact if_neg fun (hreal : env.get t = some .real) => nomatch hclash _ hreal
        | real => exact if_neg fun (hint : env.get t = some .int) => nomatch hclash _ hint
    have hagrees : ∀ s, e.get s = none ∨ e.get s = kinds s := by
      intro s
      rw [hget]
      split
      · rename_i hst
        exact .inr (by rw [hst])
      · exact h s
    obtain ⟨u, hu, hget'⟩ := ih hagrees
    refine ⟨u, by rw [List.foldlM_cons, he]; exact hu, fun s => ?_⟩
    rw [hget', hget]
    by_cases hts : s ∈ ts
    · simp [hts]
    · by_cases hst : s = t
      · simp [hst]
      · simp [hts, hst]

/-- The environment in which a block is analyzed: its live variables with their kinds. -/
def Transfer.environment (t : Transfer) (b : Block) : Environment := Sparse.ofFn none (t.liveVariables b) t.kindOf

namespace Node

variable {t : Transfer} {node : Node Disjunction}

/-- No run has tracked the variables of the node yet, or one with the transfer function has. -/
def Tracked (t : Transfer) (node : Node Disjunction) : Prop := node.env = .empty ∨ node.env = t.environment node.block

theorem track_eq (h : node.Tracked t) :
    node.track t.kindOf (t.liveVariables node.block) = .ok { node with env := t.environment node.block } := by
  have hagrees : ∀ s, node.env.get s = none ∨ node.env.get s = t.kindOf s := by
    intro s
    rcases h with h | h
    · exact .inl (by rw [h]; rfl)
    · rw [h, Transfer.environment, Sparse.get_ofFn]
      split
      · exact .inr rfl
      · exact .inl rfl
  obtain ⟨u, hu, hget⟩ := Environment.exists_track hagrees (t.liveVariables node.block)
  have heq : u = t.environment node.block := by
    refine Sparse.ext fun s => ?_
    rw [hget, Transfer.environment, Sparse.get_ofFn]
    split
    · rfl
    · rename_i hs
      rcases h with h | h
      · rw [h]
        rfl
      · rw [h, Transfer.environment, Sparse.get_ofFn, if_neg hs]
  rw [track, hu, heq]
  rfl

/-- The node as a run starts with it. -/
def prepared (su : Setup) (node : Node Disjunction) : Node Disjunction :=
  setSlots { node with env := su.transfer.environment node.block } su.key
    (.filled (.single (.bottom su.options.domain (su.transfer.environment node.block))))

end Node

namespace Context

variable {c : Context} {key : Key} {n : ℕ}

theorem node_eq_ok {x : Node Disjunction} : c.node n = .ok x ↔ c.nodes[n]? = some x := by
  unfold node
  cases c.nodes[n]? <;> simp

theorem block_eq_ok {b : Block} : c.block n = .ok b ↔ ∃ x, c.nodes[n]? = some x ∧ x.block = b := by
  unfold block node
  cases c.nodes[n]? <;> simp [bind, Except.bind, pure, Except.pure]

theorem slots_eq_ok {s : Slots Disjunction} : c.slots n key = .ok s ↔ ∃ x, c.nodes[n]? = some x ∧ x.slots? key = some s := by
  unfold slots node
  cases c.nodes[n]? with
  | none => simp [bind, Except.bind]
  | some x => cases h : x.slots? key <;> simp [bind, Except.bind, h]

theorem setSlots_eq_ok {s : Slots Disjunction} {d : Context} : c.setSlots n key s = .ok d ↔
    ∃ x, c.nodes[n]? = some x ∧ c.setNode n (x.setSlots key s) = d := by
  unfold setSlots node
  cases c.nodes[n]? <;> simp [bind, Except.bind, pure, Except.pure]

def Tracked (t : Transfer) (c : Context) : Prop := ∀ node ∈ c.nodes, node.Tracked t

theorem tracked_build (g : ControlFlow) (t : Transfer) : (Context.build g).Tracked t := by
  intro node hnode
  obtain ⟨b, -, rfl⟩ := List.mem_map.mp hnode
  exact .inl rfl

/-- The context after the first `k` nodes have been prepared. -/
def preparedTo (su : Setup) (k : ℕ) (c : Context) : Context :=
  { c with nodes := c.nodes.mapIdx fun i node => if i < k then node.prepared su else node }

def prepared (su : Setup) (c : Context) : Context := { c with nodes := c.nodes.map (Node.prepared su) }

theorem preparedTo_zero (su : Setup) (c : Context) : c.preparedTo su 0 = c := by
  have hnodes : (c.preparedTo su 0).nodes = c.nodes := by simp [preparedTo, List.mapIdx_eq_iff]
  exact congrArg (Context.mk c.arena) hnodes

theorem preparedTo_succ (su : Setup) {c : Context} {k : ℕ} {node : Node Disjunction} (h : c.nodes[k]? = some node) :
    (c.preparedTo su k).setNode k (node.prepared su) = c.preparedTo su (k + 1) := by
  have hnodes : ((c.preparedTo su k).setNode k (node.prepared su)).nodes = (c.preparedTo su (k + 1)).nodes := by
    refine List.ext_getElem? fun i => ?_
    simp only [preparedTo, setNode, List.getElem?_set, List.getElem?_mapIdx, List.length_mapIdx]
    by_cases hik : k = i
    · subst hik
      obtain ⟨hlt, rfl⟩ := List.getElem?_eq_some_iff.mp h
      simp [hlt]
    · have hlt : i < k ↔ i < k + 1 := by omega
      simp [hik, hlt]
  exact congrArg (Context.mk c.arena) hnodes

theorem preparedTo_size (su : Setup) (c : Context) : c.preparedTo su c.size = c.prepared su := by
  have hnodes : (c.preparedTo su c.size).nodes = (c.prepared su).nodes := by
    refine List.ext_getElem? fun i => ?_
    rw [preparedTo, prepared, List.getElem?_mapIdx, List.getElem?_map]
    cases hi : c.nodes[i]? with
    | none => rfl
    | some node => simp [size, (List.getElem?_eq_some_iff.mp hi).1]
  exact congrArg (Context.mk c.arena) hnodes

end Context

/-- The run with another context. -/
def Run.withContext (r : Run Ω S) (context : Context) : Run Ω S := { r with engine := { r.engine with context } }

namespace Analysis

variable {su : Setup}

theorem yields_prepareNode {r : Run Ω S} {n : ℕ} {node : Node Disjunction} (hn : r.engine.context.nodes[n]? = some node)
    (h : node.Tracked su.transfer) :
    Yields (prepareNode su n) r () (r.withContext (r.engine.context.setNode n (node.prepared su))) := by
  have hnode : r.engine.context.node n = .ok node := by rw [Context.node, hn]
  simp only [prepareNode, yields_bind, yields_engine, yields_ofViolation, yields_ofFault, yields_modifyEngine]
  exact ⟨_, _, ⟨rfl, rfl⟩, node, r, ⟨hnode, rfl⟩, _, r, ⟨Node.track_eq h, rfl⟩, rfl⟩

/-- Preparing the nodes of a tracked context takes each to its start. -/
theorem yields_prepareNodes {r : Run Ω S} (h : r.engine.context.Tracked su.transfer) {k : ℕ} (hk : k ≤ r.engine.context.size) :
    Yields ((List.range k).forM (prepareNode su)) r () (r.withContext (r.engine.context.preparedTo su k)) := by
  induction k with
  | zero =>
    rw [Context.preparedTo_zero]
    exact yields_pure.mpr ⟨rfl, rfl⟩
  | succ k ih =>
    obtain ⟨node, hnode⟩ : ∃ node, r.engine.context.nodes[k]? = some node :=
      ⟨_, List.getElem?_eq_getElem (by rw [Context.size] at hk; omega)⟩
    have hnode' : (r.engine.context.preparedTo su k).nodes[k]? = some node := by
      simp [Context.preparedTo, List.getElem?_mapIdx, hnode]
    have hstep := yields_prepareNode (r := r.withContext (r.engine.context.preparedTo su k)) hnode'
      (h node (List.mem_of_getElem? hnode))
    rw [List.range_succ, List.forM_eq_forM, List.forM_append]
    refine yields_bind.mpr ⟨(), _, ih (by omega), yields_bind.mpr ⟨(), _, hstep, yields_pure.mpr ⟨rfl, ?_⟩⟩⟩
    rw [← Context.preparedTo_succ su hnode]
    rfl

end Analysis

namespace Analysis

variable {su : Setup}

/-- Puts the entry at top. -/
def startEntry (su : Setup) (nodes : List ℕ) : Analysis Ω S Unit :=
  unless nodes.isEmpty do
    let top := Disjunction.single (← top su 0)
    setSlots su 0 { (← slots su 0) with stable := top, descending := top, initial := top }

/-- Makes the invariants of the run that the options name known, if there has been one. -/
def importRun (su : Setup) (nodes : List ℕ) : Analysis Ω S Unit := do
  match su.options.known with
  | some known =>
    if known ≠ su.key ∧ (← engine).context.hasRun known then nodes.forM (importKnown su known)
  | none => pure ()

/-- Forgets what is waiting and what has been computed. -/
def clearSchedule (nodes : List ℕ) : Analysis Ω S Unit := do
  clearWorklist
  modifyEngine fun e => { e with computed := nodes.map fun _ => false }

/-- What is left of the preparation once the nodes have their slots. -/
def finishPreparation (su : Setup) (nodes : List ℕ) : Analysis Ω S Unit :=
  startEntry su nodes >>= fun _ => importRun su nodes >>= fun _ => clearSchedule nodes

theorem importRun_bind (nodes : List ℕ) (m : Analysis Ω S Unit) : (importRun su nodes >>= fun _ => m) =
    match su.options.known with
    | some known => engine >>= fun e =>
      if known ≠ su.key ∧ e.context.hasRun known then nodes.forM (importKnown su known) >>= fun _ => m else m
    | none => m := by
  unfold importRun
  split
  · rw [bind_assoc]
    refine bind_congr fun e => ?_
    split
    · rfl
    · rw [pure_bind]
  · rw [pure_bind]

theorem prepare_eq (su : Setup) : (prepare su : Analysis Ω S Unit) = nodeCount >>= fun count =>
    (List.range count).forM (prepareNode su) >>= fun _ => finishPreparation su (List.range count) := by
  refine bind_congr fun count => bind_congr fun _ => ?_
  rw [finishPreparation, importRun_bind, startEntry]
  cases (List.range count).isEmpty with
  | true => rfl
  | false =>
    simp only [Bool.false_eq_true, if_false, bind_assoc]
    rfl

theorem run_prepare {r : Run Ω S} (h : r.engine.context.Tracked su.transfer) (m : Analysis Ω S Unit) :
    (prepare su >>= fun _ => m).run.run r = (finishPreparation su (List.range r.engine.context.size) >>= fun _ => m).run.run
      (r.withContext (r.engine.context.prepared su)) := by
  have hcount : Yields nodeCount r r.engine.context.size r := rfl
  have hnodes := yields_prepareNodes h le_rfl
  rw [Context.preparedTo_size] at hnodes
  rw [prepare_eq, bind_assoc, hcount.run_bind, bind_assoc, hnodes.run_bind]

end Analysis

theorem Strategy.runFresh_eq (st : Strategy Ω S) (su : Setup) (e : Engine Ω) : st.runFresh su e =
    let ended := (st.run su).run.run ⟨e, st.initial⟩
    (ended.1.map fun _ => st.isDegraded ended.2.memory, ended.2.engine) := rfl

namespace Discipline

variable [PathOracle Ω] {su : Setup} {remembers : (ℕ → Prop) → (ℕ → Prop) → S → Prop}
  (D : Discipline (Ω := Ω) su remembers) {st : Strategy Ω S}

theorem startEntry (nodes : List ℕ) : D.Obeys (Analysis.startEntry su nodes) := by
  refine Paired.ite (fun _ => Paired.pure trivial) fun _ => Holds.bind (D.top D.node_entry) fun v hv => ?_
  have htop := D.union_single hv
  exact Holds.bind (D.slots D.node_entry) fun s hs =>
    D.setSlots D.node_entry (((hs.set .stable htop).set .descending htop).set .initial htop)

theorem finishPreparation {nodes : List ℕ} (himport : D.Obeys (Analysis.importRun su nodes))
    (hcomputed : D.Obeys (Analysis.modifyEngine fun e => { e with computed := nodes.map fun _ => false })) :
    D.Obeys (Analysis.finishPreparation su nodes) :=
  Obeys.bind (D.startEntry nodes) fun _ => Obeys.bind himport fun _ => Obeys.bind D.clearWorklist fun _ => hcomputed

/-- Two runs of a strategy on tracked contexts, which are related once their nodes have been prepared. -/
theorem matches_run (hst : st.Disciplined su remembers) (r r' : Run Ω S) (hr : r.engine.context.Tracked su.transfer)
    (hr' : r'.engine.context.Tracked su.transfer) (hsize : r'.engine.context.size = r.engine.context.size)
    (hstart : D.related (r.withContext (r.engine.context.prepared su)) (r'.withContext (r'.engine.context.prepared su)))
    (hrest : D.Obeys (Analysis.finishPreparation su (List.range r.engine.context.size))) :
    Matches D.related D.fails (fun _ => True) ((st.run su).run.run r) ((st.run su).run.run r') := by
  rw [Strategy.run, Analysis.run_prepare hr, Analysis.run_prepare hr', hsize]
  exact (hrest _ _ hstart).bind fun _ _ => hst.obeys D

end Discipline

namespace EngineInvariant

variable [PathOracle Ω] {su : Setup} (K : EngineInvariant Ω su) {M : S → Prop}

/-- What a run under another key has left can be imported. -/
def Imports : Prop := ∀ known ≠ su.key, ∀ e e' n, K.holds e → K.holds e' → e.context.hasRun known = true → K.node n →
  Meets (fun v => K.fails (.violation v)) (fun s => Meets (fun f => K.fails (.fault f)) (fun _ => True) s.stable.hull)
    (e'.context.slots n known)

variable {K}

theorem Imports.of_fails (h : ∀ f, K.fails f) : K.Imports :=
  fun _ _ _ _ _ _ _ _ _ => ⟨fun _ _ => ⟨fun _ _ => trivial, fun _ _ => h _⟩, fun _ _ => h _⟩

theorem Imports.importRun (h : K.Imports) {nodes : List ℕ} (hnodes : ∀ n ∈ nodes, K.node n)
    (remembers : (ℕ → Prop) → (ℕ → Prop) → S → Prop) : (K.discipline remembers).Obeys (Analysis.importRun su nodes) := by
  unfold Analysis.importRun
  split
  · rename_i known hknown
    refine Paired.bind K.engine fun e he => Paired.ite (fun hrun => Paired.forM fun n hn => ?_) fun _ => Paired.pure trivial
    have hnode := hnodes n hn
    refine Paired.bind K.engine fun e' he' => ?_
    obtain ⟨hslots, hviolation⟩ := h known hrun.1 e e' n he he' hrun.2 hnode
    refine Paired.bind (Paired.ofViolation hslots hviolation) fun s hs => ?_
    refine Paired.bind (Paired.ofFault hs.1 hs.2) fun hull _ => ?_
    exact Paired.bind ((K.discipline remembers).readEnv hnode) fun env henv =>
      (K.discipline remembers).setSlot hnode .known (K.union_single (K.value_withEnv henv hull))
  · exact Paired.pure trivial

/-- A run on a tracked context keeps an invariant that its prepared nodes satisfy, and fails in the allowed ways only. -/
theorem runTechnique_keeps (h : K.Imports) {e : Engine Ω} (htracked : e.context.Tracked su.transfer)
    (hstart : K.holds { e with context := e.context.prepared su })
    (hcomputed : ∀ e', K.holds e' → K.holds { e' with computed := (List.range e.context.size).map fun _ => false }) :
    K.holds (runTechnique su e).2 ∧ ∀ f, (runTechnique su e).1 = .error f → K.fails f := by
  obtain ⟨S, st, remembers, hst, hrun⟩ := exists_disciplined (Ω := Ω) su
  have hnodes : ∀ n ∈ List.range e.context.size, K.node n := by
    intro n hn
    refine K.nodeCount hstart n ?_
    simpa [Context.size, Context.prepared] using hn
  have hrest := (K.discipline remembers).finishPreparation (h.importRun hnodes remembers) (K.modifyEngine hcomputed)
  have hmatch := (K.discipline remembers).matches_run hst ⟨e, st.initial⟩ ⟨e, st.initial⟩ htracked htracked rfl
    ⟨rfl, hstart, hst.initial K.toShape⟩ hrest
  rw [hrun, Strategy.runFresh_eq]
  refine ⟨hmatch.related.2.1, fun f hf => hmatch.failed f ?_⟩
  cases hresult : ((st.run su).run.run ⟨e, st.initial⟩).1 with
  | ok u => simp [hresult, Except.map] at hf
  | error f' => simpa [hresult, Except.map] using hf

/-- An invariant of contexts, oracles and all that has been stored, which asks nothing of nodes, values and paths and
allows every failure. -/
def lenient (D : Shape su) (hnode : ∀ n, D.node n) (henv : ∀ n env, D.env n env) (hvalue : ∀ n v, D.value n v)
    (hpath : ∀ p, D.path p) (context : Context → Prop) (oracle : Ω → Prop)
    (hslots : ∀ c, context c → ∀ n s, c.slots n su.key = .ok s → s.All (D.union n))
    (hset : ∀ c, context c → ∀ n s, s.All (D.union n) → ∀ c', c.setSlots n su.key s = .ok c' → context c')
    (hask : ∀ c, context c → ∀ o, oracle o → ∀ q : PathQuery,
      let asked := PathOracle.query q (c.view su.key) (PathOracle.push o)
      oracle (PathOracle.pop asked.2).2 ∧ ∀ p i, asked.1 = .ok (.sat p i) → D.departs i) : EngineInvariant Ω su where
  toShape := D
  holds e := context e.context ∧ oracle e.oracle ∧ ∀ w ∈ e.written, w.2.All (D.union w.1)
  fails _ := True
  fails_timeout := trivial
  fails_outOfFuel := trivial
  arena _ := ⟨fun n _ => hnode n, fun _ _ => ⟨fun s _ => hnode s, fun s _ => hnode s⟩⟩
  nodeCount _ n _ := hnode n
  lookup _ _ _ := ⟨fun _ _ => henv _ _, fun _ _ => trivial⟩
  slots h n _ := ⟨fun s hs => hslots _ h.1 n s hs, fun _ _ => trivial⟩
  setSlots h n _ s hs := by
    refine ⟨fun c hc _ he => ⟨hset _ h.1 n s hs c hc, he.2.1, fun w hw => ?_⟩, fun _ _ => trivial⟩
    rcases List.mem_cons.mp hw with rfl | hw
    · exact hs
    · exact he.2.2 w hw
  computed _ _ _ := .inr trivial
  setComputed h _ _ _ := h
  push h _ _ _ := h
  pop _ _ _ _ := ⟨hnode _, fun _ h => h⟩
  clear h := h
  quiet h _ _ _ _ _ := h
  join _ _ := ⟨fun _ _ => hvalue _ _, fun _ _ => trivial⟩
  meet _ _ := ⟨fun _ _ => hvalue _ _, fun _ _ => trivial⟩
  widenTo _ _ _ := ⟨fun _ _ => hvalue _ _, fun _ _ => trivial⟩
  ask h _ n start _ _ descending filter := by
    obtain ⟨horacle, hsat⟩ := hask _ h.1 _ h.2.1 ⟨start, descending, filter⟩
    refine ⟨fun _ he => ⟨he.1, horacle, he.2.2⟩, ⟨fun _ _ => trivial, fun _ _ => trivial⟩, fun answer hanswer => ?_, fun _ _ => trivial⟩
    refine ⟨fun _ => trivial, fun p i hpi => ⟨⟨hpath p, hsat p i (hpi ▸ hanswer)⟩, fun _ _ => ?_⟩⟩
    exact ⟨fun _ _ => trivial, fun _ _ => trivial⟩
  destination_none _ _ := trivial
  index _ _ _ _ _ := ⟨fun n _ => hnode n, fun _ => trivial⟩

end EngineInvariant

/-- A shape that asks nothing. -/
def Shape.free (su : Setup) : Shape su where
  node _ := True
  env _ _ := True
  value _ _ := True
  union _ _ := True
  stores _ _ := True
  departs _ := True
  path _ := True
  node_entry := trivial
  value_withEnv _ _ := trivial
  value_joinOver _ _ _ := trivial
  value_top _ := trivial
  value_bottom _ := trivial
  value_mem _ _ _ := trivial
  union_single _ := trivial
  union_set _ _ _ := trivial
  stores_first _ := trivial
  stores_pilot _ _ := trivial
  stores_lt _ _ _ _ := trivial
  stores_bottom _ _ := trivial
  stores_get? _ _ _ := trivial

/-- The block and the slots under other keys are as they were, and a tracked node has stayed one. -/
structure Node.Kept (key : Key) (t : Transfer) (x y : Node Disjunction) : Prop where
  block : y.block = x.block
  tracked : x.Tracked t → y.Tracked t
  slots : ∀ other ≠ key, y.slots? other = x.slots? other

namespace Node.Kept

variable {key : Key} {t : Transfer} {x y z : Node Disjunction}

theorem setSlots (h : x.Kept key t y) (s : Slots Disjunction) : x.Kept key t (y.setSlots key s) where
  block := h.block
  tracked := h.tracked
  slots other hother := by rw [Node.slots?_setSlots_of_ne _ _ hother, h.slots other hother]

theorem track (h : x.Kept key t y) (hz : y.track t.kindOf (t.liveVariables y.block) = .ok z) : x.Kept key t z := by
  have hfields : z.block = y.block ∧ z.slots = y.slots := by
    unfold Node.track at hz
    cases henv : (t.liveVariables y.block).foldlM (fun env s => Environment.add env s (t.kindOf s)) y.env with
    | error f => simp [henv, bind, Except.bind] at hz
    | ok env =>
      obtain rfl : { y with env } = z := by simpa [henv, bind, Except.bind, pure, Except.pure] using hz
      exact ⟨rfl, rfl⟩
  refine ⟨hfields.1.trans h.block, fun hx => ?_, fun other hother => ?_⟩
  · rw [Node.track_eq (h.tracked hx)] at hz
    obtain rfl := Except.ok.inj hz
    exact .inr rfl
  · rw [Node.slots?, hfields.2]
    exact h.slots other hother

end Node.Kept

namespace Context

/-- What a run under `key` leaves alone. -/
structure Frame (key : Key) (t : Transfer) (c c' : Context) : Prop where
  arena : c'.arena = c.arena
  size : c'.size = c.size
  nodes : ∀ {n : ℕ} {x y : Node Disjunction}, c.nodes[n]? = some x → c'.nodes[n]? = some y → x.Kept key t y

namespace Frame

variable {key : Key} {t : Transfer} {c c' : Context} {n : ℕ} {y : Node Disjunction}

theorem refl (key : Key) (t : Transfer) (c : Context) : Frame key t c c where
  arena := rfl
  size := rfl
  nodes hx hy := by
    obtain rfl := Option.some.inj (hx.symm.trans hy)
    exact ⟨rfl, id, fun _ _ => rfl⟩

theorem setNode (h : Frame key t c c') (hy : ∀ x : Node Disjunction, c.nodes[n]? = some x → x.Kept key t y) :
    Frame key t c (c'.setNode n y) where
  arena := h.arena
  size := (List.length_set : (c'.nodes.set n y).length = _).trans h.size
  nodes {m x z} hx hz := by
    rw [Context.setNode, List.getElem?_set] at hz
    split at hz
    · rename_i hnm
      subst hnm
      split at hz
      · obtain rfl := Option.some.inj hz
        exact hy x hx
      · cases hz
    · exact h.nodes hx hz

theorem slots_eq (h : Frame key t c c') {other : Key} (hother : other ≠ key) (n : ℕ) : c'.slots n other = c.slots n other := by
  have hlength : c'.nodes.length = c.nodes.length := h.size
  unfold slots node
  cases hx : c.nodes[n]? with
  | none =>
    have hy : c'.nodes[n]? = none := by rw [List.getElem?_eq_none_iff] at hx ⊢; omega
    rw [hy]
  | some x =>
    have hy := List.getElem?_eq_getElem (l := c'.nodes) (i := n) (by have := (List.getElem?_eq_some_iff.mp hx).1; omega)
    rw [hy]
    simp only [bind, Except.bind, (h.nodes hx hy).slots other hother]

theorem setSlots (h : Frame key t c c') {s : Slots Disjunction} {d : Context} (hd : c'.setSlots n key s = .ok d) :
    Frame key t c d := by
  obtain ⟨y, hy, rfl⟩ := setSlots_eq_ok.mp hd
  exact h.setNode fun x hx => (h.nodes hx hy).setSlots s

/-- Every node was there before. -/
theorem exists_kept (h : Frame key t c c') (hy : y ∈ c'.nodes) : ∃ x ∈ c.nodes, x.Kept key t y := by
  obtain ⟨n, hn⟩ := List.getElem?_of_mem hy
  have hlt : n < c.nodes.length := by
    have hlength : c'.nodes.length = c.nodes.length := h.size
    have := (List.getElem?_eq_some_iff.mp hn).1
    omega
  exact ⟨_, List.getElem_mem hlt, h.nodes (List.getElem?_eq_getElem hlt) hn⟩

theorem tracked (h : Frame key t c c') (hc : c.Tracked t) : c'.Tracked t := by
  intro y hy
  obtain ⟨x, hx, hkept⟩ := h.exists_kept hy
  exact hkept.tracked (hc x hx)

theorem blocks_eq (h : Frame key t c c') : c'.nodes.map (·.block) = c.nodes.map (·.block) := by
  refine List.ext_getElem? fun n => ?_
  have hlength : c'.nodes.length = c.nodes.length := h.size
  rw [List.getElem?_map, List.getElem?_map]
  cases hx : c.nodes[n]? with
  | none =>
    have hy : c'.nodes[n]? = none := by rw [List.getElem?_eq_none_iff] at hx ⊢; omega
    rw [hy]
  | some x =>
    have hlt : n < c'.nodes.length := by have := (List.getElem?_eq_some_iff.mp hx).1; omega
    have hy := List.getElem?_eq_getElem hlt
    rw [hy, Option.map_some, Option.map_some, (h.nodes hx hy).block]

theorem hasRun_eq (h : Frame key t c c') {other : Key} (hother : other ≠ key) : c'.hasRun other = c.hasRun other := by
  have hlength : c'.nodes.length = c.nodes.length := h.size
  rw [hasRun, hasRun, List.head?_eq_getElem?, List.head?_eq_getElem?]
  cases hx : c.nodes[0]? with
  | none =>
    have hy : c'.nodes[0]? = none := by rw [List.getElem?_eq_none_iff] at hx ⊢; omega
    rw [hy]
  | some x =>
    have hy := List.getElem?_eq_getElem (l := c'.nodes) (i := 0) (by have := (List.getElem?_eq_some_iff.mp hx).1; omega)
    rw [hy]
    simp only [Option.any_some, Node.hasSlots, (h.nodes hx hy).slots other hother]

theorem prepared (su : Setup) (c : Context) : Frame su.key su.transfer c (c.prepared su) where
  arena := rfl
  size := List.length_map _
  nodes {n x y} hx hy := by
    rw [Context.prepared, List.getElem?_map, hx] at hy
    obtain rfl := Option.some.inj hy
    exact ⟨rfl, fun _ => .inr rfl, fun other hother => Node.slots?_setSlots_of_ne _ _ hother⟩

/-- The frame as an invariant of any run. -/
def invariant (Ω : Type) [PathOracle Ω] (su : Setup) (c : Context) : EngineInvariant Ω su :=
  .lenient (.free su) (fun _ => trivial) (fun _ _ => trivial) (fun _ _ => trivial) (fun _ => trivial)
    (Frame su.key su.transfer c) (fun _ => True) (fun _ _ _ _ _ _ => trivial)
    (fun _ h _ _ _ _ hset => h.setSlots hset) fun _ _ _ _ _ => ⟨trivial, fun _ _ _ => trivial⟩

end Frame

end Context

/-- Whatever a run does and however it ends, it stays within its frame. -/
theorem frame_runTechnique [PathOracle Ω] (su : Setup) (e : Engine Ω) :
    e.context.Frame su.key su.transfer (runTechnique su e).2.context := by
  obtain ⟨S, st, remembers, hst, hrun⟩ := exists_disciplined (Ω := Ω) su
  let K := Context.Frame.invariant Ω su e.context
  let D := K.discipline remembers
  have himports : K.Imports := .of_fails fun _ => trivial
  have hnode : ∀ n, D.Obeys (prepareNode su n) := by
    intro n
    refine Paired.bind K.engine fun e' he' => ?_
    refine Paired.bind (Paired.ofViolation (fun _ hy => Context.node_eq_ok.mp hy) fun _ _ => trivial) fun y hy => ?_
    refine Paired.bind (Paired.ofFault (fun _ hz => hz) fun _ _ => trivial) fun z hz => K.modifyEngine fun e'' he'' => ?_
    exact ⟨he''.1.setNode fun x hx => ((he'.1.nodes hx hy).track hz).setSlots _, trivial, he''.2.2⟩
  have hobeys : D.Obeys (st.run su) := by
    rw [Strategy.run, prepare_eq]
    refine Discipline.Obeys.bind (Discipline.Holds.bind D.nodeCount fun count _ => ?_) fun _ => hst.obeys D
    refine Discipline.Obeys.bind (Paired.forM fun n _ => hnode n) fun _ => ?_
    exact D.finishPreparation (himports.importRun (fun _ _ => trivial) remembers) (K.modifyEngine fun _ he => he)
  have hmatch := hobeys ⟨e, st.initial⟩ ⟨e, st.initial⟩ ⟨rfl, ⟨.refl _ _ _, trivial, fun _ _ _ => trivial⟩,
    hst.initial K.toShape⟩
  rw [hrun, Strategy.runFresh_eq]
  exact hmatch.related.2.1.1

/-- What is reported of a run that has ended in this engine. -/
def Engine.report (e : Engine Ω) (su : Setup) (name : String) (result : Except Failure Bool) : Except Failure Outcome :=
  let outcome (status : Status) (invariants : List NodeInvariant) (isDegraded : Bool) : Outcome :=
    { name, key := su.key, status, invariants, sites := e.context.sites invariants, stats := e.stats, isDegraded }
  match result with
  | .error f => if f.isRecoverable then .ok (outcome (.unknown f) [] false) else .error f
  | .ok isDegraded =>
    match e.context.invariants su.key with
    | .error v => .error (.violation v)
    | .ok invariants => .ok (outcome .completed invariants isDegraded)

theorem analyzeWith_eq [PathOracle Ω] (su : Setup) (name : String) (oracle : Ω) (c : Context) :
    analyzeWith su name oracle c =
      let ended := runTechnique su (.new su.options c oracle)
      (ended.2.report su name ended.1, ended.2.context) := by
  unfold analyzeWith Engine.report
  obtain ⟨result, e⟩ := runTechnique su (.new su.options c oracle)
  dsimp only
  cases result with
  | error f => rfl
  | ok isDegraded => cases e.context.invariants su.key <;> rfl

namespace Context

/-- The contexts of a graph after any number of runs with one transfer function: with any options, resources and oracles,
and whether they ended with a result or not. -/
inductive Reached (g : ControlFlow) (t : Transfer) : Context → Prop
  | build : Reached g t (.build g)
  | run {c : Context} (h : Reached g t c) {Ω : Type} [PathOracle Ω] (options : Options) (resources : Resources) (name : String)
      (oracle : Ω) : Reached g t (analyzeWith ⟨g, t, options, resources⟩ name oracle c).2

theorem frame_analyzeWith [PathOracle Ω] (su : Setup) (name : String) (oracle : Ω) (c : Context) :
    c.Frame su.key su.transfer (analyzeWith su name oracle c).2 := by
  rw [analyzeWith_eq]
  exact frame_runTechnique su (.new su.options c oracle)

namespace Reached

variable {g : ControlFlow} {t : Transfer} {c : Context}

theorem tracked (h : Reached g t c) : c.Tracked t := by
  induction h with
  | build => exact tracked_build g t
  | run h options resources name oracle ih =>
    exact (frame_analyzeWith ⟨g, t, options, resources⟩ name oracle _).tracked ih

theorem ofGraph (h : Reached g t c) : c.OfGraph g := by
  induction h with
  | build => exact ofGraph_build g
  | @run c h Ω _ options resources name oracle ih =>
    have hframe := frame_analyzeWith ⟨g, t, options, resources⟩ name oracle c
    exact ⟨hframe.arena.trans ih.arena, hframe.blocks_eq.trans (ih.blocks.trans (congrArg Arena.blocks hframe.arena.symm))⟩

end Reached

end Context

end PathInvariants
