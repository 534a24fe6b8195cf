import PathInvariants.Proofs.Coverage
import PathInvariants.Proofs.Outcomes

/-!
# Preparation

The state in which a run starts: the entry at top, every other node at bottom, nothing waiting, and
the known properties as another run has left them.
-/
namespace PathInvariants

variable {Ω S : Type}

/-- The value that a node starts with. -/
def startValue (domain : Domain) (n : ℕ) (env : Environment) : Value :=
  if n = 0 then .top domain env else .bottom domain env

theorem ofKind_startValue {k : ValueKind} {domain : Domain} (hD : k.domain = domain) (n : ℕ) (env : Environment) :
    (startValue domain n env).OfKind k := by
  subst hD
  rw [startValue]
  split
  · exact Value.ofKind_top env
  · exact Value.ofKind_bottom env

/-- The slots of a node before the first pass. -/
structure FreshSlots (domain : Domain) (n : ℕ) (s : Slots Disjunction) : Prop where
  start : ∃ env, s.stable = .single (startValue domain n env) ∧ s.descending = s.stable ∧ s.initial = s.stable
  known : s.known.others = []

/-- The property `d` is what the run `other` has left at the node: the hull of its stable value. -/
def Run.Left (r : Run Ω S) (other : Key) (n : ℕ) (d : Disjunction) : Prop :=
  ∃ t v env, r.slots? other n = some t ∧ t.stable.hull = .ok v ∧ d = .single (v.withEnv env)

/-- The state in which a run starts. -/
structure Prepared (su : Setup) (r r' : Run Ω S) : Prop where
  arena : r'.arena = r.arena
  blocks : r'.blocks = r.blocks
  oracle : r'.engine.oracle = r.engine.oracle
  memory : r'.memory = r.memory
  worklist : r'.engine.worklist = .empty
  computed : ∀ n, r'.computed? n ≠ some true
  slots : ∀ n s, r'.slots? su.key n = some s → FreshSlots su.options.domain n s
  present : ∀ n < r.blocks.length, (r'.slots? su.key n).isSome = true
  known : ∀ n s, r'.slots? su.key n = some s → s.known.first.isBottom = true ∨
    ∃ other, su.options.known = some other ∧ r.Left other n s.known

theorem Prepared.unknown {su : Setup} {r r' : Run Ω S} (h : Prepared su r r') (hnone : su.options.known = none) {n : ℕ}
    {s : Slots Disjunction} (hs : r'.slots? su.key n = some s) : s.known.first.isBottom = true := by
  rcases h.known n s hs with hbottom | ⟨other, hother, -⟩
  · exact hbottom
  · rw [hnone] at hother
    cases hother

namespace Analysis

open Run

variable {su : Setup}

theorem prepareNode_spec {n : ℕ} {r r' : Run Ω S} {u : Unit} (h : Yields (prepareNode su n) r u r') :
    r'.arena = r.arena ∧ r'.blocks = r.blocks ∧ r'.engine.oracle = r.engine.oracle ∧ r'.memory = r.memory ∧
      (∃ env, r'.slots? su.key n = some (.filled (.single (.bottom su.options.domain env)))) ∧
      (∀ m, m ≠ n → r'.slots? su.key m = r.slots? su.key m) ∧
      ∀ other, other ≠ su.key → ∀ m, r'.slots? other m = r.slots? other m := by
  simp only [prepareNode, yields_bind, yields_engine, yields_ofViolation, yields_ofFault, yields_modifyEngine] at h
  obtain ⟨e, r₁, ⟨rfl, rfl⟩, node, r₂, ⟨hnode, rfl⟩, tracked, r₃, ⟨htrack, rfl⟩, rfl⟩ := h
  have hget : r₃.engine.context.nodes[n]? = some node := by
    unfold Context.node at hnode
    split at hnode
    · rename_i node' hn
      rw [hn, Except.ok.inj hnode]
    · cases hnode
  have hlt : n < r₃.engine.context.nodes.length := (List.getElem?_eq_some_iff.mp hget).1
  obtain ⟨hblock, htracked⟩ : tracked.block = node.block ∧ tracked.slots = node.slots := by
    simp only [Node.track, bind, Except.bind, pure, Except.pure] at htrack
    split at htrack
    · cases htrack
    · rw [← Except.ok.inj htrack]
      exact ⟨rfl, rfl⟩
  refine ⟨rfl, ?_, rfl, rfl, ⟨tracked.env, ?_⟩, fun m hm => ?_, fun other ho m => ?_⟩
  · refine List.ext_getElem? fun m => ?_
    simp only [Run.blocks, Context.setNode, List.getElem?_map, List.getElem?_set]
    by_cases hm : n = m
    · subst hm
      rw [if_pos rfl, if_pos hlt, hget]
      exact congrArg some hblock
    · rw [if_neg hm]
  · simp only [slots?, Context.setNode, List.getElem?_set_self hlt, Option.bind_some, Node.slots?_setSlots]
  · simp only [slots?, Context.setNode, List.getElem?_set_ne fun hnm => hm hnm.symm]
  · simp only [slots?, Context.setNode, List.getElem?_set]
    by_cases hm : n = m
    · subst hm
      rw [if_pos rfl, if_pos hlt, hget, Option.bind_some, Option.bind_some, Node.slots?_setSlots_of_ne _ _ ho,
        Node.slots?, htracked, Node.slots?]
    · rw [if_neg hm]

/-- After the loop over all nodes, each has slots filled with bottom. -/
theorem prepareNodes_spec {count : ℕ} {r r' : Run Ω S} {u : Unit}
    (h : Yields ((List.range count).forM (prepareNode su)) r u r') :
    r'.arena = r.arena ∧ r'.blocks = r.blocks ∧ r'.engine.oracle = r.engine.oracle ∧ r'.memory = r.memory ∧
      (∀ n < count, ∃ env, r'.slots? su.key n = some (.filled (.single (.bottom su.options.domain env)))) ∧
      ∀ other, other ≠ su.key → ∀ m, r'.slots? other m = r.slots? other m := by
  obtain ⟨⟨harena, hblocks, horacle, hmemory, haside⟩, hall, -⟩ := yields_forM
    (I := fun x => x.arena = r.arena ∧ x.blocks = r.blocks ∧ x.engine.oracle = r.engine.oracle ∧ x.memory = r.memory ∧
      ∀ other, other ≠ su.key → ∀ m, x.slots? other m = r.slots? other m)
    (Q := fun n x => ∃ env, x.slots? su.key n = some (.filled (.single (.bottom su.options.domain env))))
    h ⟨rfl, rfl, rfl, rfl, fun _ _ _ => rfl⟩ fun n _ x x' hx hn => by
      obtain ⟨harena, hblocks, horacle, hmemory, hslots, hothers, haside⟩ := prepareNode_spec hn
      refine ⟨⟨harena.trans hx.1, hblocks.trans hx.2.1, horacle.trans hx.2.2.1, hmemory.trans hx.2.2.2.1,
        fun other ho m => (haside other ho m).trans (hx.2.2.2.2 other ho m)⟩, hslots, fun m hm => ?_⟩
      by_cases hmn : m = n
      · rw [hmn]
        exact hslots
      · rw [hothers m hmn]
        exact hm
  exact ⟨harena, hblocks, horacle, hmemory, fun n hn => hall n (List.mem_range.mpr hn), haside⟩

/-- The known property becomes what another run has left, and nothing else changes. -/
def ImportSlots (r : Run Ω S) (other : Key) (n : ℕ) (s s' : Slots Disjunction) : Prop :=
  ∃ d, r.Left other n d ∧ s' = { s with known := d }

theorem importKnown_spec {other : Key} {n : ℕ} {r₀ r r' : Run Ω S} {u : Unit}
    (h : Yields (importKnown su other n) r u r') (hother : ∀ m, r.slots? other m = r₀.slots? other m) :
    Rewrites su.key (· = n) (ImportSlots r₀ other) r r' := by
  simp only [importKnown, yields_bind, yields_engine, yields_ofViolation, yields_ofFault] at h
  obtain ⟨e, r₁, ⟨rfl, rfl⟩, t, r₂, ⟨ht, rfl⟩, hull, r₃, ⟨hhull, rfl⟩, env, r₄, henv, h⟩ := h
  obtain rfl := yields_env henv
  obtain ⟨s, hs, rfl⟩ := yields_setSlot h
  exact .put hs ⟨_, ⟨t, hull, env, (hother n).symm.trans (context_slots.mp ht), hhull, rfl⟩, rfl⟩

/-- The last steps: known properties are imported if there are some, nothing waits and no node is computed. -/
theorem importAll_spec {count : ℕ} {r r' : Run Ω S} {u : Unit} (hc : count = r.engine.context.nodes.length)
    (h : Yields (do
      match su.options.known with
      | some known =>
        if known ≠ su.key ∧ (← engine).context.hasRun known then (List.range count).forM (importKnown su known)
      | none => pure ()
      clearWorklist
      modifyEngine fun e => { e with computed := (List.range count).map fun _ => false }) r u r') :
    ∃ r₁, Rewrites su.key (fun _ => True) (fun n s s' => s' = s ∨
        ∃ other, su.options.known = some other ∧ other ≠ su.key ∧ ImportSlots r other n s s') r r₁ ∧
      r' = { r₁ with engine := { r₁.engine with worklist := .empty, computed := (List.range count).map fun _ => false } } := by
  have hsame : Rewrites su.key (fun _ => True) (fun n s s' => s' = s ∨
      ∃ other, su.options.known = some other ∧ other ≠ su.key ∧ ImportSlots r other n s s') r r :=
    ⟨rfl, rfl, rfl, rfl, rfl, rfl, rfl, fun _ _ => rfl, fun _ _ s hs => ⟨s, hs, .inl rfl⟩, fun _ h => h,
      fun _ _ _ => rfl⟩
  simp only [clearWorklist] at h
  split at h
  · rename_i known hknown
    simp only [yields_bind, yields_engine] at h
    obtain ⟨e, r₁, ⟨rfl, rfl⟩, h⟩ := h
    split at h
    · rename_i himport
      simp only [yields_bind, yields_modifyEngine] at h
      obtain ⟨u₁, r₂, hall, u₂, r₃, rfl, rfl⟩ := h
      have hw := (yields_forM_rewrites List.nodup_range (fun n _ x _ haside h =>
        importKnown_spec h (haside known himport.1)) hall).of_range hc
      refine ⟨r₂, ⟨hw.arena, hw.blocks, hw.length, hw.oracle, hw.worklist, hw.computed, hw.memory, hw.others,
        fun n hn s hs => ?_, hw.absent, hw.aside⟩, rfl⟩
      obtain ⟨s', hs', hslots⟩ := hw.slots n hn s hs
      exact ⟨s', hs', .inr ⟨known, hknown, himport.1, hslots⟩⟩
    · simp only [yields_bind, yields_modifyEngine] at h
      obtain ⟨u₁, r₂, rfl, rfl⟩ := h
      exact ⟨_, hsame, rfl⟩
  · simp only [yields_bind, yields_modifyEngine] at h
    obtain ⟨u₁, r₂, rfl, rfl⟩ := h
    exact ⟨r, hsame, rfl⟩

theorem yields_top {n : ℕ} {r r' : Run Ω S} {v : Value} (h : Yields (top su n) r v r') :
    (∃ env, v = .top su.options.domain env) ∧ r' = r := by
  simp only [top, yields_bind, yields_pure] at h
  obtain ⟨env, r₁, henv, rfl, rfl⟩ := h
  exact ⟨⟨env, rfl⟩, yields_env henv⟩

theorem prepare_spec {r r' : Run Ω S} {u : Unit} (h : Yields (prepare su) r u r') : Prepared su r r' := by
  simp only [prepare, yields_bind] at h
  obtain ⟨count, r₁, hcount, u₁, r₂, hnodes, h⟩ := h
  obtain ⟨rfl, rfl⟩ := yields_nodeCount hcount
  obtain ⟨harena, hblocks, horacle, hmemory, hfilled, haside⟩ := prepareNodes_spec hnodes
  have hlength : r₂.engine.context.nodes.length = r₁.engine.context.nodes.length := by
    simpa [blocks] using congrArg List.length hblocks
  have habsent : ∀ n, ¬ n < r₁.engine.context.nodes.length → r₂.slots? su.key n = none := by
    intro n hn
    rw [slots?, List.getElem?_eq_none (by omega)]
    rfl
  -- After the entry has its top, the slots are as they are to be, but for known properties.
  have hentry : ∃ r₃, Rewrites su.key (· = 0) (fun _ s s' => ∃ env, s' = ⟨.single (.top su.options.domain env),
      .single (.top su.options.domain env), .single (.top su.options.domain env), s.known⟩) r₂ r₃ ∧ Yields (do
      match su.options.known with
      | some known =>
        if known ≠ su.key ∧ (← engine).context.hasRun known then
          (List.range r₁.engine.context.nodes.length).forM (importKnown su known)
      | none => pure ()
      clearWorklist
      modifyEngine fun e => { e with computed := (List.range r₁.engine.context.nodes.length).map fun _ => false })
      r₃ u r' := by
    split at h
    · rename_i hempty
      have hzero : r₁.engine.context.nodes.length = 0 := by simpa using hempty
      refine ⟨r₂, ⟨rfl, rfl, rfl, rfl, rfl, rfl, rfl, fun _ _ => rfl, fun n _ s hs => ?_, fun _ h => h,
        fun _ _ _ => rfl⟩, h⟩
      rw [habsent n (by omega)] at hs
      cases hs
    · simp only [yields_bind, yields_slots] at h
      obtain ⟨v, r₃, htop, s, r₄, ⟨hs, rfl⟩, u₂, r₅, hset, h⟩ := h
      obtain ⟨⟨env, rfl⟩, rfl⟩ := yields_top htop
      rw [yields_setSlots hset] at h
      exact ⟨_, .put hs ⟨env, rfl⟩, h⟩
  obtain ⟨r₃, hw, hrest⟩ := hentry
  obtain ⟨r₄, hw', rfl⟩ := importAll_spec (hlength.symm.trans hw.length.symm) hrest
  have hslots : ∀ n s, r₄.slots? su.key n = some s → FreshSlots su.options.domain n s ∧
      (s.known.first.isBottom = true ∨ ∃ other, su.options.known = some other ∧ r₁.Left other n s.known) := by
    intro n s hs
    obtain ⟨s₃, hs₃, ⟨-, himport⟩ | ⟨hn, -⟩⟩ := hw'.exists_slots hs
    · have hfresh : FreshSlots su.options.domain n s₃ ∧ s₃.known.first.isBottom = true := by
        obtain ⟨s₂, hs₂, hcase⟩ := hw.exists_slots hs₃
        have hlt : n < r₁.engine.context.nodes.length := by
          by_contra hn
          rw [habsent n hn] at hs₂
          cases hs₂
        obtain ⟨env₂, henv₂⟩ := hfilled n hlt
        obtain rfl := Option.some.inj (hs₂.symm.trans henv₂)
        rcases hcase with ⟨rfl, env, rfl⟩ | ⟨hn, rfl⟩
        · exact ⟨⟨⟨env, rfl, rfl, rfl⟩, rfl⟩, rfl⟩
        · refine ⟨⟨⟨env₂, ?_, rfl, rfl⟩, rfl⟩, rfl⟩
          rw [startValue, if_neg hn]
          rfl
      obtain ⟨hfresh, hbottom⟩ := hfresh
      rcases himport with rfl | ⟨other, hknown, ho, d, ⟨t, v, env, ht, hv, rfl⟩, rfl⟩
      · exact ⟨hfresh, .inl hbottom⟩
      · rw [hw.aside other ho n, haside other ho n] at ht
        exact ⟨⟨hfresh.start, rfl⟩, .inr ⟨other, hknown, t, v, env, ht, hv, rfl⟩⟩
    · exact absurd trivial hn
  refine ⟨hw'.arena.trans (hw.arena.trans harena), hw'.blocks.trans (hw.blocks.trans hblocks),
    hw'.oracle.trans (hw.oracle.trans horacle), hw'.memory.trans (hw.memory.trans hmemory), rfl, fun n hn => ?_,
    fun n s hs => (hslots n s hs).1, fun n hn => ?_, fun n s hs => (hslots n s hs).2⟩
  · simp only [computed?, List.getElem?_map] at hn
    cases hg : (List.range r₁.engine.context.nodes.length)[n]? <;> simp [hg] at hn
  · obtain ⟨env, henv⟩ := hfilled n (by simpa [blocks] using hn)
    have h₃ : ∃ s, r₃.slots? su.key n = some s := by
      by_cases h0 : n = 0
      · obtain ⟨s', hs', -⟩ := hw.slots n h0 _ henv
        exact ⟨s', hs'⟩
      · exact ⟨_, (hw.others n h0).trans henv⟩
    obtain ⟨s, hs⟩ := h₃
    obtain ⟨s', hs', -⟩ := hw'.slots n trivial s hs
    exact Option.isSome_iff_exists.mpr ⟨s', hs'⟩

end Analysis

/-- A run that has been prepared on the arena of a graph. -/
structure Started (su : Setup) (r : Run Ω S) : Prop where
  arena : r.arena = .build su.graph
  blocks : r.blocks = (Arena.build su.graph).blocks
  worklist : r.engine.worklist = .empty
  computed : ∀ n, r.computed? n ≠ some true
  slots : ∀ n s, r.slots? su.key n = some s → FreshSlots su.options.domain n s
  present : ∀ n b, r.blocks[n]? = some b → ∃ s, r.slots? su.key n = some s
  unknown : su.options.known = none → ∀ n s, r.slots? su.key n = some s → s.known.first.isBottom = true

theorem started_of_prepare {su : Setup} {oracle : Ω} {ctx : Context} {m : S} {r₁ : Run Ω S} (hctx : ctx.OfGraph su.graph)
    (h : Yields (Analysis.prepare su) ⟨.new su.options ctx oracle, m⟩ () r₁) :
    Started su r₁ ∧ r₁.memory = m ∧ r₁.engine.oracle = oracle := by
  have hp := Analysis.prepare_spec h
  have hblocks : r₁.blocks = (Arena.build su.graph).blocks := by
    rw [← hctx.arena]
    exact hp.blocks.trans hctx.blocks
  refine ⟨⟨hp.arena.trans hctx.arena, hblocks, hp.worklist, hp.computed, hp.slots, fun n b hb => ?_,
    fun hnone _ _ hs => hp.unknown hnone hs⟩, hp.memory, hp.oracle⟩
  rw [hp.blocks] at hb
  exact Option.isSome_iff_exists.mp (hp.present n (List.getElem?_eq_some_iff.mp hb).1)

/-- A completed analysis has prepared a run and taken it to the state that the outcome reports. -/
theorem exists_run_of_completed [PathOracle Ω] {su : Setup} (st : Strategy Ω S) {name : String} {oracle : Ω}
    {ctx c : Context} {o : Outcome} (hctx : ctx.OfGraph su.graph)
    (hst : ∀ e : Engine Ω, runTechnique su e = st.runFresh su e)
    (h : analyzeWith su name oracle ctx = (.ok o, c)) (hc : o.isCompleted = true) :
    ∃ r₁ r₂, Yields (Analysis.prepare su) ⟨.new su.options ctx oracle, st.initial⟩ () r₁ ∧ Started su r₁ ∧
      r₁.memory = st.initial ∧ r₁.engine.oracle = oracle ∧ Yields (st.computeFunction su) r₁ () r₂ ∧
      c = r₂.engine.context ∧ (r₂.arena = .build su.graph → r₂.blocks = (Arena.build su.graph).blocks → o.Reports su r₂) := by
  obtain ⟨d, e, hrun, his, hsites, hcontext⟩ := analyzeWith_completed h hc
  rw [hst] at hrun
  obtain ⟨r₁, r₂, hprepare, hcompute, rfl⟩ := runFresh_spec hrun
  obtain ⟨hstart, hmemory, horacle⟩ := started_of_prepare hctx hprepare
  exact ⟨r₁, r₂, hprepare, hstart, hmemory, horacle, hcompute, hcontext,
    fun harena hblocks => ⟨harena, by rw [harena, hblocks], his, hsites⟩⟩

/-- A node has slots only if it has a block. -/
theorem Run.exists_block {r : Run Ω S} {key : Key} {n : ℕ} {s : Slots Disjunction} (hs : r.slots? key n = some s) :
    ∃ b, r.blocks[n]? = some b := by
  cases hnode : r.engine.context.nodes[n]? with
  | none =>
    rw [Run.slots?, hnode] at hs
    cases hs
  | some node => exact ⟨node.block, by rw [Run.blocks, List.getElem?_map, hnode]; rfl⟩

/-- Every store is in the start value of the entry. -/
theorem Started.stable_zero {su : Setup} {r : Run Ω S} (h : Started su r) (hg : su.graph.Bounded) (σ : Store) :
    r.Stable su.key 0 σ := by
  obtain ⟨s, hs⟩ := h.present 0 su.graph.entry (by rw [h.blocks, Arena.blocks_zero hg])
  obtain ⟨env, hstable, -⟩ := (h.slots 0 s hs).start
  refine ⟨s, hs, ?_⟩
  rw [hstable]
  exact Value.allows_top _ _ _

/-- No store is in the start values of the other nodes. -/
theorem Started.not_stable {su : Setup} {r : Run Ω S} (h : Started su r) {n : ℕ} (hn : n ≠ 0) (σ : Store) :
    ¬ r.Stable su.key n σ := by
  rintro ⟨s, hs, hσ⟩
  obtain ⟨env, hstable, -⟩ := (h.slots n s hs).start
  rw [hstable, startValue, if_neg hn] at hσ
  exact Value.not_allows_of_isBottom rfl _ hσ

end PathInvariants
