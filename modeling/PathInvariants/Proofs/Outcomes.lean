import PathInvariants.Proofs.CutPaths
import PathInvariants.Report

/-!
# Outcomes

What the report of a completed analysis says about the state the run has ended in: the invariant of a
block has the stable disjuncts of its node that are not bottom, and a site is proved when there are
none.
-/
namespace PathInvariants

/-- The store lies in a disjunct that is reported for the block. -/
def Outcome.Covers (o : Outcome) (b : Block) (σ : Store) : Prop :=
  ∃ i, o.invariant? b = some i ∧ ∃ v ∈ i.disjuncts, v.Contains σ

/-- Whenever an execution that stops at the first error site stands at a cut point, its store lies in a disjunct
that is reported there. -/
def Outcome.CoversSafely (o : Outcome) (p : Program) : Prop :=
  ∀ b σ, p.arena.isCutBlock b = true → p.ReachesSafely b σ → o.Covers b σ

/-- A context for the analysis of a graph: its arena with a node for each block. Slots and environments may be
those that earlier runs have left. -/
structure Context.OfGraph (c : Context) (g : ControlFlow) : Prop where
  arena : c.arena = .build g
  blocks : c.nodes.map (·.block) = c.arena.blocks

theorem Context.ofGraph_build (g : ControlFlow) : (Context.build g).OfGraph g := by
  refine ⟨rfl, ?_⟩
  change ((Arena.build g).blocks.map Node.new).map (·.block) = (Arena.build g).blocks
  rw [List.map_map]
  exact List.map_id _

/-- The disjuncts of a slot that a report lists, bottom ones included. -/
def Slots.reported (technique : Technique) (s : Slots Disjunction) : List Value :=
  if technique = .disjunctive then s.stable.toList else [s.stable.first]

/-- The reported invariant of a node. -/
def Slots.invariant (key : Key) (s : Slots Disjunction) (b : Block) (isCut : Bool) : NodeInvariant :=
  ⟨b, (s.reported key.technique).filter fun v => !v.isBottom, isCut⟩

theorem getElem?_mapM {α β ε : Type} {f : α → Except ε β} {l : List α} {bs : List β} (h : l.mapM f = .ok bs) (n : ℕ) :
    (l[n]? = none ∧ bs[n]? = none) ∨ ∃ a b, l[n]? = some a ∧ bs[n]? = some b ∧ f a = .ok b := by
  induction l generalizing bs n with
  | nil =>
    obtain rfl : [] = bs := Except.ok.inj h
    exact .inl ⟨rfl, rfl⟩
  | cons a l ih =>
    rw [List.mapM_cons] at h
    cases hf : f a with
    | error e =>
      rw [hf] at h
      cases h
    | ok b =>
      cases hl : l.mapM f with
      | error e =>
        rw [hf, hl] at h
        cases h
      | ok bs' =>
        rw [hf, hl] at h
        obtain rfl : b :: bs' = bs := Except.ok.inj h
        cases n with
        | zero => exact .inr ⟨a, b, rfl, rfl, hf⟩
        | succ n => exact ih hl n

theorem exists_mapM_ok {α β ε : Type} {f : α → Except ε β} {l : List α} (h : ∀ a ∈ l, ∃ b, f a = .ok b) :
    ∃ bs, l.mapM f = .ok bs := by
  induction l with
  | nil => exact ⟨[], rfl⟩
  | cons a l ih =>
    obtain ⟨b, hb⟩ := h a (by simp)
    obtain ⟨bs, hbs⟩ := ih fun c hc => h c (by simp [hc])
    refine ⟨b :: bs, ?_⟩
    rw [List.mapM_cons, hb, hbs]
    rfl

variable {Ω S : Type} {su : Setup}

/-- The reported invariants are those of the nodes, in order. -/
theorem invariants_getElem? {c : Context} {key : Key} {is : List NodeInvariant} (h : c.invariants key = .ok is) (n : ℕ) :
    (c.nodes[n]? = none ∧ is[n]? = none) ∨ ∃ node s, c.nodes[n]? = some node ∧ node.slots? key = some s ∧
      is[n]? = some (s.invariant key node.block (c.arena.cuts.isCut n)) := by
  rcases getElem?_mapM h n with ⟨hn, his⟩ | ⟨m, i, hn, his, hi⟩
  · refine .inl ⟨List.getElem?_eq_none ?_, his⟩
    simpa [Context.size] using List.getElem?_eq_none_iff.mp hn
  · obtain ⟨hlt, hm⟩ := List.getElem?_eq_some_iff.mp hn
    rw [List.getElem_range] at hm
    subst hm
    obtain ⟨node, hnode⟩ : ∃ node, c.nodes[n]? = some node := by
      rw [List.length_range] at hlt
      exact ⟨c.nodes[n], List.getElem?_eq_getElem hlt⟩
    cases hs : node.slots? key with
    | none => simp [Context.invariantAt, Context.slots, Context.node, hnode, hs, bind, Except.bind] at hi
    | some s =>
      refine .inr ⟨node, s, hnode, hs, ?_⟩
      rw [his]
      simp only [Context.invariantAt, Context.slots, Context.block, Context.node, hnode, hs, bind, Except.bind, pure,
        Except.pure, Except.ok.injEq] at hi
      rw [← hi]
      rfl

/-- The verdicts are on the nodes with an error role. -/
theorem mem_sites {c : Context} {is : List NodeInvariant} {site : SiteReport} (h : site ∈ c.sites is) :
    ∃ n i, is[n]? = some i ∧ (c.arena.cuts.role n).isErrorSite = true ∧
      site = ⟨i.block, c.arena.cuts.role n, i.isBottom⟩ := by
  obtain ⟨⟨i, n⟩, hin, hsite⟩ := List.mem_filterMap.mp h
  dsimp only at hsite
  split at hsite
  · rename_i hrole
    exact ⟨n, i, List.mem_zipIdx_iff_getElem?.mp hin, hrole, (Option.some.inj hsite).symm⟩
  · cases hsite

theorem runFresh_spec {st : Strategy Ω S} {e e' : Engine Ω} {d : Bool} (h : st.runFresh su e = (.ok d, e')) :
    ∃ r₁ r₂, Yields (Analysis.prepare su) ⟨e, st.initial⟩ () r₁ ∧ Yields (st.computeFunction su) r₁ () r₂ ∧
      e' = r₂.engine := by
  unfold Strategy.runFresh at h
  cases hrun : (st.run su).run.run ⟨e, st.initial⟩ with
  | mk result final =>
    rw [hrun] at h
    cases result with
    | error f => cases h
    | ok u =>
      have hyields : Yields (st.run su) ⟨e, st.initial⟩ u final := hrun
      obtain ⟨u₁, r₁, hprepare, hcompute⟩ := yields_bind.mp hyields
      exact ⟨r₁, final, hprepare, hcompute, (Prod.mk.inj h).2.symm⟩

theorem analyzeWith_completed [PathOracle Ω] {name : String} {oracle : Ω} {ctx c : Context} {o : Outcome}
    (h : analyzeWith su name oracle ctx = (.ok o, c)) (hc : o.isCompleted = true) :
    ∃ d e, runTechnique su (.new su.options ctx oracle) = (.ok d, e) ∧ e.context.invariants su.key = .ok o.invariants ∧
      o.sites = e.context.sites o.invariants ∧ c = e.context := by
  unfold analyzeWith at h
  cases hrun : runTechnique su (.new su.options ctx oracle) with
  | mk result e =>
    rw [hrun] at h
    cases result with
    | error f =>
      dsimp only at h
      split at h
      · obtain rfl := Except.ok.inj (Prod.mk.inj h).1
        simp [Outcome.isCompleted] at hc
      · cases h
    | ok d =>
      dsimp only at h
      cases his : e.context.invariants su.key with
      | error v =>
        rw [his] at h
        cases h
      | ok is =>
        rw [his] at h
        obtain rfl := Except.ok.inj (Prod.mk.inj h).1
        exact ⟨d, e, rfl, his, rfl, (Prod.mk.inj h).2.symm⟩

/-- The outcome is the report on a run that has ended. -/
structure Outcome.Reports (o : Outcome) (su : Setup) (r : Run Ω S) : Prop where
  arena : r.arena = .build su.graph
  blocks : r.blocks = r.arena.blocks
  invariants : r.engine.context.invariants su.key = .ok o.invariants
  sites : o.sites = r.engine.context.sites o.invariants

theorem Value.Contains.not_isBottom {v : Value} {σ : Store} (h : v.Contains σ) : v.isBottom = false := by
  cases hb : v.isBottom with
  | false => rfl
  | true => exact absurd (Value.contains_iff.mp h).allows (Value.not_allows_of_isBottom hb _)

namespace Outcome.Reports

variable {o : Outcome} {r : Run Ω S}

/-- A later run may start from the context of the one reported. -/
theorem ofGraph (h : o.Reports su r) : r.engine.context.OfGraph su.graph := ⟨h.arena, h.blocks⟩

theorem block_of_getElem? (h : o.Reports su r) {n : ℕ} {i : NodeInvariant} (hi : o.invariants[n]? = some i) :
    r.blocks[n]? = some i.block := by
  rcases invariants_getElem? h.invariants n with ⟨-, hnone⟩ | ⟨node, s, hnode, -, his⟩
  · rw [hnone] at hi
    cases hi
  · rw [his] at hi
    rw [← Option.some.inj hi, Run.blocks, List.getElem?_map, hnode]
    rfl

/-- A block with a reported invariant has a node. -/
theorem exists_node (h : o.Reports su r) {b : Block} {i : NodeInvariant} (hi : o.invariant? b = some i) :
    ∃ n : ℕ, r.blocks[n]? = some b ∧ o.invariants[n]? = some i := by
  obtain ⟨n, hn⟩ := List.getElem?_of_mem (List.mem_of_find?_eq_some hi)
  have hb : i.block = b := by simpa using List.find?_some hi
  exact ⟨n, hb ▸ h.block_of_getElem? hn, hn⟩

/-- Every node has slots, and the lookup by its block finds their invariant. -/
theorem invariant_of_node (h : o.Reports su r) (hg : su.graph.Bounded) {n : ℕ} {b : Block} (hn : r.blocks[n]? = some b) :
    ∃ s, r.slots? su.key n = some s ∧ o.invariant? b = some (s.invariant su.key b (r.arena.cuts.isCut n)) := by
  rcases invariants_getElem? h.invariants n with ⟨hnone, -⟩ | ⟨node, s, hnode, hs, his⟩
  · rw [Run.blocks, List.getElem?_map, hnone] at hn
    cases hn
  · have hb : node.block = b := by
      rw [Run.blocks, List.getElem?_map, hnode] at hn
      exact Option.some.inj hn
    refine ⟨s, by rw [Run.slots?, hnode]; exact hs, ?_⟩
    rw [hb] at his
    cases hfind : o.invariant? b with
    | none =>
      have hne := List.find?_eq_none.mp hfind _ (List.mem_of_getElem? his)
      exact absurd (beq_self_eq_true b) hne
    | some i =>
      obtain ⟨m, hm, hi⟩ := h.exists_node hfind
      rw [h.blocks, h.arena] at hm hn
      obtain rfl := Arena.node_unique hg hm hn
      exact hi.symm.trans his

/-- A technique without unions reports the first stable disjunct if it is not bottom. -/
theorem disjuncts_eq (h : o.Reports su r) (hg : su.graph.Bounded) (ht : su.options.technique ≠ .disjunctive) {n : ℕ}
    {b : Block} (hn : r.blocks[n]? = some b) {s : Slots Disjunction} (hs : r.slots? su.key n = some s)
    (hb : s.stable.first.isBottom = false) : ∃ i, o.invariant? b = some i ∧ i.disjuncts = [s.stable.first] := by
  obtain ⟨s', hs', hi⟩ := h.invariant_of_node hg hn
  obtain rfl : s = s' := Option.some.inj (hs.symm.trans hs')
  refine ⟨_, hi, ?_⟩
  have ht' : su.key.technique ≠ .disjunctive := ht
  simp [Slots.invariant, Slots.reported, ht', hb]

/-- A store in a stable disjunct of a node is covered by the report. -/
theorem covers (h : o.Reports su r) (hg : su.graph.Bounded) {n : ℕ} {b : Block} (hn : r.blocks[n]? = some b)
    {s : Slots Disjunction} (hs : r.slots? su.key n = some s) {v : Value} (hv : v ∈ s.reported su.options.technique)
    {σ : Store} (hσ : v.Contains σ) : o.Covers b σ := by
  obtain ⟨s', hs', hi⟩ := h.invariant_of_node hg hn
  obtain rfl : s = s' := Option.some.inj (hs.symm.trans hs')
  refine ⟨_, hi, v, List.mem_filter.mpr ⟨hv, ?_⟩, hσ⟩
  rw [hσ.not_isBottom]
  rfl

/-- A store that the report covers is in a stable disjunct of the node. -/
theorem exists_of_covers (h : o.Reports su r) (hg : su.graph.Bounded) {b : Block} {σ : Store} (hσ : o.Covers b σ) :
    ∃ n s, r.blocks[n]? = some b ∧ r.slots? su.key n = some s ∧
      ∃ v ∈ s.reported su.options.technique, v.Contains σ := by
  obtain ⟨i, hi', v, hv, hσ⟩ := hσ
  obtain ⟨n, hn, -⟩ := h.exists_node hi'
  obtain ⟨s, hs, hi⟩ := h.invariant_of_node hg hn
  obtain rfl := Option.some.inj (hi.symm.trans hi')
  exact ⟨n, s, hn, hs, v, (List.mem_filter.mp hv).1, hσ⟩

/-- All stable disjuncts of a proved site are bottom. -/
theorem bottom_of_proved (h : o.Reports su r) {site : SiteReport} (hsite : site ∈ o.sites) (hp : site.isProved = true) :
    ∃ n s, r.blocks[n]? = some site.block ∧ r.slots? su.key n = some s ∧
      ∀ v ∈ s.reported su.options.technique, v.isBottom = true := by
  rw [h.sites] at hsite
  obtain ⟨n, i, hi, -, rfl⟩ := mem_sites hsite
  rcases invariants_getElem? h.invariants n with ⟨-, hnone⟩ | ⟨node, s, hnode, hs, his⟩
  · rw [hnone] at hi
    cases hi
  · obtain rfl := Option.some.inj (hi.symm.trans his)
    refine ⟨n, s, by rw [Run.blocks, List.getElem?_map, hnode]; rfl, by rw [Run.slots?, hnode]; exact hs, fun v hv => ?_⟩
    have hempty := List.filter_eq_nil_iff.mp (List.isEmpty_iff.mp hp) v hv
    simpa using hempty

/-- No store is covered at a proved site. -/
theorem not_covers_of_proved (h : o.Reports su r) (hg : su.graph.Bounded) {site : SiteReport} (hsite : site ∈ o.sites)
    (hp : site.isProved = true) (σ : Store) : ¬ o.Covers site.block σ := by
  intro hσ
  obtain ⟨n, s, hn, hs, hbottom⟩ := h.bottom_of_proved hsite hp
  obtain ⟨m, t, hm, ht, v, hv, hcontains⟩ := h.exists_of_covers hg hσ
  rw [h.blocks, h.arena] at hn hm
  obtain rfl := Arena.node_unique hg hn hm
  obtain rfl : s = t := Option.some.inj (hs.symm.trans ht)
  exact absurd (hbottom v hv) (by rw [hcontains.not_isBottom]; decide)

/-- A site with a verdict is a cut point. -/
theorem isCutBlock_of_site (h : o.Reports su r) (hg : su.graph.Bounded) {site : SiteReport} (hsite : site ∈ o.sites) :
    (Arena.build su.graph).isCutBlock site.block = true := by
  rw [h.sites] at hsite
  obtain ⟨n, i, hi, hrole, rfl⟩ := mem_sites hsite
  have hn := h.block_of_getElem? hi
  have herror : r.arena.cuts.isErrorSite n = true := hrole
  rw [h.blocks, h.arena] at hn
  rw [h.arena] at herror
  rw [Arena.isCutBlock_eq hg hn]
  exact Arena.isCut_of_isErrorSite (List.getElem?_eq_some_iff.mp hn).1 herror

theorem not_reachesSafely_of_proved {p : Program} {options : Options} {resources : Resources}
    (h : o.Reports (p.setup options resources) r) (hp : p.graph.WellFormed) (hsafe : o.CoversSafely p) {site : SiteReport}
    (hsite : site ∈ o.sites) (hproved : site.isProved = true) (σ : Store) : ¬ p.ReachesSafely site.block σ := fun hσ =>
  h.not_covers_of_proved hp.bounded hsite hproved σ (hsafe _ σ (h.isCutBlock_of_site hp.bounded hsite) hσ)

/-- For a technique without unions, the report covers exactly the stable stores. -/
theorem covers_iff_stable {k : ValueKind} (h : o.Reports su r) (hg : su.graph.Bounded)
    (ht : su.options.technique ≠ .disjunctive) (hk : k.domain = .intervals → k.rowless = true)
    (hkind : ∀ n s, r.slots? su.key n = some s → s.stable.first.OfKind k) {b : Block} {σ : Store} :
    o.Covers b σ ↔ ∃ n, r.blocks[n]? = some b ∧ r.Stable su.key n σ := by
  have hreported : ∀ s : Slots Disjunction, s.reported su.options.technique = [s.stable.first] := fun s => if_neg ht
  constructor
  · intro hσ
    obtain ⟨n, s, hn, hs, v, hv, hcontains⟩ := h.exists_of_covers hg hσ
    rw [hreported, List.mem_singleton] at hv
    exact ⟨n, hn, s, hs, hv ▸ (Value.contains_iff.mp hcontains).allows⟩
  · rintro ⟨n, hn, s, hs, hall⟩
    refine h.covers hg hn hs (v := s.stable.first) (by rw [hreported]; simp) ?_
    exact Value.contains_iff.mpr (hall.admits (hkind n s hs) hk)

end Outcome.Reports

/-- Whether an analysis completes with an outcome and a context that pass a test. -/
def completes (su : Setup) (ctx : Context) (test : Outcome → Context → Bool) : Bool :=
  match analyze su "f" ctx with
  | (.ok o, c) => o.isCompleted && test o c
  | (.error _, _) => false

theorem exists_of_completes (su : Setup) (ctx : Context) (test : Outcome → Context → Bool)
    (h : completes su ctx test = true) :
    ∃ o c, analyze su "f" ctx = (.ok o, c) ∧ o.isCompleted = true ∧ test o c = true := by
  unfold completes at h
  split at h
  · rename_i o c hrun
    exact ⟨o, c, hrun, Bool.and_eq_true_iff.mp h⟩
  · cases h

/-- A clock that stands still, and a thousand steps for every loop. -/
def Resources.ample : Resources := ⟨fun _ => 0, 1000⟩

/-- A site is reported as proved. -/
def Outcome.proves (o : Outcome) (b : Block) : Bool := o.sites.any fun site => site.block == b && site.isProved

theorem Outcome.exists_of_proves {o : Outcome} {b : Block} (h : o.proves b = true) :
    ∃ site ∈ o.sites, site.block = b ∧ site.isProved = true := by
  obtain ⟨site, hmem, htest⟩ := List.any_eq_true.mp h
  obtain ⟨hblock, hproved⟩ := Bool.and_eq_true_iff.mp htest
  exact ⟨site, hmem, beq_iff_eq.mp hblock, hproved⟩

/-- Counts from zero to ten and asserts that the count has gone no further. -/
def Program.counter : Program where
  name := "counter"
  declared := [("x", some .int)]
  graph :=
    { payloads := [⟨[.assign "x" (.const 0)], none⟩, ⟨[], none⟩, ⟨[.assign "x" (.var "x" + .const 1)], none⟩, ⟨[], none⟩]
      roles := [(3, .assertionFailure)]
      edges := [(0, 1, []), (1, 2, [.ge (.const 9 - .var "x")]), (2, 1, []), (1, 3, [.ge (.var "x" - .const 11)])] }

theorem Program.counter_wellFormed : counter.graph.WellFormed := ⟨by decide, by decide⟩

end PathInvariants
