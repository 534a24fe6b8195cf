import PathInvariants.Proofs.CheckedValues
import PathInvariants.Proofs.FurnishedContexts
import PathInvariants.Proofs.OracleQueries

/-!
# Absence of internal errors

The searching oracle decides every query in a furnished context: the known property that it meets an image
with is over the environment that the image has been taken to. Its answers are listed paths, which follow
edges from the start to a node of the arena, and a query leaves it as deep as it was. So a run with it can
only end with a result, at its deadline, or by a loop bound. The operations on values that it is made of agree
with their checked forms, so no index, divisor or substitution in them is at fault either.
-/
namespace PathInvariants

namespace SearchOracle

variable {t : Transfer} {view : StateView}

/-- What is known at a block is over the environment of the block. -/
def Aligned (view : StateView) : Prop := ∀ b, ∀ v ∈ view.disjuncts b .known, view.environment b = some v.env

theorem mem_of_knownProperty? {b : Block} {known : Value} (h : knownProperty? view b = some known) :
    known ∈ view.disjuncts b .known := by
  unfold knownProperty? at h
  split at h
  · rename_i v hv
    obtain rfl := Option.some.inj h
    exact (List.mem_filter.mp (hv ▸ List.mem_singleton_self v)).1
  · cases h

/-- The image of a value meets what is known at its end. -/
theorem exists_image (h : Aligned view) (v : Value) (p : Path) (b : Block) : ∃ w, image t view v p b = .ok w := by
  simp only [image]
  split
  · exact ⟨_, rfl⟩
  · split
    · rename_i known hknown
      rw [h b known (mem_of_knownProperty? hknown)]
      obtain ⟨w, hw, -⟩ := Value.exists_meet_of_env (v := (t.along p v).withEnv known.env) (w := known) rfl
      exact ⟨w, hw⟩
    · exact ⟨_, rfl⟩

theorem exists_isNovel (h : Aligned view) (sl : Slot) (v : Value) (p : Path) : ∃ found, isNovel t view sl v p = .ok found := by
  unfold isNovel
  split
  · exact ⟨false, rfl⟩
  · rename_i b hb
    obtain ⟨w, hw⟩ := exists_image (t := t) h v p b
    rw [hw]
    exact ⟨_, rfl⟩

/-- A query between a push and a pop leaves the oracle as deep as it was. -/
theorem depth_pop_prepare (view : StateView) (o : SearchOracle) (b : Block) :
    (PathOracle.pop ((PathOracle.push o).prepare view b)).2.depth = o.depth := by
  unfold prepare
  split <;> rfl

end SearchOracle

namespace Context

variable {su : Setup} {c : Context}

theorem Furnished.aligned (h : c.Furnished su) : SearchOracle.Aligned (c.view su.key) := by
  intro b v hv
  unfold view at hv ⊢
  dsimp only at hv ⊢
  cases hn : c.arena.index? b with
  | none => simp [hn] at hv
  | some n =>
    cases hx : c.nodes[n]? with
    | none => simp [hn, hx] at hv
    | some x =>
      obtain ⟨s, hs, hover⟩ := h.exists_slots hx
      have hmem : v ∈ s.known.toList := by simpa [hn, hx, hs, Slots.get] using hv
      have henv : x.env = v.env := by
        rw [h.env x (List.mem_of_getElem? hx), ← h.envAt_eq hx]
        exact (hover .known v hmem).symm
      simp [hx, henv]

end Context

/-- A run may end at its deadline or by a loop bound. -/
def Failure.isExternal (f : Failure) : Prop := f = .timeout ∨ f = .outOfFuel

/-- The path leads to a node of the arena. -/
def Arena.LeadsTo (a : Arena) (p : Path) : Prop := ∃ n b, p.destination? = some b ∧ a.index? b = some n

/-- The oracle lists the paths of the graph right and is at the given depth. -/
def SearchOracle.Fit (su : Setup) (depth : ℕ) (o : SearchOracle) : Prop :=
  o.Lists su.graph su.transfer (Arena.build su.graph).isCutBlock ∧ o.depth = depth

/-- The searching oracle answers every query, with a path that passes the check, and comes back to its depth. -/
theorem SearchOracle.promised {su : Setup} (hg : su.graph.Bounded) (depth : ℕ) :
    EngineInvariant.Promised su (Fit su depth) (Arena.build su.graph).LeadsTo Failure.isExternal := by
  intro c o n start descending filter hc ho hstart
  have hcut : (c.view su.key).isCut = (Arena.build su.graph).isCutBlock := by rw [← hc.ofGraph.arena]; rfl
  have hlists : (PathOracle.push o).Lists su.graph su.transfer (c.view su.key).isCut := hcut ▸ ho.1.push
  obtain ⟨answer, hquery, hunknown⟩ := exists_query_of_isNovel ⟨start, descending, filter⟩ (PathOracle.push o)
    fun sl v p => exists_isNovel hc.aligned sl v p
  obtain ⟨o', hpop⟩ := exists_pop (c.view su.key) o start
  have hdepth := depth_pop_prepare (c.view su.key) o start
  intro asked
  have hasked : asked = (.ok answer, (PathOracle.push o).prepare (c.view su.key) start) := hquery
  rw [hpop] at hdepth
  rw [hasked]
  dsimp only
  rw [hpop]
  refine ⟨⟨hcut ▸ (hlists.prepare start).1.pop hpop, hdepth.trans ho.2⟩, meets_ok trivial, meets_ok ?_⟩
  refine ⟨fun h => absurd h hunknown, fun p i hsat => ?_⟩
  have hlisted := (mem_of_sat (c.view su.key) hlists (hsat ▸ hquery)).1
  rw [hcut] at hlisted
  obtain ⟨rank, hrank⟩ := Arena.exists_rank hg
  obtain ⟨-, m, b, hdestination, hb, -⟩ := Arena.exists_destination hg hrank hstart hlisted
  rw [Arena.checkPath_eq hg hstart hlisted]
  exact ⟨⟨m, b, hdestination, Arena.index?_eq hg hb⟩, meets_ok trivial⟩

/-- A run with the searching oracle has no internal error, and leaves the oracle as deep as it was. -/
theorem furnished_search {su : Setup} (hg : su.graph.Bounded) {c : Context} (hc : c.Reached su.graph su.transfer)
    {oracle : SearchOracle} (ho : oracle.Lists su.graph su.transfer (Arena.build su.graph).isCutBlock) :
    (runTechnique su (.new su.options c oracle)).2.Furnished su c (SearchOracle.Fit su oracle.depth) ∧
      ∀ f, (runTechnique su (.new su.options c oracle)).1 = .error f → f.isExternal := by
  refine Context.furnished_runTechnique hg hc.ofGraph hc.tracked (hc.complete hg) (SearchOracle.promised hg oracle.depth)
    (fun p hp => ?_) (.inl rfl) (.inr rfl) ⟨ho, rfl⟩
  obtain ⟨n, b, hdestination, hindex⟩ := hp
  refine ⟨fun hnone => ?_, fun b' hb' hnone => ?_⟩
  · rw [hdestination] at hnone
    cases hnone
  · obtain rfl := Option.some.inj (hdestination.symm.trans hb')
    rw [hindex] at hnone
    cases hnone

/-- The report of a furnished run that has had no internal error. -/
theorem Engine.report_of_furnished {Ω : Type} {su : Setup} {e : Engine Ω} (h : e.context.Furnished su)
    {result : Except Failure Bool} (hresult : ∀ f, result = .error f → f.isExternal) (name : String) :
    e.report su name result = .error .outOfFuel ∨ ∃ o, e.report su name result = .ok o ∧
      (o.status = .completed ∨ o.status = .unknown .timeout) := by
  obtain ⟨invariants, hinvariants⟩ := h.exists_invariants
  cases result with
  | error f =>
    rcases hresult f rfl with rfl | rfl
    · exact .inr ⟨_, rfl, .inr rfl⟩
    · exact .inl rfl
  | ok isDegraded =>
    simp only [report, hinvariants]
    exact .inr ⟨_, rfl, .inl rfl⟩

/-- No internal error is in reach. A run of a linear program with the searching oracle, on a context that runs with the
same transfer function may have used before, ends with a result or at its deadline unless a loop is cut off, and its
report is of one of the two kinds; the oracle is then as deep as before. The edges of the arena lead to nodes of it. The
operations on values that a run is made of, down to the elimination of rows, never index out of range, never divide by
zero and never substitute what cannot be inverted. -/
theorem Program.no_internal_errors {p : Program} (hp : p.graph.WellFormed) {c : Context}
    (hc : c.Reached p.graph.control p.transfer) {oracle : SearchOracle}
    (ho : oracle.Lists p.graph.control p.transfer p.arena.isCutBlock) (options : Options) (resources : Resources)
    (name : String) :
    let su := p.setup options resources
    let ended := runTechnique su (.new options c oracle)
    (∀ f, ended.1 = .error f → f = .timeout ∨ f = .outOfFuel) ∧
      ((analyzeWith su name oracle c).1 = .error .outOfFuel ∨ ∃ o, (analyzeWith su name oracle c).1 = .ok o ∧
        (o.status = .completed ∨ o.status = .unknown .timeout)) ∧
      ended.2.oracle.depth = oracle.depth ∧ ended.2.oracle.Lists p.graph.control p.transfer p.arena.isCutBlock ∧
      (∀ i < p.arena.size, ∀ j ∈ p.arena.successors i, j < p.arena.size) ∧
      (∀ v st, Statement.execute? v st = .ok (st.apply v)) ∧ (∀ v w : Value, v.meet? w = v.meet w) ∧
      (∀ (v : Value) s c, v.threshold? s c = .ok (v.thresholdRange? s c)) ∧
      (∀ path v, p.along? path v = .ok (p.transfer.along path v)) ∧ (∀ v w : Value, v.Checked w) ∧
      ∀ d : Disjunction, d.hull? = d.hull := by
  intro su ended
  obtain ⟨hended, hfails⟩ := @furnished_search su hp.bounded c hc oracle ho
  refine ⟨hfails, ?_, hended.oracle.2, hended.oracle.1, fun i hi j hj => ?_, fun v st => st.execute?_eq v, Value.meet?_eq,
    Value.threshold?_eq, p.along?_eq, Value.checked, Disjunction.hull?_eq⟩
  · rw [analyzeWith_eq]
    exact Engine.report_of_furnished hended.context hfails name
  · obtain ⟨b, hb, -⟩ := Arena.exists_block_of_successor hp.bounded (List.getElem?_eq_getElem hi) hj
    exact (List.getElem?_eq_some_iff.mp hb).1

/-- A seeded run that imports the result of another one, with an oracle that is three levels deep. -/
theorem Program.no_internal_errors_counter :
    let classic := counter.setup { technique := .classic } .ample
    let options : Options := { technique := .lookahead, seeded := true, known := some classic.key }
    let used := (analyze classic "f" (.build counter.graph.control)).2
    let oracle : SearchOracle := { SearchOracle.new counter.graph.control counter.transfer with depth := 3 }
    let ended := runTechnique (counter.setup options .ample) (.new options used oracle)
    used.hasRun classic.key = true ∧ (∀ f, ended.1 = .error f → f = .timeout ∨ f = .outOfFuel) ∧ ended.2.oracle.depth = 3 := by
  intro classic options used oracle ended
  have hused : used.Reached counter.graph.control counter.transfer := .run .build _ _ "f" _
  have hlists := SearchOracle.lists_new counter.graph.control counter.transfer counter.arena.isCutBlock
  have h := no_internal_errors counter_wellFormed hused (⟨rfl, rfl, hlists.paths⟩ : oracle.Lists _ _ _) options .ample "f"
  exact ⟨by decide +kernel, h.1, h.2.2.1⟩

end PathInvariants
