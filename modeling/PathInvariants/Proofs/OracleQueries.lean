import PathInvariants.Proofs.CutPaths

/-!
# Queries to the searching oracle

The searching oracle answers with paths from its list of all paths to the next cut points, and it
answers that there is none only when every listed path leads from the disjuncts of the start into
those of its end.
-/
namespace PathInvariants

section Search

variable {α ε : Type} {f : α → Except ε Bool} {l : List α}

theorem findM?_eq_none (h : l.findM? f = .ok none) : ∀ a ∈ l, f a = .ok false := by
  induction l with
  | nil => exact fun a ha => nomatch ha
  | cons b l ih =>
    unfold List.findM? at h
    intro a ha
    cases hb : f b with
    | error e =>
      rw [hb] at h
      cases h
    | ok found =>
      rw [hb] at h
      cases found with
      | true => cases h
      | false =>
        rcases List.mem_cons.mp ha with rfl | ha
        · exact hb
        · exact ih h a ha

theorem findM?_eq_some {a : α} (h : l.findM? f = .ok (some a)) : a ∈ l ∧ f a = .ok true := by
  induction l with
  | nil => cases h
  | cons b l ih =>
    unfold List.findM? at h
    cases hb : f b with
    | error e =>
      rw [hb] at h
      cases h
    | ok found =>
      rw [hb] at h
      cases found with
      | true =>
        obtain rfl : b = a := Option.some.inj (Except.ok.inj h)
        exact ⟨by simp, hb⟩
      | false =>
        obtain ⟨hmem, ha⟩ := ih h
        exact ⟨by simp [hmem], ha⟩

theorem exists_findM? (h : ∀ a ∈ l, ∃ b, f a = .ok b) : ∃ found, l.findM? f = .ok found := by
  induction l with
  | nil => exact ⟨none, rfl⟩
  | cons a l ih =>
    obtain ⟨b, hb⟩ := h a (by simp)
    rw [List.findM?, hb]
    cases b with
    | true => exact ⟨some a, rfl⟩
    | false => exact ih fun c hc => h c (by simp [hc])

end Search

/-- The slot that a query compares the images of paths with. -/
def PathQuery.target (q : PathQuery) : Slot := if q.descending then .descending else .stable

namespace SearchOracle

variable {g : ControlFlow} {t : Transfer} {isCut : Block → Bool} {view : StateView} {q : PathQuery} {o o' : SearchOracle}

/-- The oracle is one for the graph, and what it has listed are paths between cut points. -/
structure Lists (o : SearchOracle) (g : ControlFlow) (t : Transfer) (isCut : Block → Bool) : Prop where
  graph : o.graph = g
  transfer : o.transfer = t
  paths : ∀ b ps, o.paths.lookup b = some ps → ps = pathsFrom g isCut (g.size + 1) [] b

theorem lists_new (g : ControlFlow) (t : Transfer) (isCut : Block → Bool) : (new g t).Lists g t isCut :=
  ⟨rfl, rfl, fun _ _ h => nomatch h⟩

theorem Lists.prepare (h : o.Lists g t view.isCut) (b : Block) : (o.prepare view b).Lists g t view.isCut ∧
    (o.prepare view b).paths.lookup b = some (pathsFrom g view.isCut (g.size + 1) [] b) := by
  unfold SearchOracle.prepare
  split
  · rename_i hsome
    obtain ⟨ps, hps⟩ := Option.isSome_iff_exists.mp hsome
    exact ⟨h, h.paths b ps hps ▸ hps⟩
  · have hnew : ((b, pathsFrom g view.isCut (g.size + 1) [] b) :: o.paths).lookup b =
        some (pathsFrom g view.isCut (g.size + 1) [] b) := by simp
    rw [h.graph]
    refine ⟨⟨rfl, h.transfer, fun c ps hc => ?_⟩, hnew⟩
    by_cases hcb : c = b
    · subst hcb
      exact Option.some.inj (hc.symm.trans hnew)
    · refine h.paths c ps ?_
      have hne : (c == b) = false := by simpa using hcb
      simpa [List.lookup_cons, hne] using hc

theorem Lists.query (view : StateView) (h : o.Lists g t view.isCut) {answer : Except Failure OracleAnswer}
    (ha : SearchOracle.query q view o = (answer, o')) : o'.Lists g t view.isCut := by
  obtain rfl : o.prepare view q.start = o' := by
    unfold SearchOracle.query at ha
    dsimp only at ha
    split at ha <;> exact (Prod.mk.inj ha).2
  exact (h.prepare q.start).1

theorem Lists.push (h : o.Lists g t isCut) : Lists (PathOracle.push o) g t isCut := ⟨h.graph, h.transfer, h.paths⟩

theorem Lists.pop (h : o.Lists g t isCut) {u : Except Failure Unit} (hp : PathOracle.pop o = (u, o')) :
    o'.Lists g t isCut := by
  obtain ⟨graph, transfer, paths, depth⟩ := o
  cases depth with
  | zero =>
    obtain rfl := (Prod.mk.inj hp).2
    exact h
  | succ depth =>
    obtain rfl := (Prod.mk.inj hp).2
    exact ⟨h.graph, h.transfer, h.paths⟩

/-- The starts and paths that a query tries, in order. -/
def candidates (view : StateView) (q : PathQuery) (paths : List Path) : List (Path × Value × ℕ) :=
  ((view.disjuncts q.start .stable).zipIdx.filter fun s => !s.1.isBottom).flatMap fun s =>
    (paths.filter q.filter.admits).map fun p => (p, s)

theorem mem_candidates {paths : List Path} {p : Path} {v : Value} {i : ℕ} : (p, v, i) ∈ candidates view q paths ↔
    (view.disjuncts q.start .stable)[i]? = some v ∧ v.isBottom = false ∧ p ∈ paths ∧ q.filter.admits p = true := by
  simp only [candidates, List.mem_flatMap, List.mem_map, List.mem_filter, Prod.exists, Prod.mk.injEq,
    List.mem_zipIdx_iff_getElem?, Bool.not_eq_true']
  constructor
  · rintro ⟨w, j, ⟨hw, hb⟩, p', hp, rfl, rfl, rfl⟩
    exact ⟨hw, hb, hp⟩
  · rintro ⟨hw, hb, hp⟩
    exact ⟨v, i, ⟨hw, hb⟩, p, hp, rfl, rfl, rfl⟩

theorem firstNovel_eq (t : Transfer) (view : StateView) (q : PathQuery) (paths : List Path) :
    firstNovel t view q paths = ((candidates view q paths).findM? fun c => isNovel t view q.target c.2.1 c.1).map
      fun found => found.map fun c => (c.1, c.2.2) := by
  change (candidates view q paths).findM? (fun c => isNovel t view q.target c.2.1 c.1) >>= _ = _
  cases (candidates view q paths).findM? fun c => isNovel t view q.target c.2.1 c.1 <;> rfl

theorem query_eq (h : o.Lists g t view.isCut) {answer : OracleAnswer}
    (ha : SearchOracle.query q view o = (.ok answer, o')) :
    ∃ found, (candidates view q (pathsFrom g view.isCut (g.size + 1) [] q.start)).findM?
        (fun c => isNovel t view q.target c.2.1 c.1) = .ok found ∧
      answer = found.elim .unsat fun c => .sat c.1 c.2.2 := by
  obtain ⟨hlists, hlookup⟩ := h.prepare q.start
  unfold SearchOracle.query at ha
  simp only [hlists.transfer, hlookup, Option.getD_some, firstNovel_eq] at ha
  cases hf : (candidates view q (pathsFrom g view.isCut (g.size + 1) [] q.start)).findM? fun c =>
      isNovel t view q.target c.2.1 c.1 with
  | error f =>
    rw [hf] at ha
    cases ha
  | ok found =>
    rw [hf] at ha
    refine ⟨found, rfl, ?_⟩
    cases found <;> exact (Except.ok.inj (Prod.mk.inj ha).1).symm

/-- A query without an answer has found every admitted path covered. -/
theorem covered_of_unsat (h : o.Lists g t view.isCut) (ha : SearchOracle.query q view o = (.ok .unsat, o')) {v : Value}
    (hv : v ∈ view.disjuncts q.start .stable) (hb : v.isBottom = false) {p : Path}
    (hp : p ∈ pathsFrom g view.isCut (g.size + 1) [] q.start) (hadmits : q.filter.admits p = true) :
    isNovel t view q.target v p = .ok false := by
  obtain ⟨found, hfound, hanswer⟩ := query_eq h ha
  obtain ⟨i, hi⟩ := List.getElem?_of_mem hv
  cases found with
  | some c => cases hanswer
  | none => exact findM?_eq_none hfound (p, v, i) (mem_candidates.mpr ⟨hi, hb, hp, hadmits⟩)

/-- An answer is a listed path that leaves a disjunct of the start. -/
theorem mem_of_sat (view : StateView) (h : o.Lists g t view.isCut) {p : Path} {i : ℕ}
    (ha : SearchOracle.query q view o = (.ok (.sat p i), o')) :
    p ∈ pathsFrom g view.isCut (g.size + 1) [] q.start ∧ ∃ v, (view.disjuncts q.start .stable)[i]? = some v := by
  obtain ⟨found, hfound, hanswer⟩ := query_eq h ha
  cases found with
  | none => cases hanswer
  | some c =>
    obtain ⟨rfl, rfl⟩ := OracleAnswer.sat.inj hanswer
    obtain ⟨hi, -, hp, -⟩ := mem_candidates.mp (findM?_eq_some hfound).1
    exact ⟨hp, c.2.1, hi⟩

section Unknown

variable {b : Block} (hknown : ∀ d ∈ view.disjuncts b .known, d.isBottom = true)

include hknown

/-- Where nothing is known, the image is taken to the environment of its end. -/
theorem image_eq (v : Value) (p : Path) :
    image t view v p b = .ok ((view.environment b).elim (t.along p v) (t.along p v).withEnv) := by
  have hnil : (view.disjuncts b .known).filter (fun v => !v.isBottom) = [] := by
    refine List.filter_eq_nil_iff.mpr fun d hd => ?_
    simp [hknown d hd]
  simp only [image, knownProperty?, hnil]
  split <;> rfl

theorem isNovel_eq {sl : Slot} {v : Value} {p : Path} (hb : p.destination? = some b) : isNovel t view sl v p =
    .ok (!((view.environment b).elim (t.along p v) (t.along p v).withEnv).isBottom &&
      !(view.disjuncts b sl).any ((view.environment b).elim (t.along p v) (t.along p v).withEnv).leq) := by
  simp only [isNovel, hb, image_eq hknown]
  rfl

/-- A covered path takes the stores of its source into a disjunct of its end. -/
theorem exists_of_not_isNovel {k : ValueKind} {step : Block → Store → Block → Store → Prop} (ht : t.Follows k step)
    {sl : Slot} {v : Value} {p : Path} {σ σ' : Store} (hv : v.OfKind k) (hsl : ∀ d ∈ view.disjuncts b sl, d.OfKind k)
    (h : isNovel t view sl v p = .ok false) (hb : p.destination? = some b) (hw : Walk step p.blocks σ σ')
    (hσ : v.Allows σ.point) : ∃ d ∈ view.disjuncts b sl, d.Allows σ'.point := by
  have hkind := ht.ofKind_along hv p
  have hallows := ht.allows_along hv hw hσ
  rw [isNovel_eq hknown hb, Except.ok.injEq] at h
  generalize hw' : (view.environment b).elim (t.along p v) (t.along p v).withEnv = w at h
  obtain ⟨hkind', hallows'⟩ : w.OfKind k ∧ w.Allows σ'.point := by
    rw [← hw']
    cases view.environment b with
    | none => exact ⟨hkind, hallows⟩
    | some env => exact ⟨hkind.withEnv env, Value.allows_withEnv hallows⟩
  have hcovered : w.isBottom = true ∨ ∃ d ∈ view.disjuncts b sl, w.leq d = true := by
    simpa [or_iff_not_imp_left] using h
  rcases hcovered with hbottom | ⟨d, hd, hleq⟩
  · exact absurd hallows' (Value.not_allows_of_isBottom hbottom _)
  · exact ⟨d, hd, Value.allows_of_leq hkind' (hsl d hd) hleq hallows'⟩

end Unknown

/-- A query is decided when each of its candidates is. -/
theorem exists_query_of_isNovel (q : PathQuery) (o : SearchOracle)
    (hnovel : ∀ sl v p, ∃ found, isNovel (o.prepare view q.start).transfer view sl v p = .ok found) :
    ∃ answer, SearchOracle.query q view o = (.ok answer, o.prepare view q.start) ∧ answer ≠ .unknown := by
  obtain ⟨found, hfound⟩ := exists_findM? (f := fun c : Path × Value × ℕ =>
    isNovel (o.prepare view q.start).transfer view q.target c.2.1 c.1)
    (l := candidates view q (((o.prepare view q.start).paths.lookup q.start).getD [])) fun c _ => hnovel _ _ _
  simp only [SearchOracle.query, firstNovel_eq, hfound]
  cases found with
  | none => exact ⟨.unsat, rfl, nofun⟩
  | some c => exact ⟨.sat c.1 c.2.2, rfl, nofun⟩

/-- Where nothing is known, every query is decided. -/
theorem exists_query (q : PathQuery) (o : SearchOracle)
    (hknown : ∀ b, ∀ d ∈ view.disjuncts b .known, d.isBottom = true) :
    ∃ answer, SearchOracle.query q view o = (.ok answer, o.prepare view q.start) ∧ answer ≠ .unknown := by
  refine exists_query_of_isNovel q o fun sl v p => ?_
  cases hb : p.destination? with
  | none => exact ⟨false, by rw [isNovel, hb]; rfl⟩
  | some b => exact ⟨_, isNovel_eq (hknown b) hb⟩

theorem exists_pop (view : StateView) (o : SearchOracle) (b : Block) :
    ∃ oracle, PathOracle.pop ((PathOracle.push o).prepare view b) = (.ok (), oracle) := by
  unfold prepare
  split <;> exact ⟨_, rfl⟩

end SearchOracle

/-- The paths out of a node that the searching oracle lists. -/
def ControlFlow.pathsAt (g : ControlFlow) (n : ℕ) : List Path :=
  ((Arena.build g).blocks[n]?).elim [] (pathsFrom g (Arena.build g).isCutBlock (g.size + 1) [])

/-- A listed path out of a node takes an execution to another one. -/
structure ControlFlow.Leads (g : ControlFlow) (step : Block → Store → Block → Store → Prop) (n : ℕ) (σ : Store)
    (p : Path) (q : ℕ) (σ' : Store) : Prop where
  listed : p ∈ g.pathsAt n
  ends : ∃ b, p.destination? = some b ∧ (Arena.build g).blocks[q]? = some b
  walk : Walk step p.blocks σ σ'

/-- What executions do between two cut points they do along a listed path. -/
theorem Arena.PathStep.exists_leads {g : ControlFlow} {step : Block → Store → Block → Store → Prop}
    (hstep : ∀ a σ b σ', step a σ b σ' → b ∈ g.successors a) (hg : g.Bounded) {n q : ℕ} {σ σ' : Store}
    (h : (build g).PathStep step n σ q σ') : ∃ p, g.Leads step n σ p q σ' := by
  obtain ⟨a, b, walked, ha, hb, hmem, hwalk⟩ := h.exists_path hstep hg
  refine ⟨⟨walked ++ [b]⟩, ?_, ⟨b, by simp [Path.destination?], hb⟩, hwalk⟩
  rw [ControlFlow.pathsAt, ha]
  exact hmem

/-- Unions of values of one kind, and nothing known. -/
structure UnionSlots (k : ValueKind) (s : Slots Disjunction) : Prop where
  stable : ∀ v ∈ s.stable.toList, v.OfKind k
  descending : ∀ v ∈ s.descending.toList, v.OfKind k
  known : ∀ v ∈ s.known.toList, v.isBottom = true

namespace Run

variable {Ω S : Type} {g : ControlFlow} {key : Key}

/-- The store is in a disjunct of the slot. -/
def Holds (r : Run Ω S) (key : Key) (sl : Slot) (n : ℕ) (σ : Store) : Prop :=
  ∃ s, r.slots? key n = some s ∧ ∃ v ∈ (s.get sl).toList, v.Allows σ.point

section View

variable {r : Run Ω S} (hg : g.Bounded) (ha : r.arena = .build g) (hb : r.blocks = r.arena.blocks) {n : ℕ} {b : Block}
  (hn : r.blocks[n]? = some b)

include hg ha hb hn

theorem view_disjuncts (key : Key) (sl : Slot) : (r.engine.context.view key).disjuncts b sl =
    (r.slots? key n).elim [] fun s => (s.get sl).toList := by
  rw [hb, ha] at hn
  have hindex : r.engine.context.arena.index? b = some n := by
    change r.arena.index? b = some n
    rw [ha]
    exact Arena.index?_eq hg hn
  simp only [Context.view, hindex, Option.bind_some, slots?]

theorem mem_view {sl : Slot} {v : Value} : v ∈ (r.engine.context.view key).disjuncts b sl ↔
    ∃ s, r.slots? key n = some s ∧ v ∈ (s.get sl).toList := by
  rw [view_disjuncts hg ha hb hn]
  cases r.slots? key n with
  | none => simp
  | some s => simp

theorem holds_iff {sl : Slot} {σ : Store} : r.Holds key sl n σ ↔
    ∃ v ∈ (r.engine.context.view key).disjuncts b sl, v.Allows σ.point := by
  simp only [mem_view hg ha hb hn, Holds]
  constructor
  · rintro ⟨s, hs, v, hv, hall⟩
    exact ⟨v, ⟨s, hs, hv⟩, hall⟩
  · rintro ⟨v, ⟨s, hs, hv⟩, hall⟩
    exact ⟨s, hs, v, hv, hall⟩

end View

section Unsat

variable {r : Run Ω S} {t : Transfer} {k : ValueKind} {step : Block → Store → Block → Store → Prop} (hg : g.Bounded)
  (ha : r.arena = .build g) (hb : r.blocks = r.arena.blocks) (ht : t.Follows k step)
  (hslots : ∀ n s, r.slots? key n = some s → UnionSlots k s) {o o' : SearchOracle} (ho : o.Lists g t r.arena.isCutBlock)
  {query : PathQuery} (hquery : o.query query (r.engine.context.view key) = (.ok .unsat, o')) {n q : ℕ}
  (hn : r.blocks[n]? = some query.start) {σ σ' : Store}

include hg ha hb ht hslots ho hquery hn

/-- When an oracle has no path to answer with, every listed path that the query admits leads from the disjuncts of the
start into those of its end. -/
theorem holds_of_leads {p : Path} (hadmits : query.filter.admits p = true) (hp : g.Leads step n σ p q σ')
    (hσ : r.Holds key .stable n σ) : r.Holds key query.target q σ' := by
  have hblocks : r.blocks = (Arena.build g).blocks := by rw [hb, ha]
  obtain ⟨b, hdest, hq⟩ := hp.ends
  rw [← hblocks] at hq
  obtain ⟨v, hv, hall⟩ := (holds_iff hg ha hb hn).mp hσ
  have hlisted : p ∈ pathsFrom g r.arena.isCutBlock (g.size + 1) [] query.start := by
    have hmem := hp.listed
    rwa [ControlFlow.pathsAt, ← hblocks, hn, ← ha] at hmem
  have hcovered : SearchOracle.isNovel t (r.engine.context.view key) query.target v p = .ok false := by
    refine SearchOracle.covered_of_unsat ho hquery hv ?_ hlisted hadmits
    exact Bool.eq_false_iff.mpr fun hbottom => Value.not_allows_of_isBottom hbottom _ hall
  have hkind : v.OfKind k := by
    obtain ⟨s, hs, hv⟩ := (mem_view hg ha hb hn).mp hv
    exact (hslots n s hs).stable v hv
  refine (holds_iff hg ha hb hq).mpr
    (SearchOracle.exists_of_not_isNovel (fun d hd => ?_) ht hkind (fun d hd => ?_) hcovered hdest hp.walk hall)
  · obtain ⟨s, hs, hd⟩ := (mem_view hg ha hb hq).mp hd
    exact (hslots q s hs).known d hd
  · obtain ⟨s, hs, hd⟩ := (mem_view hg ha hb hq).mp hd
    unfold PathQuery.target at hd
    split at hd
    · exact (hslots q s hs).descending d hd
    · exact (hslots q s hs).stable d hd

end Unsat

/-- The run with another oracle. -/
def withOracle (r : Run Ω S) (oracle : Ω) : Run Ω S := { r with engine := { r.engine with oracle } }

end Run

namespace Analysis

variable {Ω S : Type} {su : Setup}

theorem yields_query [PathOracle Ω] {n : ℕ} {descending : Bool} {filter : PathFilter} {r r' : Run Ω S}
    {a : Option (Path × ℕ)} (h : Yields (query su n descending filter) r a r') :
    ∃ b answer asked oracle, r.blocks[n]? = some b ∧
      PathOracle.query ⟨b, descending, filter⟩ (r.engine.context.view su.key) (PathOracle.push r.engine.oracle) =
        (.ok answer, asked) ∧ PathOracle.pop asked = (.ok (), oracle) ∧ (r.withOracle oracle).Quiet r' ∧
      (a = none ∧ answer = .unsat ∨ ∃ p i, a = some (p, i) ∧ answer = .sat p i) := by
  simp only [query, yields_bind, yields_block, yields_engine, yields_modifyEngine, yields_liftExcept] at h
  obtain ⟨b, r₁, ⟨hb, rfl⟩, e, r₂, ⟨rfl, rfl⟩, -, r₃, rfl, e, r₄, ⟨rfl, rfl⟩, -, r₅, rfl, u, r₆, ⟨hpop, rfl⟩, answer, r₇,
    ⟨hquery, rfl⟩, _, r₈, hstats, _, r₉, hdeadline, h⟩ := h
  have hquiet := (yields_modifyStats hstats).trans (yields_checkDeadline hdeadline)
  refine ⟨b, answer, _, _, hb, Prod.ext hquery rfl, Prod.ext hpop rfl, ?_⟩
  cases answer with
  | unsat =>
    obtain ⟨rfl, rfl⟩ := yields_pure.mp h
    exact ⟨hquiet, .inl ⟨rfl, rfl⟩⟩
  | unknown =>
    obtain ⟨-, r₁₀, -, hthrow⟩ := yields_bind.mp h
    exact absurd hthrow not_yields_throw
  | sat p i =>
    simp only [yields_bind, yields_arena, yields_ofViolation, yields_pure] at h
    obtain ⟨-, r₁₀, ⟨-, rfl⟩, -, r₁₁, ⟨-, rfl⟩, rfl, rfl⟩ := h
    exact ⟨hquiet, .inr ⟨p, i, rfl, rfl⟩⟩

/-- Asking changes nothing but the oracle. The answer is a path of two blocks or more, or says that the stable
disjuncts of the node lead into the cut points that follow along every path that may be answered with. -/
theorem query_spec {k : ValueKind} {step : Block → Store → Block → Store → Prop} (hg : su.graph.Bounded)
    (ht : su.transfer.Follows k step) {n : ℕ} {descending : Bool} {filter : PathFilter} {r r' : Run SearchOracle S}
    {a : Option (Path × ℕ)} (ha : r.arena = .build su.graph) (hb : r.blocks = r.arena.blocks)
    (hslots : ∀ n s, r.slots? su.key n = some s → UnionSlots k s)
    (ho : r.engine.oracle.Lists su.graph su.transfer r.arena.isCutBlock) (h : Yields (query su n descending filter) r a r') :
    ∃ oracle : SearchOracle, oracle.Lists su.graph su.transfer r.arena.isCutBlock ∧ (r.withOracle oracle).Quiet r' ∧
      (∀ p i, a = some (p, i) → 1 < p.length) ∧
      (a = none → ∀ σ p q σ', su.graph.Leads step n σ p q σ' → filter.admits p = true → r.Holds su.key .stable n σ →
        r.Holds su.key (if descending then .descending else .stable) q σ') := by
  obtain ⟨b, answer, asked, oracle, hn, hquery, hpop, hquiet, hcases⟩ := yields_query h
  refine ⟨oracle, (ho.push.query (r.engine.context.view su.key) hquery).pop hpop, hquiet, ?_, ?_⟩
  · rintro p i rfl
    rcases hcases with ⟨hnone, -⟩ | ⟨p', i', hsome, rfl⟩
    · cases hnone
    · obtain ⟨rfl, rfl⟩ := Prod.mk.inj (Option.some.inj hsome)
      exact length_of_mem_pathsFrom (SearchOracle.mem_of_sat (r.engine.context.view su.key) ho.push hquery).1
  · rintro rfl σ p q σ' hp hadmits hσ
    rcases hcases with ⟨-, rfl⟩ | ⟨p', i', hsome, -⟩
    · exact Run.holds_of_leads hg ha hb ht hslots ho.push hquery hn hadmits hp hσ
    · cases hsome

end Analysis

end PathInvariants
