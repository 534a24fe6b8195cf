import PathInvariants.Proofs.EngineTermination
import PathInvariants.Proofs.FocusingSoundness
import PathInvariants.Proofs.ValueOrder

/-!
# Steps of path focusing

A step asks the searching oracle for a path and takes the value of a node along it. Without known
properties and a deadline no step fails. The lemmas say with which paths the oracle may answer, and
which value a step leaves at the end of the path.
-/
namespace PathInvariants

/-- The path ends at the block of the node. -/
def Layout.EndsAt (L : Layout) (p : Path) (m : ℕ) : Prop := ∃ b, p.destination? = some b ∧ L.arena.blocks[m]? = some b

namespace Focusing

open Run Analysis

variable {su : Setup} {k : ValueKind} {step : Block → Store → Block → Store → Prop} {L : Layout} {rank : ℕ → ℕ}
  {r r' : Run SearchOracle Memory} {n m : ℕ} {p : Path} {b b' : Bool}

/-- What path focusing with the searching oracle, without a deadline and known properties, needs to know of its layout
and of its client. -/
structure Searchable (su : Setup) (k : ValueKind) (step : Block → Store → Block → Store → Prop) (L : Layout)
    (rank : ℕ → ℕ) : Prop extends Unaided su L rank where
  bounded : su.graph.Bounded
  arena : L.arena = .build su.graph
  kind : k.domain = .intervals → k.rowless = true
  follows : su.transfer.Follows k step
  edges : ∀ a σ b σ', step a σ b σ' → b ∈ su.graph.successors a
  canonical : su.transfer.KeepsCanonical

/-- The state of a run between two steps. -/
structure Working (su : Setup) (k : ValueKind) (L : Layout) (r : Run SearchOracle Memory) : Prop where
  asking : Asking su k r
  operable : r.Operable su.key L
  canonical : ∀ n s, r.slots? su.key n = some s → s.stable.first.eqs.Canonical

/-- The path takes the stable value of its start out of that of its end. -/
def Novel (su : Setup) (L : Layout) (r : Run SearchOracle Memory) (n : ℕ) (p : Path) : Prop :=
  ∃ m s t, L.EndsAt p m ∧ r.slots? su.key n = some s ∧ r.slots? su.key m = some t ∧
    (L.image su.transfer p m s.stable.first).leq t.stable.first = false

theorem Searchable.node_unique (hsu : Searchable su k step L rank) {m' : ℕ} (h : L.EndsAt p m) (h' : L.EndsAt p m') :
    m = m' := by
  obtain ⟨c, hc, hm⟩ := h
  obtain ⟨c', hc', hm'⟩ := h'
  obtain rfl : c = c' := Option.some.inj (hc.symm.trans hc')
  rw [hsu.arena] at hm hm'
  exact Arena.node_unique hsu.bounded hm hm'

/-- A listed path stays in the arena and ends at a node, of higher rank unless that is a widening point. -/
theorem Searchable.exists_end (hsu : Searchable su k step L rank) (hp : p ∈ su.graph.pathsAt n) :
    (∀ c ∈ p.blocks, c ∈ L.arena.blocks) ∧ ∃ m, L.EndsAt p m ∧ m < L.arena.size ∧
      (L.arena.cuts.isWidening m = false → rank n < rank m) := by
  have hrank := hsu.rank
  simp only [Layout.EndsAt, hsu.arena] at hrank ⊢
  cases hn : (Arena.build su.graph).blocks[n]? with
  | none => simp [ControlFlow.pathsAt, hn] at hp
  | some a =>
    rw [ControlFlow.pathsAt, hn] at hp
    obtain ⟨hmem, m, c, hdest, hm, hlt⟩ := Arena.exists_destination hsu.bounded
      (fun x t hx ht hw => hrank x hx t ht hw) hn hp
    exact ⟨hmem, m, ⟨c, hdest, hm⟩, (List.getElem?_eq_some_iff.mp hm).1, hlt⟩

theorem length_of_mem_pathsAt {g : ControlFlow} (hp : p ∈ g.pathsAt n) : 1 < p.length := by
  unfold ControlFlow.pathsAt at hp
  cases hn : (Arena.build g).blocks[n]? with
  | none =>
    rw [hn] at hp
    cases hp
  | some a =>
    rw [hn] at hp
    exact length_of_mem_pathsFrom hp

/-- A listed path is a cycle if it ends where it starts. -/
theorem Searchable.isCycle (hsu : Searchable su k step L rank) (hp : p ∈ su.graph.pathsAt n) (h : L.EndsAt p n) :
    p.isCycle = true := by
  obtain ⟨c, hdest, hn⟩ := h
  rw [hsu.arena] at hn
  rw [ControlFlow.pathsAt, hn] at hp
  obtain ⟨rest, d, hblocks, -⟩ := exists_of_mem_pathsFrom hp
  have hsource : p.source? = some c := by rw [Path.source?, hblocks]; rfl
  simp [Path.isCycle, hsource, hdest, length_of_mem_pathsFrom hp]

namespace Working

theorem of_alike (hr : Working su k L r) (h : Alike su.key r r') (hr' : Asking su k r') (ho : r'.Operable su.key L) :
    Working su k L r' := ⟨hr', ho, fun n s hs => hr.canonical n s ((h.slots n).symm.trans hs)⟩

theorem mark (hr : Working su k L r) (n : ℕ) (b : Bool) : Working su k L (r.mark n b) :=
  ⟨⟨⟨hr.asking.regular.arena, hr.asking.regular.blocks, hr.asking.regular.slots⟩, hr.asking.oracle⟩, hr.operable.mark n b,
    hr.canonical⟩

theorem memory (hr : Working su k L r) (mem : Memory) : Working su k L { r with memory := mem } :=
  ⟨⟨⟨hr.asking.regular.arena, hr.asking.regular.blocks, hr.asking.regular.slots⟩, hr.asking.oracle⟩, hr.operable.memory mem,
    hr.canonical⟩

theorem pop (hr : Working su k L r) {label : ℕ} {queue : List (ℕ × ℕ)}
    (hq : r.engine.worklist.queue = (n, label) :: queue) : Working su k L (r.pop queue) :=
  ⟨⟨⟨hr.asking.regular.arena, hr.asking.regular.blocks, hr.asking.regular.slots⟩, hr.asking.oracle⟩, hr.operable.pop hq,
    hr.canonical⟩

end Working

section Queries

variable (hsu : Searchable su k step L rank) (hr : Working su k L r)

include hsu hr

theorem environment_view {c : Block} (hm : L.arena.blocks[m]? = some c) :
    (r.engine.context.view su.key).environment c = some (L.envs m) := by
  have hlt : m < L.arena.size := (List.getElem?_eq_some_iff.mp hm).1
  rw [hsu.arena] at hm
  have hindex : r.engine.context.arena.index? c = some m := by
    change r.arena.index? c = some m
    rw [hr.asking.regular.arena]
    exact Arena.index?_eq hsu.bounded hm
  simp only [Context.view, hindex, Option.bind_some]
  exact hr.operable.envs m hlt

omit hsu in
theorem known_view (c : Block) : ∀ d ∈ (r.engine.context.view su.key).disjuncts c .known, d.isBottom = true := by
  intro d hd
  simp only [Context.view] at hd
  cases hindex : r.engine.context.arena.index? c with
  | none => simp [hindex] at hd
  | some m =>
    rw [hindex, Option.bind_some] at hd
    cases hs : r.slots? su.key m with
    | none =>
      rw [show r.engine.context.nodes[m]?.bind (·.slots? su.key) = none from hs] at hd
      cases hd
    | some s =>
      rw [show r.engine.context.nodes[m]?.bind (·.slots? su.key) = some s from hs] at hd
      exact (hr.asking.regular.slots m s hs).unionSlots.known d hd

theorem stable_view {c : Block} {s : Slots Disjunction} (hm : L.arena.blocks[m]? = some c)
    (hs : r.slots? su.key m = some s) : (r.engine.context.view su.key).disjuncts c .stable = [s.stable.first] := by
  have hblocks : r.blocks = r.arena.blocks := by rw [hr.asking.regular.blocks, hr.asking.regular.arena]
  rw [← hr.operable.blocks] at hm
  rw [view_disjuncts hsu.bounded hr.asking.regular.arena hblocks hm, hs, Option.elim_some, Slots.get, Disjunction.toList,
    (hr.asking.regular.slots m s hs).stable.2]

/-- An answer of the oracle is a listed path that is novel. -/
theorem novel_of_query {c : Block} {i : ℕ} {o : SearchOracle} (hn : L.arena.blocks[n]? = some c)
    (h : SearchOracle.query ⟨c, false, .any⟩ (r.engine.context.view su.key) (PathOracle.push r.engine.oracle) =
      (.ok (.sat p i), o)) : p ∈ su.graph.pathsAt n ∧ Novel su L r n p := by
  have hlists : (PathOracle.push r.engine.oracle).Lists su.graph su.transfer (r.engine.context.view su.key).isCut := by
    have hpush := hr.asking.oracle.push
    rw [← hr.asking.regular.arena] at hpush
    exact hpush
  obtain ⟨found, hfound, hanswer⟩ := SearchOracle.query_eq hlists h
  cases found with
  | none => cases hanswer
  | some d =>
    obtain ⟨q, v, j⟩ := d
    obtain ⟨rfl, rfl⟩ := OracleAnswer.sat.inj hanswer
    obtain ⟨hmem, hnovel⟩ := findM?_eq_some hfound
    obtain ⟨hv, -, hq, -⟩ := SearchOracle.mem_candidates.mp hmem
    have hpath : p ∈ su.graph.pathsAt n := by
      rw [hsu.arena] at hn
      rw [ControlFlow.pathsAt, hn, Option.elim_some, ← hr.asking.regular.arena]
      exact hq
    obtain ⟨-, m, ⟨e, hdest, hm⟩, hlt, -⟩ := hsu.exists_end hpath
    obtain ⟨s, hs, -⟩ := hr.operable.slots n (List.getElem?_eq_some_iff.mp hn).1
    obtain ⟨t, ht, -⟩ := hr.operable.slots m hlt
    rw [stable_view hsu hr hn hs] at hv
    obtain rfl : s.stable.first = v := List.mem_singleton.mp (List.mem_of_getElem? hv) |>.symm
    refine ⟨hpath, m, s, t, ⟨e, hdest, hm⟩, hs, ht, ?_⟩
    rw [SearchOracle.isNovel_eq (known_view hr e) hdest, environment_view hsu hr hm, PathQuery.target, if_neg Bool.false_ne_true,
      stable_view hsu hr hm ht] at hnovel
    have hleaves := Except.ok.inj hnovel
    simp only [Option.elim_some, List.any_cons, List.any_nil, Bool.or_false, Bool.and_eq_true, Bool.not_eq_true'] at hleaves
    exact hleaves.2

/-- The oracle decides every query, and answers with a listed path that is novel or that there is none. -/
theorem ensures_query (hn : n < L.arena.size) : Ensures (query su n false .any) r fun a r' =>
    Working su k L r' ∧ Alike su.key r r' ∧ ∀ q i, a = some (q, i) → q ∈ su.graph.pathsAt n ∧ Novel su L r n q := by
  obtain ⟨c, -, hblock⟩ := hr.operable.exists_block hn
  have hnode : L.arena.blocks[n]? = some c := hr.operable.blocks ▸ hblock
  obtain ⟨answer, hquery, hdecided⟩ := SearchOracle.exists_query ⟨c, false, .any⟩ (PathOracle.push r.engine.oracle)
    (known_view hr)
  obtain ⟨oracle, hpop⟩ := SearchOracle.exists_pop (r.engine.context.view su.key) r.engine.oracle c
  let r₁ : Run SearchOracle Memory := { r with engine := { r.engine with
    oracle, readings := r.engine.readings + 1, stats := { r.engine.stats with queries := r.engine.stats.queries + 1 } } }
  have hoperable : r₁.Operable su.key L := ⟨hr.operable.arena, hr.operable.blocks, hr.operable.envs, hr.operable.computed,
    hr.operable.waiting, hr.operable.slots, hr.operable.thresholds, hr.operable.rounds⟩
  have hpopped : PathOracle.pop (PathOracle.query ⟨c, false, .any⟩ (r.engine.context.view su.key)
      (PathOracle.push r.engine.oracle)).2 = (.ok (), oracle) := by
    rw [← hpop]
    exact congrArg (fun x => PathOracle.pop x.2) hquery
  have hasks : Ensures (query su n false .any) r fun a r' => r' = r₁ ∧
      ∀ q i, a = some (q, i) → q ∈ su.graph.pathsAt n ∧ Novel su L r n q := by
    simp only [query, modifyStats, ensures_bind, ensures_block, ensures_engine, ensures_modifyEngine, ensures_liftExcept,
      ensures_checkDeadline hsu.timeout]
    refine ⟨c, hblock, ?_⟩
    rw [hpopped]
    refine ⟨(), rfl, answer, congrArg Prod.fst hquery, ?_⟩
    cases answer with
    | unknown => exact absurd rfl hdecided
    | unsat => exact ensures_pure.mpr ⟨rfl, fun _ _ h => absurd h.symm (Option.some_ne_none _)⟩
    | sat q i =>
      obtain ⟨hpath, hnovel⟩ := novel_of_query hsu hr hnode hquery
      rw [hsu.arena] at hnode
      simp only [ensures_bind, ensures_arena, ensures_ofViolation, ensures_pure]
      refine ⟨(), ?_, rfl, ?_⟩
      · rw [ControlFlow.pathsAt, hnode] at hpath
        change checkPath su.graph r.arena c q = .ok ()
        rw [hr.asking.regular.arena]
        exact Arena.checkPath_eq hsu.bounded hnode hpath
      · rintro _ _ ⟨⟩
        exact ⟨hpath, hnovel⟩
  obtain ⟨a, _, ha, rfl, hnovel⟩ := hasks
  obtain ⟨hasking, halike, -⟩ := query_asking hsu.bounded hsu.follows hsu.edges ha hr.asking
  exact ⟨a, r₁, ha, hr.of_alike halike hasking hoperable, halike, hnovel⟩

end Queries

/-- The image that a path hands on: that of the value itself or, on a second sighting, that of the value widened by it.
From then on the call joins only. -/
def Hands (su : Setup) (L : Layout) (n m : ℕ) (p : Path) (b b' : Bool) (v y : Value) : Prop :=
  y = L.image su.transfer p m v ∧ b' = b ∨ m = n ∧ b' = true ∧ ∃ thresholds, (∀ c ∈ thresholds, c ∈ L.thresholds) ∧
    y = L.image su.transfer p m (Value.widenAligned thresholds v (v.joinAligned (L.image su.transfer p m v)))

/-- The value that takes the place of `w` when an image comes in: a widening at widening points, unless the path has come
back to a node that joins only. -/
def Merges (L : Layout) (n m : ℕ) (b : Bool) (w y x : Value) : Prop :=
  if L.arena.cuts.isWidening m && (m != n || !b) then
    ∃ thresholds, (∀ c ∈ thresholds, c ∈ L.thresholds) ∧ x = Value.widenAligned thresholds w (w.joinAligned y)
  else x = w.joinAligned y

/-- The value of `n` has been taken along the path into that of the node at its end. -/
def Propagates (su : Setup) (L : Layout) (n : ℕ) (p : Path) (b b' : Bool) (r r' : Run SearchOracle Memory) : Prop :=
  ∃ m s t y x i mem, L.EndsAt p m ∧ m < L.arena.size ∧ r.slots? su.key n = some s ∧ r.slots? su.key m = some t ∧
    Hands su L n m p b b' s.stable.first y ∧ Merges L n m b' t.stable.first y x ∧
    Stores su.key m { t with stable := t.stable.set 0 x, initial := i } { r with memory := mem } r'

theorem Merges.env {w y x : Value} (h : Merges L n m b w y x) : x.env = w.env := by
  unfold Merges at h
  split at h
  · obtain ⟨thresholds, -, rfl⟩ := h
    exact Value.env_widenAligned _ _ _
  · rw [h]
    exact Value.env_joinAligned _ _

section Propagation

variable (ht : su.options.timeout = none) (hL : L.Lists su.transfer) (hr : r.Operable su.key L)

include ht hL hr

theorem ensures_loopStep {st : LoopStep} {s : Slots Disjunction} (hn : n < L.arena.size)
    (hp : ∀ c ∈ p.blocks, c ∈ L.arena.blocks) (hs : r.slots? su.key n = some s) (hst : st.image.env = L.envs n) :
    Ensures (loopStep su n 0 0 p st) r fun st' r' => r'.Operable su.key L ∧ Alike su.key r r' ∧
      r'.engine.oracle = r.engine.oracle ∧ (st'.image = st.image ∧ st'.onlyJoin = st.onlyJoin ∨ st'.onlyJoin = true ∧
        ∃ thresholds, (∀ c ∈ thresholds, c ∈ L.thresholds) ∧ st'.image =
          L.image su.transfer p n (Value.widenAligned thresholds s.stable.first (s.stable.first.joinAligned st.image))) := by
  obtain ⟨s', hs', hover⟩ := hr.slots n hn
  obtain rfl : s = s' := Option.some.inj (hs.symm.trans hs')
  unfold loopStep
  split
  · rw [ensures_bind, ensures_env (hr.envs n hn), ensures_bind, ensures_disjunct hs, ensures_bind, ensures_disjunct hs,
      ensures_bind]
    have hjoin : s.stable.first.joinOver (L.envs n) [st.image] = s.stable.first.joinAligned st.image := by
      rw [← hover.stable]
      exact Value.joinOver_of_env (hover.stable.trans hst.symm)
    rw [show (s.get .stable).first = s.stable.first from rfl, hjoin]
    refine (ensures_widenToThresholds ht hr (Value.env_joinAligned _ _).symm).mono
      fun widened r₁ ⟨hr₁, hq₁, thresholds, hsub, hwidened⟩ => ?_
    have hs₁ : r₁.slots? su.key n = some s := (hq₁.slots? _ _).trans hs
    have henv : widened.env = L.envs n := by
      rw [hwidened]
      exact (Value.env_widenAligned _ _ _).trans hover.stable
    have hr₂ := hr₁.put hn (s := s.set .stable ((s.get .stable).set 0 widened))
      ⟨henv, hover.descending, hover.initial, hover.known, hover.unknown⟩
    rw [ensures_bind, ensures_setDisjunct hs₁, ensures_bind]
    refine (ensures_transform ht hL hr₂ hp).mono fun image r₃ ⟨himage, hr₃, hq₃⟩ => ?_
    have hs₃ : r₃.slots? su.key n = some (s.set .stable ((s.get .stable).set 0 widened)) := by
      rw [hq₃.slots?, slots?_put _ _ _ _ _ (by rw [hs₁]; rfl), if_pos rfl]
    rw [ensures_bind, ensures_setDisjunct hs₃, ensures_pure]
    refine ⟨hr₃.put hn ⟨hover.stable, hover.descending, hover.initial, hover.known, hover.unknown⟩, ?_,
      hq₃.oracle.trans hq₁.oracle, .inr ⟨rfl, thresholds, hsub, ?_⟩⟩
    · -- The source disjunct is put back, so the slots are as they were.
      have hquiet := (put_put ..).trans (hq₃.put su.key n s)
      exact hq₁.alike.trans ((alike_put hs₁).trans hquiet.alike)
    · rw [himage, hwidened]
      rfl
  · exact ensures_pure.mpr ⟨hr, (Quiet.refl r).alike, rfl, .inl ⟨rfl, rfl⟩⟩

omit ht hL in
/-- Where nothing is known, the value is stored as it is. -/
theorem ensures_deposit {v w : Value} (hinformed : L.informed = false) (hm : m < L.arena.size) (hw : w.env = L.envs m) :
    Ensures (deposit su m v w b) r fun b' r' => b' = b ∧ r'.Operable su.key L ∧ ∃ s i, r.slots? su.key m = some s ∧
      Stores su.key m { s with stable := s.stable.set 0 w, initial := i } r r' := by
  obtain ⟨s, hs, hover⟩ := hr.slots m hm
  have hknown := hover.unknown hinformed
  have hstore : Ensures (store su m v w) r fun _ r' => r'.Operable su.key L ∧ ∃ s i, r.slots? su.key m = some s ∧
      Stores su.key m { s with stable := s.stable.set 0 w, initial := i } r r' := by
    obtain ⟨u, r', hyields, hr'⟩ := ensures_store hr hm hw (v := v)
    obtain ⟨s, i, hs, -, hstores⟩ := yields_store hyields
    exact ⟨u, r', hyields, hr', s, i, hs, hstores⟩
  unfold store at hstore
  unfold deposit
  split
  · rename_i hb
    have hs₁ : (r.put su.key m (s.set .initial ((s.get .initial).set 0 w))).slots? su.key m =
        some (s.set .initial ((s.get .initial).set 0 w)) := by
      rw [slots?_put _ _ _ _ _ (by rw [hs]; rfl), if_pos rfl]
    simp only [if_pos hb, ensures_bind, ensures_setValue hs, ensures_setValue hs₁, ensures_push] at hstore
    simp only [ensures_bind, ensures_setValue hs, ensures_meetKnown hs₁ hknown, ensures_setValue hs₁, ensures_push,
      ensures_pure]
    exact hstore.mono fun _ r' h => ⟨trivial, h⟩
  · rename_i hb
    simp only [if_neg hb, ensures_bind, ensures_setValue hs, ensures_push] at hstore
    simp only [ensures_bind, ensures_meetKnown hs hknown, ensures_setValue hs, ensures_push, ensures_pure]
    exact hstore.mono fun _ r' h => ⟨trivial, h⟩

omit hL in
theorem ensures_absorb {st : LoopStep} (hinformed : L.informed = false) (hm : m < L.arena.size)
    (hst : st.image.env = L.envs m) :
    Ensures (absorb su n m (L.envs m) st) r fun b' r' => b' = st.onlyJoin ∧ r'.Operable su.key L ∧ ∃ t x i,
      r.slots? su.key m = some t ∧ Merges L n m st.onlyJoin t.stable.first st.image x ∧
      Stores su.key m { t with stable := t.stable.set 0 x, initial := i } { r with memory := ⟨st.seen⟩ } r' := by
  have hr₁ := hr.memory ⟨st.seen⟩
  obtain ⟨t, ht', hover⟩ := hr₁.slots m hm
  have hjoin : t.stable.first.joinOver (L.envs m) [st.image] = t.stable.first.joinAligned st.image := by
    rw [← hover.stable]
    exact Value.joinOver_of_env (hover.stable.trans hst.symm)
  -- The value that is stored differs, but not how it is stored.
  have hdeposit : ∀ x r₂, Merges L n m st.onlyJoin t.stable.first st.image x → r₂.Operable su.key L →
      Quiet { r with memory := ⟨st.seen⟩ } r₂ → Ensures (deposit su m t.stable.first x st.onlyJoin) r₂ fun b' r' =>
        b' = st.onlyJoin ∧ r'.Operable su.key L ∧ ∃ t x i, r.slots? su.key m = some t ∧
          Merges L n m st.onlyJoin t.stable.first st.image x ∧
          Stores su.key m { t with stable := t.stable.set 0 x, initial := i } { r with memory := ⟨st.seen⟩ } r' := by
    intro x r₂ hx hr₂ hq
    refine (ensures_deposit hr₂ hinformed hm (hx.env.trans hover.stable)).mono ?_
    rintro b' r' ⟨hb, hr', t', i, ht'', hstores⟩
    obtain rfl : t = t' := Option.some.inj (ht'.symm.trans ((hq.slots? _ _).symm.trans ht''))
    exact ⟨hb, hr', t, x, i, ht', hx, hq.alike.stores hstores hq.oracle hq.memory⟩
  rw [absorb, ensures_bind, ensures_modifyMemory, ensures_bind, ensures_value ht', ensures_bind, ensures_isWidening,
    hr₁.arena, show (t.get .stable).first = t.stable.first from rfl, hjoin]
  dsimp only
  split
  · rename_i hwidens
    rw [ensures_bind]
    refine (ensures_widen ht hr₁ (Value.env_joinAligned _ _).symm).mono ?_
    rintro x r₂ ⟨hr₂, hq, hx⟩
    exact hdeposit x r₂ (by rw [Merges, if_pos hwidens]; exact hx) hr₂ hq
  · rename_i hjoins
    rw [ensures_bind, ensures_pure]
    exact hdeposit _ _ (by rw [Merges, if_neg hjoins]) hr₁ (.refl _)

end Propagation

/-- The image that is handed on has canonical equalities, and so has the value that it is merged into. -/
theorem Hands.canonical {v y : Value} (hsu : Searchable su k step L rank) (h : Hands su L n m p b b' v y)
    (hv : v.eqs.Canonical) : y.eqs.Canonical := by
  have himage : ∀ w : Value, w.eqs.Canonical → (L.image su.transfer p m w).eqs.Canonical := fun w hw =>
    Value.canonical_withEnv (hsu.canonical p w hw) _
  rcases h with ⟨rfl, -⟩ | ⟨-, -, thresholds, -, rfl⟩
  · exact himage v hv
  · exact himage _ (Value.canonical_widenAligned hv (Value.canonical_joinAligned hv (himage v hv)) _)

theorem Merges.canonical {w y x : Value} (h : Merges L n m b w y x) (hw : w.eqs.Canonical) (hy : y.eqs.Canonical) :
    x.eqs.Canonical := by
  have hjoin := Value.canonical_joinAligned hw hy
  unfold Merges at h
  split at h
  · obtain ⟨thresholds, -, rfl⟩ := h
    exact Value.canonical_widenAligned hw hjoin thresholds
  · rw [h]
    exact hjoin

/-- One step of a call: asks for a path and follows it. Gives the path, and whether the call joins only from then on. -/
def follow (su : Setup) (n : ℕ) (onlyJoin : Bool) : Analysis SearchOracle Memory (Option (Path × Bool)) := do
  setComputed n true
  match ← query su n false .any with
  | none => return none
  | some (p, _) => return some (p, ← propagate su n p onlyJoin)

section Steps

variable (hsu : Searchable su k step L rank) (hr : Working su k L r)

include hsu hr

/-- Propagation along a listed path does not fail. -/
theorem ensures_propagate (hn : n < L.arena.size) (hp : p ∈ su.graph.pathsAt n) :
    Ensures (propagate su n p b) r fun b' r' => Working su k L r' ∧ Propagates su L n p b b' r r' := by
  obtain ⟨hmem, m, hends, hm, -⟩ := hsu.exists_end hp
  obtain ⟨s, hs, hover⟩ := hr.operable.slots n hn
  have hstep : Ensures (propagate su n p b) r fun b' r' => r'.Operable su.key L ∧ Propagates su L n p b b' r r' := by
    obtain ⟨c, hdest, hblock⟩ := id hends
    rw [hsu.arena] at hblock
    have hindex : r.arena.index? c = some m := by
      rw [hr.asking.regular.arena]
      exact Arena.index?_eq hsu.bounded hblock
    simp only [propagate_eq, destinationOf, hdest, indexOf, modifyStats, ensures_bind, ensures_arena, hindex, ensures_pure,
      ensures_modifyEngine]
    let r₁ : Run SearchOracle Memory := { r with engine := { r.engine with stats :=
      { r.engine.stats with ascendingSteps := r.engine.stats.ascendingSteps + 1 } } }
    have hr₁ : r₁.Operable su.key L := hr.operable.quiet ⟨_, _, _, _, rfl⟩ hr.operable.thresholds hr.operable.rounds
    have hs₁ : r₁.slots? su.key n = some s := hs
    rw [ensures_env (hr₁.envs m hm), ensures_value hs₁]
    refine (ensures_transform hsu.timeout hsu.lists hr₁ hmem).mono ?_
    rintro image r₂ ⟨himage, hr₂, hq⟩
    have hquiet : r.Quiet r₂ := Quiet.trans ⟨_, _, _, _, rfl⟩ hq
    have himage' : image.withEnv (L.envs m) = L.image su.transfer p m s.stable.first := by rw [himage]; rfl
    obtain ⟨t, ht, -⟩ := hr.operable.slots m hm
    -- The image is absorbed in a state that still looks like the first one.
    have habsorb : ∀ (st : LoopStep) (r₃ : Run SearchOracle Memory), r₃.Operable su.key L → Alike su.key r r₃ →
        r₃.engine.oracle = r.engine.oracle → st.image.env = L.envs m →
        Hands su L n m p b st.onlyJoin s.stable.first st.image →
        Ensures (absorb su n m (L.envs m) st) r₃ fun b' r' => r'.Operable su.key L ∧ Propagates su L n p b b' r r' := by
      intro st r₃ hr₃ halike horacle henv hands
      refine (ensures_absorb hsu.timeout hr₃ hsu.uninformed hm henv).mono ?_
      rintro _ r' ⟨rfl, hr', t', x, i, ht', hmerges, hstores⟩
      obtain rfl : t = t' := Option.some.inj (ht.symm.trans ((halike.slots m).symm.trans ht'))
      have halike' : Alike su.key { r with memory := Memory.mk st.seen } { r₃ with memory := Memory.mk st.seen } :=
        ⟨halike.arena, halike.blocks, halike.slots, halike.worklist, halike.computed⟩
      exact ⟨hr', m, s, t, st.image, x, i, ⟨st.seen⟩, hends, hm, hs, ht, hands, hmerges, halike'.stores hstores horacle rfl⟩
    rw [ensures_memory, himage']
    split
    · rename_i hmn
      subst hmn
      have hs₂ : r₂.slots? su.key m = some s := (hquiet.slots? _ _).trans hs
      rw [ensures_bind]
      refine (ensures_loopStep hsu.timeout hsu.lists hr₂ hm hmem hs₂ rfl).mono ?_
      rintro st r₃ ⟨hr₃, halike, horacle, hst⟩
      refine habsorb st r₃ hr₃ (hquiet.alike.trans halike) (horacle.trans hquiet.oracle) ?_ ?_
      · rcases hst with ⟨hst, -⟩ | ⟨-, thresholds, -, hst⟩ <;> rw [hst] <;> rfl
      · exact hst.imp_right fun h => ⟨rfl, h⟩
    · exact habsorb _ r₂ hr₂ hquiet.alike hquiet.oracle rfl (.inl ⟨rfl, rfl⟩)
  obtain ⟨b', r', hyields, hr', hprop⟩ := hstep
  obtain ⟨hregular, horacle, -⟩ := propagate_spec hsu.follows hyields hr.asking.regular
  refine ⟨b', r', hyields, ⟨⟨hregular, by rw [horacle]; exact hr.asking.oracle⟩, hr', fun q t' ht' => ?_⟩, hprop⟩
  obtain ⟨m, s, t, y, x, i, mem, -, -, hs, ht, hands, hmerges, hstores⟩ := hprop
  rw [hstores.slots] at ht'
  split at ht'
  · obtain rfl := Option.some.inj ht'
    exact hmerges.canonical (hr.canonical m t ht) (hands.canonical hsu (hr.canonical n s hs))
  · exact hr.canonical q t' ht'

/-- A step does not fail. The oracle has no path left, or a novel path is followed. -/
theorem ensures_follow (hn : n < L.arena.size) : Ensures (follow su n b) r fun a r' => Working su k L r' ∧
    (a = none ∧ Alike su.key (r.mark n true) r' ∨ ∃ p b' r₁, a = some (p, b') ∧ p ∈ su.graph.pathsAt n ∧
      Novel su L r n p ∧ Working su k L r₁ ∧ Alike su.key (r.mark n true) r₁ ∧ Propagates su L n p b b' r₁ r') := by
  rw [follow, ensures_bind, ensures_setComputed (hr.operable.computed.symm ▸ hn), ensures_bind]
  refine (ensures_query hsu (hr.mark n true) hn).mono fun a r₁ ⟨hr₁, halike, hnovel⟩ => ?_
  cases a with
  | none => exact ensures_pure.mpr ⟨hr₁, .inl ⟨rfl, halike⟩⟩
  | some answer =>
    obtain ⟨q, i⟩ := answer
    obtain ⟨hq, hleaves⟩ := hnovel q i rfl
    rw [ensures_bind]
    refine (ensures_propagate hsu hr₁ hn hq).mono fun b' r' ⟨hr', hprop⟩ => ?_
    exact ensures_pure.mpr ⟨hr', .inr ⟨q, b', r₁, rfl, hq, hleaves, hr₁, halike, hprop⟩⟩

end Steps

end Focusing

end PathInvariants
