import PathInvariants.Oracle.Script
import PathInvariants.Proofs.ClassicSoundness
import PathInvariants.Proofs.DomainSoundness

/-!
# Known properties

A run takes the values that another run has left under its key as known, whatever the domain of that
run and however it has ended. Over intervals, the bounds that classic iteration reports hold when the
known values do, but equality rows that come with them are carried along unchanged. Without a restart
from seeds the result never leaves the known values, so it covers all stores in reach exactly when
they do.
-/
namespace PathInvariants

variable {Ω S : Type}

namespace Value

variable {v w : Value} {m : Valuation} {σ : Store} {s : Symbol} {env : Environment}

/-- The states of the first operand need no other operand to be of its kind. -/
theorem allows_joinAligned_first (h : v.Allows m) : (v.joinAligned w).Allows m := by
  unfold joinAligned
  split
  · exact h
  · split
    · rename_i hb
      exact absurd h (not_allows_of_isBottom hb m)
    · refine ⟨Box.admits_join (.inl h.1), fun hr => ?_⟩
      have hr : v.isRelational = true := hr
      dsimp only
      rw [if_pos hr]
      exact Equalities.solvedBy_join (.inl ((solvedBy_allEqualities h.1).mpr (h.2 hr)))

theorem allows_joinOver_first {ws : List Value} (h : v.Allows m) : (v.joinOver env ws).Allows m := by
  unfold joinOver
  have hstart : (v.withEnv env).Allows m := allows_withEnv h
  generalize v.withEnv env = u at hstart
  induction ws generalizing u with
  | nil => exact hstart
  | cons w ws ih => exact ih _ (allows_joinAligned_first hstart)

theorem allows_hull {d : Disjunction} (h : d.hull = .ok v) (hd : d.first.Allows m) : v.Allows m := by
  unfold Disjunction.hull at h
  cases henv : d.others.foldlM (fun env v => env.union v.env) d.first.env with
  | error f =>
    rw [henv] at h
    cases h
  | ok env =>
    rw [henv] at h
    obtain rfl := Except.ok.inj h
    exact allows_joinOver_first hd

theorem holds_of_mem_boundsOf {listed : List LinearConstraint} {c : LinearConstraint} (hσ : σ s ∈ v.box.get s)
    (hc : c ∈ v.boundsOf listed s) : c.holds σ = true := by
  unfold boundsOf rangeOf at hc
  dsimp only at hc
  split at hc
  · rename_i n hn
    split at hc
    · cases hc
    · rw [List.mem_singleton] at hc
      have heq : (σ s : ℚ) = n := Interval.eq_of_singleton hn (Interval.admits_intCast.mpr hσ)
      have heq : σ s = n := by exact_mod_cast heq
      simp [hc, LinearConstraint.holds, LinearConstraint.eq, Comparison.holds, heq]
  · cases hget : v.box.get s with
    | bottom =>
      rw [hget] at hσ
      simp at hσ
    | range lo hi ordered =>
      rw [hget, Interval.mem_range] at hσ
      rw [hget] at hc
      rcases List.mem_append.mp hc with hc | hc
      · obtain ⟨l, hl, rfl⟩ := List.mem_map.mp hc
        obtain rfl : lo = some l := by simpa [Interval.lo] using hl
        simpa [LinearConstraint.holds, LinearConstraint.ge, Comparison.holds, Interval.Above] using hσ.1
      · obtain ⟨u, hu, rfl⟩ := List.mem_map.mp hc
        obtain rfl : hi = some u := by simpa [Interval.hi] using hu
        simpa [LinearConstraint.holds, LinearConstraint.ge, Comparison.holds, Interval.Below] using hσ.2

/-- A store in the box satisfies what a value exports exactly when it satisfies the equality rows. -/
theorem holds_toConstraints_iff (hσ : ∀ s, σ s ∈ v.box.get s) (hv : v.isBottom = false) :
    (∀ c ∈ v.toConstraints, c.holds σ = true) ↔ ∀ e ∈ v.eqs.rows, e.eval σ = 0 := by
  have hfold : ∀ (symbols : List Symbol) (listed : List LinearConstraint),
      (∀ c ∈ symbols.foldl (fun listed s => listed ++ v.boundsOf listed s) listed, c.holds σ = true) ↔
        ∀ c ∈ listed, c.holds σ = true := by
    intro symbols
    induction symbols with
    | nil => exact fun listed => Iff.rfl
    | cons s symbols ih =>
      intro listed
      rw [List.foldl_cons, ih, List.forall_mem_append]
      exact and_iff_left fun c hc => holds_of_mem_boundsOf (hσ s) hc
  rw [toConstraints, if_neg (by simp [hv]), hfold, List.forall_mem_map]
  simp [LinearConstraint.holds, LinearConstraint.eq, Comparison.holds]

theorem Allows.recast (h : v.Allows m) : (v.recast .intervals).Allows m := ⟨h.1, nofun⟩

end Value

/-- What a run has left at a node allows the stores in its stable value. -/
theorem Run.Left.allows {r : Run Ω S} {other : Key} {n : ℕ} {d : Disjunction} {σ : Store} (h : r.Left other n d)
    (hσ : r.Stable other n σ) : d.first.Allows σ.point := by
  obtain ⟨t, v, env, ht, hv, rfl⟩ := h
  obtain ⟨s, hs, hall⟩ := hσ
  obtain rfl : s = t := Option.some.inj (hs.symm.trans ht)
  exact Value.allows_withEnv (Value.allows_hull hv hall)

/-- The block has one reported value, and the store satisfies all constraints that it exports. -/
def Outcome.Satisfies (o : Outcome) (b : Block) (σ : Store) : Prop :=
  ∃ i v, o.invariant? b = some i ∧ i.disjuncts = [v] ∧ ∀ c ∈ v.toConstraints, c.holds σ = true

namespace Classic

open Run Analysis

variable {Ω Ω₁ Ω₂ : Type} {p : Program} {k : ValueKind} {options options₁ options₂ : Options}
  {resources resources₁ resources₂ : Resources} {name name₁ name₂ : String} {oracle₁ : Ω₁} {oracle₂ : Ω₂}
  {ctx c₁ c₂ : Context} {o o₁ o₂ : Outcome} {b : Block} {σ : Store}

theorem exists_of_mem_knownValues {su : Setup} {e : Engine Ω} {r : Run Ω Unit} {bv : Block × Value}
    (h : Yields (prepare su) ⟨e, ()⟩ () r) (hbv : bv ∈ knownValues su e) :
    ∃ n s, r.blocks[n]? = some bv.1 ∧ r.slots? su.key n = some s ∧ bv.2 = s.known.first := by
  rw [Yields] at h
  rw [knownValues, h] at hbv
  obtain ⟨node, hnode, hmap⟩ := List.mem_filterMap.mp hbv
  obtain ⟨n, hn⟩ := List.getElem?_of_mem hnode
  obtain ⟨s, hs, rfl⟩ := Option.map_eq_some_iff.mp hmap
  exact ⟨n, s, by rw [Run.blocks, List.getElem?_map, hn]; rfl, by rw [Run.slots?, hn]; exact hs, rfl⟩

/-- What a sound run has left under its key holds on all stores in reach for the next run. -/
theorem allows_of_mem_knownValues [PathOracle Ω₂] {r₁ : Run Ω₁ Unit} (hp : p.graph.WellFormed)
    (hr₁ : Sound (p.setup options₁ resources₁) k (.build p.graph.control) p.Step r₁)
    (hctx : r₁.engine.context.OfGraph p.graph.control) (ht : options₂.technique = .classic)
    (hnamed : options₂.known = some options₁.key)
    (h : analyzeWith (p.setup options₂ resources₂) name₂ oracle₂ r₁.engine.context = (.ok o₂, c₂))
    (hc : o₂.isCompleted = true) {bv : Block × Value}
    (hbv : bv ∈ knownValues (p.setup options₂ resources₂) (.new options₂ r₁.engine.context oracle₂)) :
    bv.2.isBottom = true ∨ ∀ σ, p.Reaches bv.1 σ → bv.2.Allows σ.point := by
  obtain ⟨r, -, hprepare, hstart, -⟩ := exists_run_of_completed strategy hctx
    (fun e => by simp only [runTechnique, Program.setup, ht]) h hc
  obtain ⟨n, s, hn, hs, hv⟩ := exists_of_mem_knownValues hprepare hbv
  rw [hv]
  refine ((prepare_spec hprepare).known n s hs).imp_right fun hleft σ hσ => ?_
  obtain ⟨other, hother, hleft⟩ := hleft
  obtain rfl : options₁.key = other := Option.some.inj (hnamed.symm.trans hother)
  obtain ⟨m, hm, hreached⟩ := Program.reached_of_reaches hp hσ
  rw [hstart.blocks] at hn
  obtain rfl := Arena.node_unique hp.bounded hn hm
  obtain ⟨t, ht, hall⟩ := stable_of_covered hr₁.covered hr₁.entry hreached
  exact hleft.allows ⟨t, ht, hall⟩

theorem Sound.not_reaches_of_proved {r : Run Ω Unit} (hp : p.graph.WellFormed) (ht : options.technique = .classic)
    (hr : Sound (p.setup options resources) k (.build p.graph.control) p.Step r)
    (hrep : o.Reports (p.setup options resources) r) {site : SiteReport} (hsite : site ∈ o.sites)
    (hproved : site.isProved = true) (σ : Store) : ¬ p.Reaches site.block σ := by
  intro hσ
  obtain ⟨n, s, hn, hs, hbottom⟩ := hrep.bottom_of_proved hsite hproved
  obtain ⟨m, hm, hreached⟩ := Program.reached_of_reaches hp hσ
  obtain ⟨t, ht', hall⟩ := stable_of_covered hr.covered hr.entry hreached
  rw [hr.regular.blocks] at hn
  obtain rfl := Arena.node_unique hp.bounded hn hm
  obtain rfl : s = t := Option.some.inj (hs.symm.trans ht')
  exact Value.not_allows_of_isBottom (hbottom _ (by simp [Slots.reported, Program.setup, ht])) _ hall

/-- A run over intervals on top of a run with equalities, both classic and completed. Every store that reaches a block
lies in the reported box, and a proved site is never reached. The store satisfies all constraints that are exported for
the block exactly when it satisfies the equality rows among them, which the second run carries along unchanged; it does
so if the first run has left no rows. -/
theorem ranges_over_equalities [PathOracle Ω₁] [PathOracle Ω₂] (hp : p.graph.WellFormed)
    (ht₁ : options₁.technique = .classic) (hd₁ : options₁.domain = .intervalEqualities)
    (hctx : ctx.OfGraph p.graph.control)
    (h₁ : analyzeWith (p.setup options₁ resources₁) name₁ oracle₁ ctx = (.ok o₁, c₁)) (hc₁ : o₁.isCompleted = true)
    (hknown : ∀ bv ∈ knownValues (p.setup options₁ resources₁) (.new options₁ ctx oracle₁), bv.2.isBottom = true ∨
      bv.2.domain = .intervalEqualities ∧ ∀ σ, p.Reaches bv.1 σ → bv.2.Contains σ)
    (ht₂ : options₂.technique = .classic) (hd₂ : options₂.domain = .intervals)
    (hnamed : options₂.known = some options₁.key)
    (h₂ : analyzeWith (p.setup options₂ resources₂) name₂ oracle₂ c₁ = (.ok o₂, c₂)) (hc₂ : o₂.isCompleted = true) :
    (∀ b σ, p.Reaches b σ → ∃ i v, o₂.invariant? b = some i ∧ i.disjuncts = [v] ∧ (∀ s, σ s ∈ v.rangeOf s) ∧
        (o₂.Satisfies b σ ↔ ∀ e ∈ v.eqs.rows, e.eval σ = 0)) ∧
      (∀ site ∈ o₂.sites, site.isProved = true → ∀ σ, ¬ p.Reaches site.block σ) ∧
      ((∀ bv ∈ knownValues (p.setup options₂ resources₂) (.new options₂ c₁ oracle₂), bv.2.eqs = .empty) →
        ∀ b σ, p.Reaches b σ → o₂.Satisfies b σ) := by
  obtain ⟨r₁, rfl, hrep₁, hr₁⟩ := sound_of_completed (k := ⟨.intervalEqualities, false, nofun⟩) hp ht₁ hctx h₁ hc₁
    hd₁.symm fun bv hbv => (hknown bv hbv).imp_right fun hv => ⟨⟨hv.1, nofun⟩, hv.2⟩
  have hknown₂ : ∀ bv ∈ knownValues (p.setup options₂ resources₂) (.new options₂ r₁.engine.context oracle₂),
      bv.2.isBottom = true ∨ ∀ σ, p.Reaches bv.1 σ → bv.2.Allows σ.point :=
    fun _ => allows_of_mem_knownValues hp hr₁ hrep₁.ofGraph ht₂ hnamed h₂ hc₂
  obtain ⟨r, -, hrep, hr⟩ := sound_of_recast (k := ⟨.intervals, false, nofun⟩) hp ht₂ hrep₁.ofGraph h₂ hc₂ hd₂.symm
    fun bv hbv => (hknown₂ bv hbv).imp_right fun hall => ⟨⟨rfl, nofun⟩, fun σ hσ => (hall σ hσ).recast⟩
  have hiff : ∀ {b σ i v}, o₂.invariant? b = some i → i.disjuncts = [v] → v.Allows σ.point →
      (o₂.Satisfies b σ ↔ ∀ e ∈ v.eqs.rows, e.eval σ = 0) := by
    intro b σ i v hi hv hall
    have hlive : v.isBottom = false := by
      rw [Bool.eq_false_iff]
      exact fun hb => Value.not_allows_of_isBottom hb _ hall
    rw [← Value.holds_toConstraints_iff (fun s => Interval.admits_intCast.mp (hall.1 s)) hlive]
    constructor
    · rintro ⟨i', v', hi', hv', hsat⟩
      obtain rfl := Option.some.inj (hi.symm.trans hi')
      obtain rfl : v' = v := List.singleton_inj.mp (hv'.symm.trans hv)
      exact hsat
    · exact fun hsat => ⟨i, v, hi, hv, hsat⟩
  refine ⟨fun b σ hσ => ?_, fun site hsite hproved σ => hr.not_reaches_of_proved hp ht₂ hrep hsite hproved σ,
    fun hempty b σ hσ => ?_⟩
  · obtain ⟨i, v, hi, hv, -, hall⟩ := exists_invariant hp ht₂ hrep hr hσ
    exact ⟨i, v, hi, hv, fun s => Interval.admits_intCast.mp (hall.1 s), hiff hi hv hall⟩
  · obtain ⟨r', -, hrep', hr'⟩ := sound_of_recast (k := ⟨.intervals, true, fun _ => rfl⟩) hp ht₂ hrep₁.ofGraph h₂ hc₂
      hd₂.symm fun bv hbv => (hknown₂ bv hbv).imp_right fun hall =>
        ⟨⟨rfl, fun _ => hempty bv hbv⟩, fun σ hσ => (hall σ hσ).recast⟩
    obtain ⟨i, v, hi, hv, hkind, hall⟩ := exists_invariant hp ht₂ hrep' hr' hσ
    rw [hiff hi hv hall, hkind.2 rfl]
    exact nofun

/-- A run over intervals on top of one with the standing options. -/
def rangesOver : Options where
  technique := .classic
  domain := .intervals
  known := some (Options.key { technique := .classic })

theorem ranges_over_equalities_counter : ∃ o₁ c₁ o₂ c₂,
    analyze (Program.counter.setup { technique := .classic } .ample) "f" (.build Program.counter.graph.control) =
        (.ok o₁, c₁) ∧ o₁.isCompleted = true ∧
      analyze (Program.counter.setup rangesOver .ample) "f" c₁ = (.ok o₂, c₂) ∧ o₂.isCompleted = true ∧
      (∀ b σ, Program.counter.Reaches b σ → o₂.Satisfies b σ) ∧ ∀ σ, ¬ Program.counter.Reaches 3 σ := by
  obtain ⟨o₁, c₁, h₁, hc₁, htest⟩ := exists_of_completes (Program.counter.setup { technique := .classic } .ample)
    (.build Program.counter.graph.control) (fun o c =>
      completes (Program.counter.setup rangesOver .ample) c (fun o _ => o.proves 3) &&
      (knownValues (Program.counter.setup rangesOver .ample) (.new rangesOver c
        (SearchOracle.new Program.counter.graph.control Program.counter.transfer))).all fun bv => bv.2.eqs == .empty)
    (by decide +kernel)
  have hnothing : (knownValues (Program.counter.setup { technique := .classic } .ample) (.new { technique := .classic }
      (.build Program.counter.graph.control) (SearchOracle.new Program.counter.graph.control Program.counter.transfer))).all
      (fun bv => bv.2.isBottom) = true := by
    decide +kernel
  obtain ⟨hagain, hrows⟩ := Bool.and_eq_true_iff.mp htest
  obtain ⟨o₂, c₂, h₂, hc₂, hproves⟩ := exists_of_completes _ c₁ _ hagain
  obtain ⟨-, hproved, hsatisfies⟩ := ranges_over_equalities Program.counter_wellFormed rfl rfl (Context.ofGraph_build _)
    h₁ hc₁ (fun bv hbv => .inl (List.all_eq_true.mp hnothing bv hbv)) rfl rfl rfl h₂ hc₂
  obtain ⟨site, hmem, hblock, hp⟩ := Outcome.exists_of_proves hproves
  refine ⟨o₁, c₁, o₂, c₂, h₁, hc₁, h₂, hc₂, hsatisfies fun bv hbv => ?_, fun σ => hblock ▸ hproved site hmem hp σ⟩
  exact beq_iff_eq.mp (List.all_eq_true.mp hrows bv hbv)

/-- The row of block 1 is carried into block 2, where it contradicts the one that is known there: what is exported
for block 2 has no solution, but stores reach it. -/
theorem ranges_carry_rows : ∃ o₁ c₁ o₂ c₂,
    analyze (lockstep.setup { technique := .classic } .ample) "f" (.build lockstep.graph.control) = (.ok o₁, c₁) ∧
      o₁.isCompleted = true ∧ analyze (lockstep.setup rangesOver .ample) "f" c₁ = (.ok o₂, c₂) ∧
      o₂.isCompleted = true ∧ (∃ σ, lockstep.Reaches 2 σ) ∧ ∀ σ, ¬ o₂.Satisfies 2 σ := by
  obtain ⟨o₁, c₁, h₁, hc₁, hagain⟩ := exists_of_completes (lockstep.setup { technique := .classic } .ample)
    (.build lockstep.graph.control) (fun _ c => completes (lockstep.setup rangesOver .ample) c fun o _ =>
      (o.invariant? 2).all fun i => i.disjuncts.all fun v => v.toConstraints.contains (.eq (.const 1))) (by decide +kernel)
  obtain ⟨o₂, c₂, h₂, hc₂, hfalse⟩ := exists_of_completes _ c₁ _ hagain
  refine ⟨o₁, c₁, o₂, c₂, h₁, hc₁, h₂, hc₂, exists_lockstep_reaches, ?_⟩
  rintro σ ⟨i, v, hi, hv, hsat⟩
  rw [hi] at hfalse
  have hmem := List.all_eq_true.mp hfalse v (by simp [hv])
  have hone := hsat _ (List.contains_iff_mem.mp hmem)
  simp [LinearConstraint.holds, LinearConstraint.eq, Comparison.holds] at hone

/-- All values are of the kind, the known one is `F`, and away from the entry the stable one lies within it. -/
structure SlotsWithin (k : ValueKind) (F : ℕ → Value) (n : ℕ) (s : Slots Disjunction) : Prop where
  stable : s.stable.first.OfKind k
  descending : s.descending.first.OfKind k
  known : s.known.first = F n
  kind : (F n).isBottom = true ∨ (F n).OfKind k
  within : n ≠ 0 → ∀ σ : Store, s.stable.first.Allows σ.point → (F n).isBottom = true ∨ (F n).Allows σ.point

section Within

variable {su : Setup} {A : Arena} {F : ℕ → Value} {step : Block → Store → Block → Store → Prop} {r r' : Run Ω Unit}
  {n : ℕ} {u : Unit}

/-- No store is asked to stay, so that only the kinds of values and the bound on them matter. -/
theorem slotLaw_within {technique : Technique} (ht : technique ≠ .disjunctive) :
    SlotLaw technique k (fun _ _ => False) (SlotsWithin k F) where
  stable h := h.stable
  descending h := h.descending
  known {n s} h := by
    rw [h.known]
    refine h.kind.imp_right fun hkind => ?_
    rw [hkind.recast]
    exact ⟨hkind, fun _ => False.elim⟩
  reset h := ⟨h.stable, h.stable, h.known, h.kind, h.within⟩
  clear env h _ := ⟨h.stable, Value.ofKind_bottom env, h.known, h.kind, h.within⟩
  lower h hv hw := by
    refine ⟨h.stable, ?_, h.known, h.kind, h.within⟩
    rcases hw with ⟨-, rfl⟩ | hjoin
    · exact hv
    · exact h.descending.join hv hjoin
  settle {n s s' changed} h hs := by
    obtain ⟨v, hv, hs'⟩ := settled_eq ht hs
    have hkind : v.OfKind k := by
      rcases hv with ⟨-, rfl⟩ | ⟨-, hmeet⟩
      · exact h.descending
      · exact h.descending.meet h.stable hmeet
    have hshrinks : ∀ σ : Store, s'.stable.first.Allows σ.point → s.stable.first.Allows σ.point := fun σ hσ =>
      ((allows_settled ht hs h.stable h.descending).mp hσ).1
    have hwithin := fun hn σ hσ => h.within hn σ (hshrinks σ hσ)
    rcases hs' with ⟨-, rfl⟩ | ⟨-, rfl⟩
    · exact h
    · exact ⟨hkind, h.descending, h.known, h.kind, hwithin⟩

/-- The next value of a node lies within what is known there. -/
theorem nextValue_within {v w x : Value} (h : Yields (nextValue su n v w) r x r')
    (hr : r.Regular su.key A (SlotsWithin k F)) (hv : v.OfKind k) (hw : w.OfKind k) (σ : Store)
    (hσ : x.Allows σ.point) : (F n).isBottom = true ∨ (F n).Allows σ.point := by
  obtain ⟨y, r₁, hq, hnext, hx⟩ := yields_nextValue h
  have hy : y.OfKind k := by
    rcases hnext with ⟨thresholds, hwiden⟩ | hjoin
    · exact hv.widenTo hw hwiden
    · exact hw.join hv hjoin
  obtain ⟨s, hs, rfl, ⟨hbottom, -⟩ | ⟨hlive, hmeet⟩⟩ := yields_meetKnown hx
  · rw [((hr.quiet hq).slots n s hs).known] at hbottom
    exact .inl hbottom
  · have hz := (hr.quiet hq).slots n s hs
    rw [hz.known] at hlive hmeet
    have hkind := hz.kind.resolve_left (by simp [hlive])
    exact .inr ((Value.allows_meet hy hkind hmeet (Environment.integralAt_point _ σ)).mp hσ).2

theorem ascendEdge_within {p : ℕ} {v : Value} {grown : Bool} (ht : su.options.technique ≠ .disjunctive)
    (hf : su.transfer.Follows k step) (h : Yields (ascendEdge su n v p) r grown r')
    (hr : r.Regular su.key A (SlotsWithin k F)) (hv : v.OfKind k) :
    r'.Regular su.key A (SlotsWithin k F) ∧ Advance su.key (fun _ _ => False) (fun _ => True) r r' := by
  have hlaw : SlotLaw su.options.technique k (fun _ _ => False) (SlotsWithin k F) := slotLaw_within ht
  obtain ⟨r₁, r₂, r₃, w, s, y, hq₁, hedge, hs, hnext, h⟩ := yields_ascendEdge h
  obtain ⟨hq₂, hw, -⟩ := transformEdge_spec hf hedge (hr.quiet hq₁) hv
  have hr₂ := hr.quiet (hq₁.trans hq₂)
  have hz := hr₂.slots p s hs
  obtain ⟨hq₃, hy, -⟩ := nextValue_spec hnext hlaw hr₂ hz.stable hw
  have hq := (hq₁.trans hq₂).trans hq₃
  rcases h with ⟨-, -, rfl⟩ | ⟨-, -, hstore⟩
  · exact ⟨hr.quiet hq, .quiet hq⟩
  · obtain ⟨s', i, hs', -, hstores⟩ := yields_store hstore
    have hz' := (hr.quiet hq).slots p s' hs'
    refine ⟨hstores.regular (hr.quiet hq) ⟨hy, hz'.descending, hz'.known, hz'.kind, fun _ σ hσ => ?_⟩,
      (Advance.quiet hq).trans (hstores.advance hs' fun _ h => h.elim)⟩
    exact nextValue_within hnext hr₂ hz.stable hw σ hσ

/-- Without a restart from seeds the stable values stay within what is known. -/
theorem computeFunction_within (hD : k.domain = su.options.domain) (ht : su.options.technique ≠ .disjunctive)
    (hseeded : su.options.seeded = false) (hf : su.transfer.Follows k step) (h : Yields (computeFunction su) r u r')
    (hr : r.Regular su.key A (SlotsWithin k F)) (hcomputed : ∀ n, r.computed? n ≠ some true) :
    r'.Regular su.key A (SlotsWithin k F) := by
  simp only [computeFunction, hseeded, Bool.false_eq_true, if_false, yields_bind, yields_pure] at h
  obtain ⟨u₁, r₁, hascend, u₂, r₂, hdescend, -, rfl⟩ := h
  have hcompute : ∀ (x : Run Ω Unit) n x', x.Regular su.key A (SlotsWithin k F) → Yields (computeNode su n) x () x' →
      x'.Regular su.key A (SlotsWithin k F) ∧ Advance su.key (fun _ _ => False) (· ≠ n) x x' ∧
        (x'.Covered su.key (fun _ _ => False) (A.EdgeStep step) n ∨ x'.Owed n) := by
    intro x n x' hx hv
    refine visit_covered (I := fun x => x.Regular su.key A (SlotsWithin k F)) (fun _ _ _ _ h _ => h) (fun _ _ _ _ h => h.1)
      (fun _ h => h.arena) (fun _ _ h => ⟨h.arena, h.blocks, h.slots⟩) (fun s hs p y y' hy hp => ?_) hv hx
    obtain ⟨grown, y₁, hedge, hp⟩ := yields_bind.mp hp
    obtain ⟨-, rfl⟩ := yields_pure.mp hp
    obtain ⟨hy', hadv⟩ := ascendEdge_within ht hf hedge hy (hx.slots n s hs).stable
    exact ⟨hy', hadv, fun _ _ h => h.elim⟩
  obtain ⟨hr₁, -, -⟩ := ascend_closed (I := fun x => x.Regular su.key A (SlotsWithin k F))
    (Q := fun s σ => s.stable.first.Allows σ.point) (fun _ _ _ _ h _ => h) (fun _ _ hx => ⟨hx.arena, hx.blocks, hx.slots⟩)
    hcompute hascend hr hcomputed fun _ => .inl fun _ _ _ h => h.elim
  refine (descendRounds_spec (J := fun _ _ => True) (T := A.EdgeStep step) hD ht (slotLaw_within ht)
    (fun x n x' hx _ hv => ?_) hdescend hr₁ trivial fun _ _ _ _ h => h.elim).1
  obtain ⟨hx', -, -, hlow, hn⟩ := visit_lowered (K := fun _ _ => False) (T := A.EdgeStep step) (fun _ _ _ _ h => h.1)
    (fun s hs p y y' hy _ hp => descendEdge_spec hf (slotLaw_within ht) hp hy (hx.slots n s hs).stable) hv hx
  exact ⟨hx', trivial, hlow, hn⟩

end Within

theorem SlotsWithin.of_fresh {F : ℕ → Value} {n : ℕ} {s : Slots Disjunction} (h : FreshSlots k.domain n s)
    (hknown : s.known.first = F n) (hkind : (F n).isBottom = true ∨ (F n).OfKind k) : SlotsWithin k F n s := by
  obtain ⟨⟨env, hstable, hdescending, -⟩, -⟩ := h
  have hstart : s.stable.first.OfKind k := by
    rw [hstable]
    exact ofKind_startValue rfl n env
  refine ⟨hstart, by rw [hdescending]; exact hstart, hknown, hkind, fun hn σ hσ => ?_⟩
  rw [hstable, startValue, if_neg hn] at hσ
  exact absurd hσ (Value.not_allows_of_isBottom rfl _)

section Abandoned

variable {oracle : Ω} {c : Context} [PathOracle Ω]

/-- A store that the report covers away from the entry is in the known value of its block. -/
theorem contains_of_covers (hp : p.graph.WellFormed) (ht : options.technique = .classic) (hseeded : options.seeded = false)
    (hctx : ctx.OfGraph p.graph.control) (h : analyzeWith (p.setup options resources) name oracle ctx = (.ok o, c))
    (hc : o.isCompleted = true)
    (hkinds : ∀ bv ∈ knownValues (p.setup options resources) (.new options ctx oracle), bv.2.isBottom = true ∨
      bv.2.OfKind (.ofDomain options.domain)) {bv : Block × Value}
    (hbv : bv ∈ knownValues (p.setup options resources) (.new options ctx oracle)) (hb : bv.1 ≠ p.graph.entry)
    (hlive : bv.2.isBottom = false) (hσ : o.Covers bv.1 σ) : bv.2.Contains σ := by
  let su := p.setup options resources
  obtain ⟨r₁, r₂, hprepare, hstart, -, -, hcompute, -, hreports⟩ := exists_run_of_completed strategy hctx
    (fun e => by simp only [runTechnique, Program.setup, ht]) h hc
  let F : ℕ → Value := fun n => (r₁.slots? su.key n).elim (.top .intervals .empty) (·.known.first)
  have hF : ∀ n s, r₁.slots? su.key n = some s → s.known.first = F n := by
    intro n s hs
    simp only [F, hs, Option.elim_some]
  have hr₁ : r₁.Regular su.key (.build p.graph.control) (SlotsWithin (.ofDomain options.domain) F) := by
    refine ⟨hstart.arena, hstart.blocks, fun n s hs => .of_fresh (hstart.slots n s hs) (hF n s hs) ?_⟩
    obtain ⟨b, hb⟩ := exists_block hs
    rw [← hF n s hs]
    exact hkinds _ (mem_knownValues hprepare hb hs)
  have hr₂ := computeFunction_within (k := .ofDomain options.domain) rfl (by simp [Program.setup, ht]) hseeded
    (p.transfer_follows _) hcompute hr₁ hstart.computed
  obtain ⟨n, s, hn, hs, hv⟩ := exists_of_mem_knownValues hprepare hbv
  obtain ⟨m, hm, t, ht', hall⟩ := ((hreports hr₂.arena hr₂.blocks).covers_iff_stable hp.bounded
    (by simp [Program.setup, ht]) ValueKind.rowless_ofDomain fun n s hs => (hr₂.slots n s hs).stable).mp hσ
  rw [hstart.blocks] at hn
  rw [hr₂.blocks] at hm
  obtain rfl := Arena.node_unique hp.bounded hn hm
  have hn0 : n ≠ 0 := by
    rintro rfl
    rw [Arena.blocks_zero hp.bounded] at hm
    exact hb (Option.some.inj hm).symm
  have hz := hr₂.slots n t ht'
  rw [hv, hF n s hs] at hlive ⊢
  have hknown := (hz.within hn0 σ hall).resolve_left (by simp [hlive])
  exact Value.contains_iff.mpr (hknown.admits (hz.kind.resolve_left (by simp [hlive])) ValueKind.rowless_ofDomain)

/-- A completed classic run on top of an earlier run of its domain, which may have been abandoned anywhere. It covers
all stores in reach, and its proved sites are never reached, if all that the earlier run has left behind holds on the
stores in reach; unless it restarts from seeds, this is also necessary. At the entry, which starts at top, nothing is
taken over. -/
theorem covers_iff_left_holds (hp : p.graph.WellFormed) (ht : options.technique = .classic)
    (hctx : ctx.OfGraph p.graph.control) (h : analyzeWith (p.setup options resources) name oracle ctx = (.ok o, c))
    (hc : o.isCompleted = true)
    (hkinds : ∀ bv ∈ knownValues (p.setup options resources) (.new options ctx oracle), bv.2.isBottom = true ∨
      bv.2.OfKind (.ofDomain options.domain))
    (hentry : ∀ bv ∈ knownValues (p.setup options resources) (.new options ctx oracle), bv.1 = p.graph.entry →
      bv.2.isBottom = true ∨ ∀ σ, bv.2.Contains σ) :
    ((∀ bv ∈ knownValues (p.setup options resources) (.new options ctx oracle), bv.2.isBottom = true ∨
        ∀ σ, p.Reaches bv.1 σ → bv.2.Contains σ) →
      (∀ b σ, p.Reaches b σ → o.Covers b σ) ∧
        ∀ site ∈ o.sites, site.isProved = true → ∀ σ, ¬ p.Reaches site.block σ) ∧
      (options.seeded = false → (∀ b σ, p.Reaches b σ → o.Covers b σ) →
        ∀ bv ∈ knownValues (p.setup options resources) (.new options ctx oracle), bv.2.isBottom = true ∨
          ∀ σ, p.Reaches bv.1 σ → bv.2.Contains σ) := by
  refine ⟨fun hknown => ?_, fun hseeded hcovers bv hbv => ?_⟩
  · obtain ⟨r, -, hrep, hr⟩ := sound_of_completed (k := .ofDomain options.domain) hp ht hctx h hc rfl fun bv hbv => by
      rcases hkinds bv hbv with hbottom | hkind
      · exact .inl hbottom
      · exact (hknown bv hbv).imp_right fun hholds => ⟨hkind, hholds⟩
    refine ⟨fun b σ hσ => ?_, fun site hsite hproved => hr.not_reaches_of_proved hp ht hrep hsite hproved⟩
    obtain ⟨i, v, hi, hv, hkind, hall⟩ := exists_invariant hp ht hrep hr hσ
    exact ⟨i, hi, v, by simp [hv], Value.contains_iff.mpr (hall.admits hkind ValueKind.rowless_ofDomain)⟩
  · cases hlive : bv.2.isBottom with
    | true => exact .inl rfl
    | false =>
      refine .inr fun σ hσ => ?_
      by_cases hb : bv.1 = p.graph.entry
      · exact (hentry bv hbv hb).resolve_left (by simp [hlive]) σ
      · exact contains_of_covers hp ht hseeded hctx h hc hkinds hbv hb hlive (hcovers bv.1 σ hσ)

end Abandoned

/-- Counts up from zero for ever, and may fail from two on. -/
def tally : Program where
  name := "tally"
  declared := [("x", some .int)]
  graph :=
    { payloads := [⟨[.assign "x" (.const 0)], none⟩, ⟨[.assign "x" (.var "x" + .const 1)], none⟩, ⟨[], none⟩]
      roles := [(2, .assertionFailure)]
      edges := [(0, 1, []), (1, 1, []), (1, 2, [.ge (.var "x" - .const 2)])] }

theorem tally_reaches : (∃ σ, tally.Reaches 1 σ ∧ σ "x" = 1) ∧ ∃ σ, tally.Reaches 2 σ := by
  have hzero : tally.Reaches 1 _ :=
    .step (.entry fun _ => 0) rfl ⟨by decide +kernel, .cons (.assign "x" (.const 0) _) (.nil _), by decide⟩
  have hone := hzero.step (b := 1) rfl
    ⟨by decide +kernel, .cons (.assign "x" (.var "x" + .const 1) _) (.nil _), by decide +kernel⟩
  have htwo := hone.step (b := 2) rfl
    ⟨by decide +kernel, .cons (.assign "x" (.var "x" + .const 1) _) (.nil _), by decide +kernel⟩
  exact ⟨⟨_, hone, by simp⟩, _, htwo⟩

/-- Path focusing with an oracle that finds the given paths and then gives up. -/
def giveUpAfter (paths : List Path) : Except Failure Outcome × Context :=
  analyzeWith (tally.setup { technique := .focusing } .ample) "f"
    (ScriptOracle.new (paths.map (fun path => ⟨.ok (.sat path 0), none⟩) ++ [⟨.ok .unknown, none⟩]))
    (.build tally.graph.control)

/-- A run on top of path focusing. -/
def onFocusing : Options where
  technique := .classic
  known := some (Options.key { technique := .focusing })

def leftAfter (paths : List Path) : List (Block × Value) :=
  knownValues (tally.setup onFocusing .ample)
    (.new onFocusing (giveUpAfter paths).2 (SearchOracle.new tally.graph.control tally.transfer))

/-- Nothing is left behind at first; after one path it is zero at block 1. -/
theorem left_of_giveUpAfter :
    (∀ bv ∈ leftAfter [], bv.2.isBottom = true ∨ bv.2 = .top .intervalEqualities bv.2.env) ∧
      ∀ bv ∈ leftAfter [.edge 0 1], bv.2.isBottom = true ∨ bv.2.domain = .intervalEqualities ∧
        (bv.1 = tally.graph.entry → bv.2 = .top .intervalEqualities bv.2.env) := by
  decide +kernel

theorem covers_iff_left_holds_tally :
    (∃ o c, analyze (tally.setup onFocusing .ample) "f" (giveUpAfter []).2 = (.ok o, c) ∧ o.isCompleted = true ∧
      ∀ b σ, tally.Reaches b σ → o.Covers b σ) ∧
    ∃ o c, analyze (tally.setup onFocusing .ample) "f" (giveUpAfter [.edge 0 1]).2 = (.ok o, c) ∧
      o.isCompleted = true ∧ ¬ ∀ b σ, tally.Reaches b σ → o.Covers b σ := by
  have hp : tally.graph.WellFormed := ⟨by decide, by decide⟩
  have htop : ∀ {v : Value} {σ}, v = .top .intervalEqualities v.env → v.Contains σ := by
    intro v σ h
    rw [h]
    exact ⟨fun _ => rfl, nofun⟩
  constructor
  · obtain ⟨o, c, h, hc, -⟩ := exists_of_completes (tally.setup onFocusing .ample) (giveUpAfter []).2 (fun _ _ => true)
      (by decide +kernel)
    have hleft := left_of_giveUpAfter.1
    refine ⟨o, c, h, hc, ((covers_iff_left_holds hp rfl ⟨by decide +kernel, by decide +kernel⟩ h hc
      (fun bv hbv => (hleft bv hbv).imp_right fun htop => ⟨by rw [htop]; rfl, nofun⟩)
      fun bv hbv _ => (hleft bv hbv).imp_right fun h σ => htop h).1
      fun bv hbv => (hleft bv hbv).imp_right fun h σ _ => htop h).1⟩
  · obtain ⟨o, c, h, hc, -⟩ := exists_of_completes (tally.setup onFocusing .ample) (giveUpAfter [.edge 0 1]).2
      (fun _ _ => true) (by decide +kernel)
    have hleft := left_of_giveUpAfter.2
    refine ⟨o, c, h, hc, fun hcovers => ?_⟩
    have hholds := (covers_iff_left_holds hp rfl ⟨by decide +kernel, by decide +kernel⟩ h hc
      (fun bv hbv => (hleft bv hbv).imp_right fun h => ⟨h.1, nofun⟩)
      fun bv hbv hb => (hleft bv hbv).imp_right fun h σ => htop (h.2 hb)).2 rfl hcovers
    have hzero : ∃ bv ∈ leftAfter [.edge 0 1], bv.1 = 1 ∧ bv.2.isBottom = false ∧
        (bv.2.box.get "x").contains 1 = false := by
      decide +kernel
    obtain ⟨⟨b, v⟩, hbv, rfl, hlive, hx⟩ := hzero
    obtain ⟨⟨σ, hσ, hone⟩, -⟩ := tally_reaches
    have hcontains := (hholds _ hbv).resolve_left (by simp [hlive]) σ hσ
    have hmem : (v.box.get "x").contains 1 = true := hone ▸ hcontains.1 "x"
    simp [hmem] at hx

/-- Path focusing is abandoned after one path, and the run on top of it reports only zero at block 1. It reports the
site as proved, although it is reached. -/
theorem abandoned_run_misleads : ∃ o₁ c₁ o₂ c₂, giveUpAfter [.edge 0 1] = (.ok o₁, c₁) ∧
    o₁.status = .unknown .oracleUnknown ∧ analyze (tally.setup onFocusing .ample) "f" c₁ = (.ok o₂, c₂) ∧
      o₂.isCompleted = true ∧ (∃ σ, tally.Reaches 1 σ ∧ ¬ o₂.Covers 1 σ) ∧
      ∃ site ∈ o₂.sites, site.isProved = true ∧ ∃ σ, tally.Reaches site.block σ := by
  have hgaveUp : (giveUpAfter [.edge 0 1]).1.toOption.map (·.status) = some (.unknown .oracleUnknown) := by
    decide +kernel
  obtain ⟨o₂, c₂, h₂, hc₂, htest⟩ := exists_of_completes (tally.setup onFocusing .ample) (giveUpAfter [.edge 0 1]).2
    (fun o _ => o.proves 2 && (o.invariant? 1).all fun i => i.disjuncts.all fun v => !(v.box.get "x").contains 1)
    (by decide +kernel)
  obtain ⟨hproves, hmisses⟩ := Bool.and_eq_true_iff.mp htest
  obtain ⟨⟨σ, hσ, hone⟩, hfails⟩ := tally_reaches
  obtain ⟨site, hsite, hblock, hproved⟩ := Outcome.exists_of_proves hproves
  generalize giveUpAfter [.edge 0 1] = first at *
  obtain ⟨_ | o₁, c₁⟩ := first
  · cases hgaveUp
  · refine ⟨o₁, c₁, o₂, c₂, rfl, Option.some.inj hgaveUp, h₂, hc₂, ⟨σ, hσ, ?_⟩, site, hsite, hproved, hblock ▸ hfails⟩
    rintro ⟨i, hi, v, hv, hbox, -⟩
    rw [hi] at hmisses
    have hout := List.all_eq_true.mp hmisses v hv
    have hmem : (v.box.get "x").contains 1 = true := hone ▸ hbox "x"
    simp [hmem] at hout

end Classic

end PathInvariants
