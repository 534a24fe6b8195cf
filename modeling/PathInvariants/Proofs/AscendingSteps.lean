import PathInvariants.Proofs.KnownProperties
import PathInvariants.Proofs.OperationOrder
import PathInvariants.Proofs.Preparation
import PathInvariants.Proofs.SlotRules

/-!
# Ascending steps

An ascending step stores joins and widenings of what a slot has held. They lie above it in the order, whatever the
transfer has made of the value of departure, and so do the copies that a step on a cyclic path puts back. As long as
no known properties cut them down, the disjuncts of the stable slots only grow.

A join lies above its second operand only if both are values of one domain, which over intervals have no rows. Iteration
along edges puts what a slot has held there, and so it needs a transfer that stays in the domain of the run. Path focusing
does not.
-/
namespace PathInvariants

variable {Ω S : Type} {su : Setup} {K : Value → Prop} {before : Before}

namespace Disjunction

variable {d e : Disjunction} {i : ℕ} {v w : Value}

theorem leqAt_refl (d : Disjunction) (i : ℕ) : d.leqAt d i = true := by
  unfold leqAt
  cases d.get? i with
  | none => rfl
  | some v => exact Value.leq_refl v

theorem leq_of_leqAt (h : d.leqAt e i = true) (hv : d.get? i = some v) (hw : e.get? i = some w) : v.leq w = true := by
  simpa only [leqAt, hv, hw] using h

theorem isBottom_of_leqAt (h : d.leqAt e i = true) (hv : d.get? i = some v) (hnone : e.get? i = none) :
    v.isBottom = true := by simpa only [leqAt, hv, hnone] using h

/-- A union stays above another one when a disjunct is replaced by one above its counterpart. -/
theorem leqAt_set (h : ∀ j, d.leqAt e j = true) (hw : ∀ v, d.get? i = some v → v.leq w = true) (j : ℕ) :
    d.leqAt (e.set i w) j = true := by
  cases hd : d.get? j with
  | none => simp only [leqAt, hd]
  | some v =>
    by_cases hj : j = i
    · subst hj
      simpa only [leqAt, hd, get?_set] using hw v hd
    · cases he : e.get? j with
      | some u =>
        have hlt : j < e.size := (List.getElem?_eq_some_iff.mp he).1
        simpa only [leqAt, hd, get?_set_of_ne e w hj hlt, he] using leq_of_leqAt (h j) hd he
      | none =>
        have hbottom := isBottom_of_leqAt (h j) hd he
        unfold leqAt
        rw [hd]
        cases (e.set i w).get? j with
        | none => exact hbottom
        | some u => exact Value.leq_of_isBottom hbottom u

end Disjunction

/-- The transfer takes values of the domain to values of the domain. -/
def Transfer.StaysIn (t : Transfer) (domain : Domain) : Prop := ∀ p v, v.Ordered domain → (t.along p v).Ordered domain

/-- The values are of a sort with canonical rows that no operation of an ascending step leaves. -/
structure Setup.Stays (su : Setup) (K : Value → Prop) : Prop where
  canonical : ∀ {v : Value}, K v → v.eqs.Canonical
  bottom : ∀ env : Environment, K (.bottom su.options.domain env)
  filler : ∀ {v : Value}, K v → K (.bottom v.domain v.env)
  along : ∀ (p : Path) {v : Value}, K v → K (su.transfer.along p v)
  withEnv : ∀ {v : Value} (env : Environment), K v → K (v.withEnv env)
  joinOver : ∀ {v : Value} {ws : List Value} (env : Environment), K v → (∀ w ∈ ws, K w) → K (v.joinOver env ws)
  widenTo : ∀ {u v w : Value} {thresholds : List LinearConstraint}, K v → K w → v.widenTo thresholds w = .ok u → K u

theorem Setup.stays_canonical (hsu : su.transfer.KeepsCanonical) : su.Stays fun v => v.eqs.Canonical where
  canonical hv := hv
  bottom _ := Equalities.canonical_empty
  filler _ := Equalities.canonical_empty
  along p _ hv := hsu p _ hv
  withEnv env hv := Value.canonical_withEnv hv env
  joinOver env hv hws := Value.canonical_joinOver hv hws env
  widenTo hv hw h := Value.canonical_widenTo hv hw h

theorem Setup.stays_ordered (hsu : su.transfer.StaysIn su.options.domain) :
    su.Stays (Value.Ordered su.options.domain) where
  canonical hv := hv.canonical
  bottom env := (Value.Formed.bottom env).ordered
  filler {v} hv := by
    have hdomain : v.domain = su.options.domain := hv.kind.1
    exact hdomain ▸ (Value.Formed.bottom v.env).ordered
  along p _ hv := hsu p _ hv
  withEnv env hv := ⟨hv.kind.withEnv env, Value.canonical_withEnv hv.canonical env⟩
  joinOver env hv hws := ⟨hv.kind.joinOver (fun w hw => (hws w hw).kind) env,
    Value.canonical_joinOver hv.canonical (fun w hw => (hws w hw).canonical) env⟩
  widenTo hv hw h := ⟨hv.kind.widenTo hw.kind h, Value.canonical_widenTo hv.canonical hw.canonical h⟩

/-- The values of a stable slot are of the sort, and none lies below what was at its index. A known property is bottom. -/
structure Grown (K : Value → Prop) (before : Before) (n : ℕ) (sl : Slot) (d : Disjunction) : Prop where
  sort : sl = .stable → ∀ v ∈ d.toList, K v
  above : sl = .stable → ∀ s, before n = some s → ∀ i, s.stable.leqAt d i = true
  known : sl = .known → d.first.isBottom = true

/-- The value lies above what the stable slot of a node has held at an index. -/
structure Above (K : Value → Prop) (before : Before) (n i : ℕ) (v : Value) : Prop where
  sort : K v
  above : ∀ s, before n = some s → ∀ w, s.stable.get? i = some w → w.leq v = true

theorem Grown.get? {n i : ℕ} {d : Disjunction} {v : Value} (hd : Grown K before n .stable d) (hv : d.get? i = some v) :
    Above K before n i v :=
  ⟨hd.sort rfl v (List.mem_of_getElem? hv), fun s hs _ hw => Disjunction.leq_of_leqAt (hd.above rfl s hs i) hw hv⟩

/-- All stable values are of the sort. -/
def Before.AllOf (before : Before) (K : Value → Prop) : Prop := ∀ n s, before n = some s → ∀ v ∈ s.stable.toList, K v

section Above

variable {n i : ℕ} {u v w : Value} (hK : su.Stays K) (h₀ : before.AllOf K)
include hK h₀

theorem Above.mono (hv : Above K before n i v) (hu : K u) (h : v.leq u = true) : Above K before n i u := by
  refine ⟨hu, fun s hs w hw => ?_⟩
  have hw' := hK.canonical (h₀ n s hs w (List.mem_of_getElem? hw))
  exact Value.leq_trans hw' (hK.canonical hv.sort) (hv.above s hs w hw) h

theorem Above.joinOver (hv : Above K before n i v) (hw : K w) (env : Environment) :
    Above K before n i (v.joinOver env [w]) := by
  have hws : ∀ x ∈ [w], K x := by simpa using hw
  refine Above.mono hK h₀ hv (hK.joinOver env hv.sort hws) ?_
  exact Value.leq_joinOver (hK.canonical hv.sort) (fun x hx => hK.canonical (hws x hx)) env

theorem Above.widenTo (hv : Above K before n i v) (hw : K w) (h : ∃ thresholds, v.widenTo thresholds w = .ok u) :
    Above K before n i u := by
  obtain ⟨thresholds, h⟩ := h
  exact Above.mono hK h₀ hv (hK.widenTo hv.sort hw h) (Value.leq_widenTo (hK.canonical hv.sort) h)

end Above

/-- However the computation ends, the stable slots have only grown. -/
abbrev Grows (su : Setup) (K : Value → Prop) (before : Before) {α : Type} (m : Analysis Ω S α) (Q : α → Prop) : Prop :=
  Upholds su (Grown K before) before m Q

namespace Grows

open Upholds hiding value disjunct

variable {n i succ : ℕ} {u v w image previous next : Value} {p : Path}

theorem value (n : ℕ) : Grows su K before (Analysis.value su n .stable : Analysis Ω S _) (Above K before n 0) := by
  refine Paired.mono (Upholds.value n .stable) fun v hv => ?_
  obtain ⟨d, hd, rfl⟩ := hv
  exact hd.get? rfl

theorem setInitial (n i : ℕ) (v : Value) :
    Grows su K before (Analysis.setDisjunct su n .initial i v : Analysis Ω S _) fun _ => True :=
  setDisjunct fun _ _ => ⟨nofun, nofun, nofun⟩

/-- With no known property a value is left as it is. -/
theorem meetKnown (n : ℕ) (v : Value) : Grows su K before (Analysis.meetKnown su n v : Analysis Ω S _) (· = v) := by
  refine (Upholds.value n .known).bind fun known hknown => Paired.ite (fun _ => Paired.pure rfl) fun hlive => ?_
  obtain ⟨d, hd, rfl⟩ := hknown
  exact absurd (hd.known rfl) hlive

variable (hK : su.Stays K)
include hK

theorem disjunct (n i : ℕ) :
    Grows su K before (Analysis.disjunct su n .stable i : Analysis Ω S _) (Above K before n i) := by
  refine Paired.mono (Upholds.disjunct n .stable i) fun v hv => ?_
  obtain ⟨d, hd, hv | ⟨hnone, env, rfl⟩⟩ := hv
  · exact hd.get? hv
  · refine ⟨hK.bottom env, fun s hs w hw => ?_⟩
    exact Value.leq_of_isBottom (Disjunction.isBottom_of_leqAt (hd.above rfl s hs i) hw hnone) _

theorem raise (hv : Above K before n i v) :
    Grows su K before (Analysis.setDisjunct su n .stable i v : Analysis Ω S _) fun _ => True := by
  refine setDisjunct fun d hd => ⟨fun _ w hw => ?_, fun _ s hs => ?_, nofun⟩
  · rcases Disjunction.mem_toList_set hw with rfl | hw | rfl
    · exact hv.sort
    · exact hd.sort rfl w hw
    · exact hK.filler (hd.sort rfl d.first (by simp [Disjunction.toList]))
  · exact Disjunction.leqAt_set (hd.above rfl s hs) (hv.above s hs)

theorem transform (hv : K v) (p : Path) : Grows su K before (Analysis.transform su p v : Analysis Ω S _) K :=
  Paired.mono (Upholds.transform p v) fun _ h => h ▸ hK.along p hv

theorem transformEdge (hv : K v) (n succ : ℕ) :
    Grows su K before (Analysis.transformEdge su n succ v : Analysis Ω S _) K := by
  refine Paired.mono (Upholds.transformEdge n succ v) fun image himage => ?_
  obtain ⟨p, env, rfl⟩ := himage
  exact hK.withEnv env (hK.along p hv)

variable (h₀ : before.AllOf K)
include h₀

theorem widen (hv : Above K before n i v) (hw : K w) :
    Grows su K before (Analysis.widen su v w : Analysis Ω S _) (Above K before n i) :=
  Paired.mono (Upholds.widen v w) fun _ h => Above.widenTo hK h₀ hv hw h

theorem widenToThresholds (hv : Above K before n i v) (hw : K w) :
    Grows su K before (Analysis.widenToThresholds su v w : Analysis Ω S _) (Above K before n i) :=
  Paired.mono (Upholds.widenToThresholds v w) fun _ h => Above.widenTo hK h₀ hv hw h

/-- Both what is stored on a cyclic path and what is put back lie above what was there. -/
theorem loopStep {source target : ℕ} {step : Analysis.LoopStep} (hstep : K step.image) :
    Grows su K before (Analysis.loopStep su n source target p step : Analysis Ω S _) fun step => K step.image := by
  refine Paired.ite (fun _ => ?_) fun _ => Paired.pure hstep
  refine (env n).bind fun env _ => (disjunct hK n source).bind fun backup hbackup => ?_
  refine (disjunct hK n target).bind fun previous hprevious => ?_
  have hjoined := Above.joinOver hK h₀ hprevious hstep env
  refine (widenToThresholds hK h₀ hprevious hjoined.sort).bind fun widened hwidened => ?_
  refine (raise hK hwidened).bind fun _ _ => (transform hK hwidened.sort p).bind fun image himage => ?_
  exact (raise hK hbackup).bind fun _ _ => Paired.pure (hK.withEnv env himage)

section Edges

variable (hright : ∀ {u v w : Value}, K v → K w → v.join w = .ok u → w.leq u = true)
include hright

theorem nextValue (hprevious : Above K before succ 0 previous) (himage : K image) :
    Grows su K before (Analysis.nextValue su succ previous image : Analysis Ω S _) (Above K before succ 0) := by
  have hknown : ∀ next, Above K before succ 0 next →
      Grows su K before (Analysis.meetKnown su succ next : Analysis Ω S _) (Above K before succ 0) := fun next hnext =>
    Paired.mono (meetKnown succ next) fun _ h => h ▸ hnext
  refine (isWidening succ).bind fun widening _ => Upholds.either (fun _ => ?_) (fun _ => ?_) hknown
  · exact widen hK h₀ hprevious himage
  · refine ofFault fun next hnext => Above.mono hK h₀ hprevious ?_ (hright himage hprevious.sort hnext)
    obtain ⟨env, rfl⟩ := Value.join_eq hnext
    exact hK.joinOver env himage (by simpa using hprevious.sort)

omit h₀ hright in
theorem store (hnext : Above K before succ 0 next) :
    Grows su K before (Analysis.store su succ previous next : Analysis Ω S _) fun _ => True := by
  unfold Analysis.store
  refine Upholds.optional (setInitial _ _ _) fun _ => (raise hK hnext).bind fun _ _ => ?_
  exact (push succ).bind fun _ _ => setComputed succ false

theorem ascendEdge (hv : K v) (n succ : ℕ) :
    Grows su K before (Analysis.ascendEdge su n v succ : Analysis Ω S _) fun _ => True := by
  refine (modifyStats _).bind fun _ _ => (transformEdge hK hv n succ).bind fun image himage => ?_
  refine (value succ).bind fun previous hprevious => (nextValue hK h₀ hright hprevious himage).bind fun next hnext => ?_
  refine Paired.ite (fun _ => Paired.pure trivial) fun _ => ?_
  exact (store hK hnext).bind fun _ _ => Paired.pure trivial

theorem classicCompute (n : ℕ) : Grows su K before (Classic.computeNode su n : Analysis Ω _ _) fun _ => True := by
  refine (setComputed n true).bind fun _ _ => (value n).bind fun start hstart => ?_
  refine Paired.ite (fun _ => Paired.pure trivial) fun _ => arena.bind fun a _ => Paired.forM fun succ _ => ?_
  exact (ascendEdge hK h₀ hright hstart.sort n succ).bind fun _ _ => Paired.pure trivial

theorem guidedCompute (n : ℕ) : Grows su K before (Guided.computeNode su n : Analysis Ω _ _) fun _ => True := by
  refine (setComputed n true).bind fun _ _ => (value n).bind fun start hstart => ?_
  refine Paired.ite (fun _ => Paired.pure trivial) fun _ => arena.bind fun a _ => Paired.forM fun succ _ => ?_
  refine (isFeasible n succ).bind fun feasible _ => Paired.ite (fun _ => ?_) fun _ => Paired.pure trivial
  refine (ascendEdge hK h₀ hright hstart.sort n succ).bind fun grown _ => ?_
  exact Paired.ite (fun _ => arena.bind fun a _ => modifyMemory _) fun _ => Paired.pure trivial

end Edges

section Paths

theorem focusingPropagate (n : ℕ) (p : Path) (onlyJoin : Bool) :
    Grows su K before (Focusing.propagate su n p onlyJoin : Analysis Ω _ _) fun _ => True := by
  refine (destinationOf p).bind fun succ _ => (modifyStats _).bind fun _ _ => (env succ).bind fun env _ => ?_
  refine (value n).bind fun start hstart => (transform hK hstart.sort p).bind fun image himage => ?_
  refine memory.bind fun m _ => Upholds.either (Q := fun step => K step.image) (fun _ => ?_)
    (fun _ => Paired.pure (hK.withEnv env himage)) fun step hstep => ?_
  · exact loopStep hK h₀ (hK.withEnv env himage)
  refine (modifyMemory _).bind fun _ _ => (value succ).bind fun previous hprevious => ?_
  have hjoined := Above.joinOver hK h₀ hprevious hstep env
  refine (isWidening succ).bind fun widening _ => Upholds.either (fun _ => widen hK h₀ hprevious hjoined.sort)
    (fun _ => Paired.pure hjoined) fun next hnext => ?_
  refine Upholds.optional (setInitial _ _ _) fun _ => (meetKnown succ next).bind fun met hmet => ?_
  subst hmet
  refine (raise hK hnext).bind fun _ _ => (push succ).bind fun _ _ => (setComputed succ false).bind fun _ _ => ?_
  exact Paired.pure trivial

theorem focusingFollow [PathOracle Ω] (n fuel : ℕ) (onlyJoin : Bool) :
    Grows su K before (Focusing.followPaths su n fuel onlyJoin : Analysis Ω _ _) fun _ => True := by
  induction fuel generalizing onlyJoin with
  | zero => exact Upholds.throw _
  | succ fuel ih =>
    refine (setComputed n true).bind fun _ _ => (query n false .any).bind fun answer _ => ?_
    split
    · exact Paired.pure trivial
    · rename_i p i
      refine Paired.ite (fun _ => ?_) fun _ => Paired.pure trivial
      exact (focusingPropagate hK h₀ n p onlyJoin).bind fun only _ => ih only

theorem focusingCompute [PathOracle Ω] (n : ℕ) :
    Grows su K before (Focusing.computeNode su n : Analysis Ω _ _) fun _ => True := by
  refine (startsPaths n).bind fun starts _ => Paired.ite (fun _ => ?_) fun _ => setComputed n true
  exact (modifyMemory _).bind fun _ _ => focusingFollow hK h₀ n _ false

omit h₀ in
theorem imageOf (n i : ℕ) (p : Path) (succ : ℕ) :
    Grows su K before (Disjunctive.imageOf su n i p succ : Analysis Ω _ _) K := by
  refine (env succ).bind fun env _ => (disjunct hK n i).bind fun start hstart => ?_
  exact (transform hK hstart.sort p).bind fun image himage => Paired.pure (hK.withEnv env himage)

theorem disjunctivePropagate (n : ℕ) (p : Path) (i : ℕ) :
    Grows su K before (Disjunctive.propagate su n p i : Analysis Ω _ _) fun _ => True := by
  refine (modifyStats _).bind fun _ _ => (destinationOf p).bind fun succ _ => (env succ).bind fun env _ => ?_
  refine (imageOf hK n i p succ).bind fun image himage => (slot succ .stable).bind fun target _ => ?_
  refine (place p i image target).bind fun chosen _ => memory.bind fun m _ => ?_
  refine Upholds.either (Q := fun step => K step.image) (fun _ => ?_) (fun _ => Paired.pure himage) fun step hstep => ?_
  · exact loopStep hK h₀ himage
  refine (modifyMemory _).bind fun _ _ => (disjunct hK succ chosen).bind fun previous hprevious => ?_
  have hjoined := Above.joinOver hK h₀ hprevious hstep env
  refine (isWidening succ).bind fun widening _ => Upholds.either (fun _ => widenToThresholds hK h₀ hprevious hjoined.sort)
    (fun _ => Paired.pure hjoined) fun next hnext => ?_
  refine (meetKnown succ next).bind fun met hmet => ?_
  subst hmet
  refine Upholds.optional (setInitial _ _ _) fun _ => (raise hK hnext).bind fun _ _ => ?_
  refine (push succ).bind fun _ _ => (setComputed succ false).bind fun _ _ => ?_
  exact arena.bind fun a _ => modifyMemory _

theorem disjunctiveFollow [PathOracle Ω] (n fuel : ℕ) :
    Grows su K before (Disjunctive.followPaths su n fuel : Analysis Ω _ _) fun _ => True := by
  induction fuel with
  | zero => exact Upholds.throw _
  | succ fuel ih =>
    refine (nextRecorded n false).bind fun answer _ => ?_
    split
    · exact Paired.pure trivial
    · rename_i p i
      exact (disjunctivePropagate hK h₀ n p i).bind fun _ _ => ih

theorem disjunctiveCompute [PathOracle Ω] (n : ℕ) :
    Grows su K before (Disjunctive.computeNode su n : Analysis Ω _ _) fun _ => True := by
  refine (setComputed n true).bind fun _ _ => (startsPaths n).bind fun starts _ => ?_
  refine Paired.ite (fun _ => ?_) fun _ => Paired.pure trivial
  exact (modifyMemory _).bind fun _ _ => disjunctiveFollow hK h₀ n _

end Paths

end Grows

namespace Run

variable {r r' : Run Ω S}

/-- The stable values are of the sort, and there are no known properties. -/
structure Ready (r : Run Ω S) (su : Setup) (K : Value → Prop) : Prop where
  sort : Before.AllOf (r.slots? su.key) K
  unknown : ∀ n s, r.slots? su.key n = some s → s.known.first.isBottom = true

theorem Ready.mono {K' : Value → Prop} (h : r.Ready su K) (hK : ∀ v, K v → K' v) : r.Ready su K' :=
  ⟨fun n s hs v hv => hK v (h.sort n s hs v hv), h.unknown⟩

/-- Runs are prepared for ascending steps, unless they import known properties. -/
theorem Ready.of_prepared (h : Prepared su r r') (hnone : su.options.known = none) :
    r'.Ready su (Value.Ordered su.options.domain) := by
  refine ⟨fun n s hs v hv => ?_, fun n s hs => h.unknown hnone hs⟩
  obtain ⟨env, hstable, -⟩ := (h.slots n s hs).start
  rw [hstable, Disjunction.single, Disjunction.toList, List.mem_singleton] at hv
  rw [hv, startValue]
  split
  · exact (Value.Formed.top env).ordered
  · exact (Value.Formed.bottom env).ordered

/-- No disjunct of a stable slot has got smaller; those that are missing count as bottom. -/
def GrowsTo (r r' : Run Ω S) (key : Key) : Prop := ∀ n s, r.slots? key n = some s →
  ∃ s', r'.slots? key n = some s' ∧ ∀ i, s.stable.leqAt s'.stable i = true

/-- The state in which a computation leaves a run, in whatever way it ends. -/
abbrev after (r : Run Ω S) (m : Analysis Ω S Unit) : Run Ω S := (m.run.run r).2

theorem Ready.grows {m : Analysis Ω S Unit} (hr : r.Ready su K)
    (hm : ∀ before : Before, before.AllOf K → Grows su K before m fun _ => True) :
    (r.after m).Ready su K ∧ r.GrowsTo (r.after m) su.key := by
  have hstart : ∀ n s, r.slots? su.key n = some s → ∀ sl, Grown K (r.slots? su.key) n sl (s.get sl) := by
    refine fun n s hs sl => ⟨fun hsl => hsl ▸ hr.sort n s hs, fun hsl s₀ hs₀ i => ?_, fun hsl => hsl ▸ hr.unknown n s hs⟩
    obtain rfl := Option.some.inj (hs.symm.trans hs₀)
    exact hsl ▸ Disjunction.leqAt_refl s.stable i
  obtain ⟨hrule, hkept⟩ := (hm _ hr.sort).run hstart
  refine ⟨⟨fun n s hs => ?_, fun n s hs => ?_⟩, fun n s hs => ?_⟩
  · exact (hrule n s hs .stable).sort rfl
  · exact (hrule n s hs .known).known rfl
  · obtain ⟨s', hs'⟩ := hkept n s hs
    exact ⟨s', hs', (hrule n s' hs' .stable).above rfl s hs⟩

end Run

/-- Without known properties the stable slots only grow, in a single call for a node and in a whole ascending pass,
however these end. -/
structure Strategy.OnlyGrows (st : Strategy Ω S) (su : Setup) (K : Value → Prop) : Prop where
  call : ∀ (n : ℕ) (r : Run Ω S), r.Ready su K →
    (r.after (st.computeNode su n)).Ready su K ∧ r.GrowsTo (r.after (st.computeNode su n)) su.key
  pass : ∀ (fromEntry : Bool) (r : Run Ω S), r.Ready su K →
    (r.after (Analysis.ascend su (st.computeNode su) fromEntry)).Ready su K ∧
      r.GrowsTo (r.after (Analysis.ascend su (st.computeNode su) fromEntry)) su.key

theorem Strategy.OnlyGrows.of_grows {st : Strategy Ω S} (hst : ∀ before : Before, before.AllOf K →
    ∀ n, Grows su K before (st.computeNode su n) fun _ => True) : st.OnlyGrows su K := by
  refine ⟨fun n r hr => hr.grows fun before h₀ => hst before h₀ n, fun fromEntry r hr => hr.grows fun before h₀ => ?_⟩
  have hdrain := Upholds.drain (hst before h₀) su.resources.fuel
  exact Upholds.optional (Upholds.push 0) fun _ => hdrain

/-- Ascending steps only grow the stable slots, for every graph and every oracle: along paths for every transfer, and
along edges for every transfer that stays in the domain. -/
theorem ascending_steps_only_grow [PathOracle Ω] (hsu : su.transfer.KeepsCanonical) :
    (Focusing.strategy : Strategy Ω Focusing.Memory).OnlyGrows su (fun v => v.eqs.Canonical) ∧
      (∀ count, (Disjunctive.strategy count : Strategy Ω Disjunctive.Memory).OnlyGrows su fun v => v.eqs.Canonical) ∧
      (su.transfer.StaysIn su.options.domain →
        (Classic.strategy : Strategy Ω Unit).OnlyGrows su (Value.Ordered su.options.domain) ∧
          (Guided.strategy : Strategy Ω Guided.Memory).OnlyGrows su (Value.Ordered su.options.domain)) := by
  have hpaths := Setup.stays_canonical hsu
  refine ⟨.of_grows fun _ h₀ => Grows.focusingCompute hpaths h₀, fun _ => .of_grows fun _ h₀ =>
    Grows.disjunctiveCompute hpaths h₀, fun hstays => ?_⟩
  have hedges := Setup.stays_ordered hstays
  exact ⟨.of_grows fun _ h₀ => Grows.classicCompute hedges h₀ fun hv hw h => hv.leq_join_right hw h,
    .of_grows fun _ h₀ => Grows.guidedCompute hedges h₀ fun hv hw h => hv.leq_join_right hw h⟩

theorem Program.staysIn (p : Program) (domain : Domain) : p.transfer.StaysIn domain := fun path v hv =>
  ⟨(p.transfer_follows _).ofKind_along hv.kind path, p.keepsCanonical path v hv.canonical⟩

/-- A clock by which the budget is used up at the ninth reading. -/
def Resources.brief : Resources := ⟨fun n => if n < 8 then 0 else 3000, 1000⟩

/-- The counter, prepared for path focusing. -/
def atEntry : Run SearchOracle Focusing.Memory :=
  Run.after ⟨.new { technique := .focusing } (.build Program.counter.graph.control)
    (.new Program.counter.graph.control Program.counter.transfer), ⟨[]⟩⟩
    (Analysis.prepare (Program.counter.setup { technique := .focusing } .brief))

/-- The call for the head of the loop ends in a timeout, but not before it has widened the counter. A classic pass over
the same nodes grows them too. -/
theorem ascending_steps_only_grow_counter :
    let su := Program.counter.setup { technique := .focusing } .brief
    let compute := (Focusing.strategy : Strategy SearchOracle Focusing.Memory).computeNode su
    let atHead := atEntry.after (compute 0)
    (∃ s s', atHead.slots? su.key 1 = some s ∧ (atHead.after (compute 1)).slots? su.key 1 = some s' ∧
      ((compute 1).run.run atHead).1 = .error .timeout ∧
      (∀ i, s.stable.leqAt s'.stable i = true) ∧ s'.stable.leqAt s.stable 0 = false) ∧
    Run.GrowsTo ⟨atEntry.engine, ()⟩ (Run.after ⟨atEntry.engine, ()⟩ (Analysis.ascend su (Classic.computeNode su) true))
      su.key := by
  intro su compute atHead
  have hcanonical : su.transfer.KeepsCanonical := Program.counter.keepsCanonical
  obtain ⟨hfocusing, -, hedges⟩ := ascending_steps_only_grow (Ω := SearchOracle) hcanonical
  obtain ⟨hprepare, hend, hslots, hgap⟩ :
      ((Analysis.prepare su : Analysis SearchOracle Focusing.Memory Unit).run.run ⟨.new su.options
        (.build su.graph) (.new su.graph su.transfer), ⟨[]⟩⟩).1.toOption = some () ∧
      ((compute 1).run.run atHead).1 = .error .timeout ∧ (atHead.slots? su.key 1).isSome = true ∧
      ((atHead.slots? su.key 1).bind fun s => ((atHead.after (compute 1)).slots? su.key 1).map fun s' =>
        s'.stable.leqAt s.stable 0) = some false := by decide +kernel
  have hready : atEntry.Ready su (Value.Ordered su.options.domain) :=
    .of_prepared (Analysis.prepare_spec (yields_of_toOption hprepare)) rfl
  have hhead := (hfocusing.call 0 atEntry (hready.mono fun _ hv => hv.canonical)).1
  obtain ⟨s, hs⟩ := Option.isSome_iff_exists.mp hslots
  obtain ⟨s', hs', hgrows⟩ := (hfocusing.call 1 atHead hhead).2 1 s hs
  rw [hs, Option.bind_some, hs', Option.map_some] at hgap
  refine ⟨⟨s, s', hs, hs', hend, hgrows, Option.some.inj hgap⟩, ?_⟩
  exact ((hedges (Program.counter.staysIn _)).1.pass true ⟨atEntry.engine, ()⟩ ⟨hready.sort, hready.unknown⟩).2

/-- Nothing is known and all stable values are of the domain of the run, but the classic call for the node takes
something away from a stable value. -/
structure Setup.Loses (su : Setup) (r : Run Ω Unit) (n : ℕ) : Prop where
  unknown : ∀ m s, r.slots? su.key m = some s → s.known.first.isBottom = true
  domain : ∀ m s, r.slots? su.key m = some s → s.stable.first.domain = su.options.domain
  shrinks : ¬ r.GrowsTo (r.after (Classic.computeNode su n)) su.key

theorem Setup.loses_of_all {r : Run Ω Unit} {n m : ℕ} (hall : (r.engine.context.nodes.all fun x => (x.slots? su.key).all
      fun s => s.known.first.isBottom && s.stable.first.domain == su.options.domain) = true)
    (hleq : ((r.slots? su.key m).bind fun s => ((r.after (Classic.computeNode su n)).slots? su.key m).map fun s' =>
      s.stable.leqAt s'.stable 0) = some false) : su.Loses r n := by
  refine ⟨fun k s hs => (Bool.and_eq_true_iff.mp (Run.all_slots hall hs)).1, fun k s hs => ?_, fun hgrows => ?_⟩
  · exact beq_iff_eq.mp (Bool.and_eq_true_iff.mp (Run.all_slots hall hs)).2
  · obtain ⟨s, hs, hleq⟩ := Option.bind_eq_some_iff.mp hleq
    obtain ⟨s', hs', habove⟩ := hgrows m s hs
    rw [hs', Option.map_some, habove 0] at hleq
    exact Bool.noConfusion (Option.some.inj hleq)

/-- Two ways to one end: by the first `y` is `x + 1`, by the second it is `x`. -/
def diamond : Program where
  name := "diamond"
  declared := [("x", some .int), ("y", some .int)]
  graph :=
    { payloads := List.replicate 4 ⟨[], none⟩
      roles := []
      edges := [(0, 1, [.eq (.var "y" - .var "x" - .const 1)]), (0, 2, [.eq (.var "y" - .var "x")]), (1, 3, []), (2, 3, [])] }

/-- A client of the diamond that meets values with the equalities of the guards, in whatever domain. -/
def relating : Transfer where
  kindOf := diamond.kindOf
  liveVariables _ := ["x", "y"]
  block _ v := v
  edge a b v := (v.meet ((Value.top .intervalEqualities v.env).constrainAll (diamond.guards a b))).toOption.getD v
  thresholds := diamond.guards

theorem relating_keepsCanonical : relating.KeepsCanonical := by
  intro path v hv
  unfold Transfer.along
  induction path.steps generalizing v with
  | nil => exact hv
  | cons step steps ih =>
    refine ih _ ?_
    dsimp only [relating]
    cases hmeet : v.meet ((Value.top .intervalEqualities v.env).constrainAll (diamond.guards step.1 step.2)) with
    | ok u => exact Value.canonical_meet hv hmeet
    | error _ => exact hv

/-- The entry and the first way have been computed. -/
def halfway (su : Setup) (context : Context) : Run SearchOracle Unit :=
  Run.after ⟨.new su.options context (.new su.graph su.transfer), ()⟩ do
    Analysis.prepare su
    Classic.computeNode su 0
    Classic.computeNode su 1

/-- The diamond halfway over ranges that know the equalities of another run, and then know nothing any more. -/
def halfwayUnknown : Run SearchOracle Unit :=
  let su := diamond.setup Classic.rangesOver .ample
  let context := (analyze (diamond.setup { technique := .classic } .ample) "f" (.build diamond.graph.control)).2
  (halfway su context).after ((List.range 4).forM fun n => do Analysis.setValue su n .known (← Analysis.bottom su n))

/-- Ranges that have taken over rows, from what was known or from a client: the image along the second way comes first in
the join and keeps its row, which the value from the first way does not have. -/
theorem classic_call_loses : (diamond.setup Classic.rangesOver .ample).Loses halfwayUnknown 2 ∧
    let su : Setup := ⟨diamond.graph.control, relating, { technique := .classic, domain := .intervals }, .ample⟩
    relating.KeepsCanonical ∧ su.Loses (halfway su (.build su.graph)) 2 := by
  refine ⟨Setup.loses_of_all (m := 3) (by decide +kernel) (by decide +kernel), relating_keepsCanonical, ?_⟩
  exact Setup.loses_of_all (m := 3) (by decide +kernel) (by decide +kernel)

end PathInvariants
