import PathInvariants.Placement
import PathInvariants.Proofs.AnalysisRuns

/-!
# Paired runs

A computation that starts in two related states, followed on both sides. `Paired` says that both ends
are related and that both sides have the same result or the same failure; an invariant of one run is
the case of two equal states. A discipline is a relation between states that the primitive operations
of the engine respect, with what it asks of the nodes, values, unions, indices and paths that they take
and give. Every operation built from these primitives respects it too.
-/
namespace PathInvariants

variable {Ω S α β : Type}

/-- The two sides have the same result, one of `Q`, or the same failure, one of `F`, in related states. -/
structure Matches (I : Run Ω S → Run Ω S → Prop) (F : Failure → Prop) (Q : α → Prop)
    (x y : Except Failure α × Run Ω S) : Prop where
  same : x.1 = y.1
  related : I x.2 y.2
  ok : ∀ a, x.1 = .ok a → Q a
  failed : ∀ f, x.1 = .error f → F f

/-- From related states the two sides of a computation match. -/
def Paired (I : Run Ω S → Run Ω S → Prop) (F : Failure → Prop) (m : Analysis Ω S α) (Q : α → Prop) : Prop :=
  ∀ r r', I r r' → Matches I F Q (m.run.run r) (m.run.run r')

namespace Matches

variable {I : Run Ω S → Run Ω S → Prop} {F : Failure → Prop} {Q : α → Prop} {r r' : Run Ω S}

/-- Looking up one thing on both sides. -/
theorem ofViolation {x y : Except Violation α} (hr : I r r') (hxy : x = y) (hok : ∀ a, x = .ok a → Q a)
    (hviolation : ∀ v, x = .error v → F (.violation v)) :
    Matches I F Q ((Analysis.ofViolation x).run.run r) ((Analysis.ofViolation y).run.run r') := by
  subst hxy
  cases x with
  | error v => exact ⟨rfl, hr, nofun, fun _ h => Except.error.inj h ▸ hviolation v rfl⟩
  | ok a => exact ⟨rfl, hr, fun _ h => Except.ok.inj h ▸ hok a rfl, nofun⟩

theorem bind {m : Analysis Ω S α} {f : α → Analysis Ω S β} {R : β → Prop}
    (h : Matches I F Q (m.run.run r) (m.run.run r')) (hf : ∀ a, Q a → Paired I F (f a) R) :
    Matches I F R ((m >>= f).run.run r) ((m >>= f).run.run r') := by
  simp only [ExceptT.run_bind, StateT.run_bind]
  generalize m.run.run r = x at h ⊢
  generalize m.run.run r' = y at h ⊢
  obtain ⟨x, s⟩ := x
  obtain ⟨y, s'⟩ := y
  obtain ⟨rfl, hs, hok, hfailed⟩ := h
  cases x with
  | error e => exact ⟨rfl, hs, nofun, fun e' he => Except.error.inj he ▸ hfailed e rfl⟩
  | ok a => exact hf a (hok a rfl) s s' hs

end Matches

namespace Paired

variable {I : Run Ω S → Run Ω S → Prop} {F : Failure → Prop} {m : Analysis Ω S α} {f : α → Analysis Ω S β} {Q Q' : α → Prop}
  {R : β → Prop}

/-- Both sides end without a failure. -/
theorem of_yields (h : ∀ r r', I r r' → ∃ a s s', Yields m r a s ∧ Yields m r' a s' ∧ I s s' ∧ Q a) : Paired I F m Q := by
  intro r r' hr
  obtain ⟨a, s, s', hm, hm', hs, ha⟩ := h r r' hr
  rw [hm, hm']
  refine ⟨rfl, hs, fun b hb => ?_, nofun⟩
  obtain rfl := Except.ok.inj hb
  exact ha

theorem pure {a : α} (ha : Q a) : Paired I F (pure a) Q :=
  of_yields fun r r' hr => ⟨a, r, r', rfl, rfl, hr, ha⟩

theorem throw {e : Failure} (he : F e) : Paired I F (throw e : Analysis Ω S α) Q := fun _ _ hr =>
  ⟨rfl, hr, nofun, fun _ h => Except.error.inj h ▸ he⟩

theorem bind (hm : Paired I F m Q) (hf : ∀ a, Q a → Paired I F (f a) R) : Paired I F (m >>= f) R := fun r r' hr =>
  (hm r r' hr).bind hf

theorem mono (hm : Paired I F m Q) (hQ : ∀ a, Q a → Q' a) : Paired I F m Q' := fun r r' hr =>
  let h := hm r r' hr
  ⟨h.same, h.related, fun a ha => hQ a (h.ok a ha), h.failed⟩

theorem map (hm : Paired I F m Q) {g : α → β} (hg : ∀ a, Q a → R (g a)) : Paired I F (do return g (← m)) R :=
  hm.bind fun a ha => .pure (hg a ha)

theorem forM {l : List α} {f : α → Analysis Ω S Unit} (hf : ∀ a ∈ l, Paired I F (f a) fun _ => True) :
    Paired I F (l.forM f) fun _ => True := by
  induction l with
  | nil => exact pure trivial
  | cons a l ih => exact (hf a (by simp)).bind fun _ _ => ih fun b hb => hf b (by simp [hb])

theorem mapM {l : List α} (hf : ∀ a ∈ l, Paired I F (f a) fun _ => True) : Paired I F (l.mapM f) fun _ => True := by
  induction l with
  | nil =>
    rw [List.mapM_nil]
    exact pure trivial
  | cons a l ih =>
    rw [List.mapM_cons]
    exact (hf a (by simp)).bind fun _ _ => (ih fun b hb => hf b (by simp [hb])).bind fun _ _ => pure trivial

/-- A computation that goes on with the state it finds. -/
theorem engine_bind {f : Engine Ω → Analysis Ω S α}
    (h : ∀ r r', I r r' → Matches I F Q ((f r.engine).run.run r) ((f r'.engine).run.run r')) :
    Paired I F (Analysis.engine >>= f) Q := h

theorem modifyEngine {f : Engine Ω → Engine Ω}
    (h : ∀ r r', I r r' → I { r with engine := f r.engine } { r' with engine := f r'.engine }) :
    Paired I F (Analysis.modifyEngine f) fun _ => True := fun r r' hr =>
  ⟨rfl, h r r' hr, fun _ _ => trivial, nofun⟩

theorem ofViolation {x : Except Violation α} (hok : ∀ a, x = .ok a → Q a)
    (hviolation : ∀ v, x = .error v → F (.violation v)) : Paired I F (Analysis.ofViolation x) Q := fun _ _ hr =>
  .ofViolation hr rfl hok hviolation

theorem ofFault {x : Except Fault α} (hok : ∀ a, x = .ok a → Q a) (hfault : ∀ f, x = .error f → F (.fault f)) :
    Paired I F (Analysis.ofFault x) Q := by
  cases x with
  | error f => exact throw (hfault f rfl)
  | ok a => exact pure (hok a rfl)

theorem ite {c : Prop} [Decidable c] {m m' : Analysis Ω S α} (hm : c → Paired I F m Q) (hm' : ¬ c → Paired I F m' Q) :
    Paired I F (if c then m else m') Q := by
  split
  · rename_i hc
    exact hm hc
  · rename_i hc
    exact hm' hc

theorem liftExcept {x : Except Failure α} (hok : ∀ a, x = .ok a → Q a) (hfailed : ∀ f, x = .error f → F f) :
    Paired I F (Analysis.liftExcept x) Q := by
  cases x with
  | error f => exact throw (hfailed f rfl)
  | ok a => exact pure (hok a rfl)

end Paired

/-- One run, whose engine and memory keep a property. -/
def Guards (E : Engine Ω → Prop) (M : S → Prop) (r r' : Run Ω S) : Prop := r' = r ∧ E r.engine ∧ M r.memory

namespace Guards

variable {E : Engine Ω → Prop} {M : S → Prop} {F : Failure → Prop}

theorem engine : Paired (Guards E M) F Analysis.engine E :=
  .of_yields fun r _ hr => ⟨r.engine, r, r, rfl, by rw [hr.1]; rfl, ⟨rfl, hr.2⟩, hr.2.1⟩

theorem memory : Paired (Guards E M) F Analysis.memory M :=
  .of_yields fun r _ hr => ⟨r.memory, r, r, rfl, by rw [hr.1]; rfl, ⟨rfl, hr.2⟩, hr.2.2⟩

theorem modifyEngine {f : Engine Ω → Engine Ω} (h : ∀ e, E e → E (f e)) :
    Paired (Guards E M) F (Analysis.modifyEngine f) fun _ => True :=
  .modifyEngine fun r _ hr => ⟨by rw [hr.1], h _ hr.2.1, hr.2.2⟩

theorem modifyMemory {f : S → S} (h : ∀ m, M m → M (f m)) :
    Paired (Guards E M) F (Analysis.modifyMemory f) fun _ => True := by
  rintro r _ ⟨rfl, he, hm⟩
  exact ⟨rfl, ⟨rfl, he, h _ hm⟩, fun _ _ => trivial, nofun⟩

end Guards

theorem Analysis.ofFault_bind {x : Except Fault α} {f : α → Except Fault β} :
    (ofFault (x >>= f) : Analysis Ω S β) = ofFault x >>= fun a => ofFault (f a) := by
  cases x <;> rfl

/-- All four slots. -/
def Slots.All {α : Type} (P : α → Prop) (s : Slots α) : Prop := ∀ sl, P (s.get sl)

theorem Slots.All.set {α : Type} {P : α → Prop} {s : Slots α} (h : s.All P) (sl : Slot) {d : α} (hd : P d) :
    (s.set sl d).All P := by
  intro sl'
  rw [get_set]
  split
  · exact hd
  · exact h sl'

/-- What a discipline asks of nodes, of environments, values and unions at a node, of what stands at an index of a
union, of the indices that paths depart from, and of paths. -/
structure Shape (su : Setup) where
  node : ℕ → Prop
  env : ℕ → Environment → Prop
  value : ℕ → Value → Prop
  union : ℕ → Disjunction → Prop
  stores : ℕ → Value → Prop
  departs : ℕ → Prop
  path : Path → Prop
  node_entry : node 0
  value_withEnv {n : ℕ} {e : Environment} (he : env n e) (v : Value) : value n (v.withEnv e)
  value_joinOver {n : ℕ} {e : Environment} (he : env n e) (v : Value) (ws : List Value) : value n (v.joinOver e ws)
  value_top {n : ℕ} {e : Environment} (he : env n e) : value n (.top su.options.domain e)
  value_bottom {n : ℕ} {e : Environment} (he : env n e) : value n (.bottom su.options.domain e)
  value_mem {n : ℕ} {d : Disjunction} (hd : union n d) : ∀ v ∈ d.toList, value n v
  union_single {n : ℕ} {v : Value} (hv : value n v) : union n (.single v)
  union_set {n i : ℕ} {d : Disjunction} {v : Value} (hd : union n d) (hv : value n v) (hi : stores i v) :
    union n (d.set i v)
  stores_first (v : Value) : stores 0 v
  stores_pilot (h : su.options.technique = .lookahead) (v : Value) : stores 1 v
  stores_lt (h : su.options.technique = .disjunctive) {i : ℕ} (hi : i < (Placement.new su.options.maxDisjuncts).limit)
    (v : Value) : stores i v
  stores_bottom {n i : ℕ} {e : Environment} (he : env n e) (hi : departs i) : stores i (.bottom su.options.domain e)
  stores_get? {n i : ℕ} {d : Disjunction} {v : Value} (hd : union n d) (hi : departs i) (hv : d.get? i = some v) :
    stores i v

/-- Any value may stand at the index. -/
def Shape.place {su : Setup} (D : Shape su) (i : ℕ) : Prop := ∀ v, D.stores i v

/-- A relation between the states of two runs that the primitive operations respect. `remembers` says what the memory of
a strategy keeps for later: nodes, and places in unions. -/
structure Discipline [PathOracle Ω] (su : Setup) (remembers : (ℕ → Prop) → (ℕ → Prop) → S → Prop) extends Shape su where
  related : Run Ω S → Run Ω S → Prop
  fails : Failure → Prop
  fails_outOfFuel : fails .outOfFuel
  arena : Paired related fails Analysis.arena fun a => (∀ n ∈ a.cuts.wideningNodes, node n) ∧
    ∀ n, node n → (∀ s ∈ a.successors n, node s) ∧ ∀ s ∈ a.cuts.successors n, node s
  nodeCount : Paired related fails Analysis.nodeCount fun count => ∀ n < count, node n
  block {n : ℕ} (hn : node n) : Paired related fails (Analysis.block n) fun _ => True
  readEnv {n : ℕ} (hn : node n) : Paired related fails (Analysis.env n) (env n)
  slots {n : ℕ} (hn : node n) : Paired related fails (Analysis.slots su n) (Slots.All (union n))
  setSlots {n : ℕ} {s : Slots Disjunction} (hn : node n) (hs : s.All (union n)) :
    Paired related fails (Analysis.setSlots su n s) fun _ => True
  isComputed {n : ℕ} (hn : node n) : Paired related fails (Analysis.isComputed n) fun _ => True
  setComputed {n : ℕ} (hn : node n) (b : Bool) : Paired related fails (Analysis.setComputed n b) fun _ => True
  resetComputed : Paired related fails Analysis.resetComputed fun _ => True
  push {n : ℕ} (hn : node n) : Paired related fails (Analysis.push n) fun _ => True
  pop? : Paired related fails Analysis.pop? fun o => ∀ n, o = some n → node n
  clearWorklist : Paired related fails Analysis.clearWorklist fun _ => True
  checkDeadline : Paired related fails (Analysis.checkDeadline su) fun _ => True
  memory : Paired related fails Analysis.memory (remembers node fun i => ∀ v, stores i v)
  modifyMemory {f : S → S} (hf : ∀ m, remembers node (fun i => ∀ v, stores i v) m →
    remembers node (fun i => ∀ v, stores i v) (f m)) : Paired related fails (Analysis.modifyMemory f) fun _ => True
  modifyStats (f : Stats → Stats) : Paired related fails (Analysis.modifyStats f) fun _ => True
  addThresholds (cs : List LinearConstraint) :
    Paired related fails (Analysis.modifyEngine fun e => { e with thresholds := Transfer.addNew e.thresholds cs }) fun _ => True
  useThresholds : Paired related fails (Analysis.modifyEngine fun e => { e with usesThresholds := true }) fun _ => True
  transform (p : Path) (v : Value) : Paired related fails (Analysis.transform su p v) fun _ => True
  widen {n : ℕ} {v w : Value} (hv : value n v) (hw : value n w) : Paired related fails (Analysis.widen su v w) (value n)
  widenToThresholds {n : ℕ} {v w : Value} (hv : value n v) (hw : value n w) :
    Paired related fails (Analysis.widenToThresholds su v w) (value n)
  join {n : ℕ} {v w : Value} (hv : value n v) (hw : value n w) :
    Paired related fails (Analysis.ofFault (v.join w)) (value n)
  meet {n : ℕ} {v w : Value} (hv : value n v) (hw : value n w) :
    Paired related fails (Analysis.ofFault (v.meet w)) (value n)
  query {n : ℕ} (hn : node n) (descending : Bool) (filter : PathFilter) :
    Paired related fails (Analysis.query su n descending filter) fun o => ∀ p i, o = some (p, i) → path p ∧ departs i
  destinationOf {p : Path} (hp : path p) : Paired related fails (Analysis.destinationOf p) node

namespace Discipline

variable [PathOracle Ω] {su : Setup} {remembers : (ℕ → Prop) → (ℕ → Prop) → S → Prop}
  (D : Discipline (Ω := Ω) su remembers) {n succ : ℕ} {v w : Value}

/-- The computation respects the discipline, and its results satisfy `Q`. -/
def Holds (m : Analysis Ω S α) (Q : α → Prop) : Prop := Paired D.related D.fails m Q

/-- The computation respects the discipline. -/
def Obeys (m : Analysis Ω S α) : Prop := D.Holds m fun _ => True

variable {D} {m : Analysis Ω S α} {f : α → Analysis Ω S β} {Q Q' : α → Prop} {R : β → Prop}

theorem Holds.bind (hm : D.Holds m Q) (hf : ∀ a, Q a → D.Holds (f a) R) : D.Holds (m >>= f) R := Paired.bind hm hf

theorem Obeys.bind (hm : D.Obeys m) (hf : ∀ a, D.Holds (f a) R) : D.Holds (m >>= f) R := Paired.bind hm fun a _ => hf a

/-- Either of two computations, and then a common rest. -/
theorem Holds.either {c : Prop} [Decidable c] {m' : Analysis Ω S α} (hm : c → D.Holds m Q) (hm' : ¬ c → D.Holds m' Q)
    (hf : ∀ a, Q a → D.Holds (f a) R) : D.Holds (if c then m >>= f else m' >>= f) R :=
  Paired.ite (fun hc => Holds.bind (hm hc) hf) fun hc => Holds.bind (hm' hc) hf

/-- A computation under a condition, and then the rest. -/
theorem Obeys.optional {c : Prop} [Decidable c] {m : Analysis Ω S Unit} {f : Unit → Analysis Ω S β} (hm : D.Obeys m)
    (hf : ∀ u, D.Holds (f u) R) : D.Holds (if c then m >>= f else f ()) R :=
  Paired.ite (fun _ => Obeys.bind hm hf) fun _ => hf ()

variable (D)

section Slots

theorem top (hn : D.node n) : D.Holds (Analysis.top su n) (D.value n) := (D.readEnv hn).map fun _ he => D.value_top he

theorem bottom (hn : D.node n) : D.Holds (Analysis.bottom su n) (D.value n) := (D.readEnv hn).map fun _ he => D.value_bottom he

theorem isWidening : D.Obeys (Analysis.isWidening n) := Paired.map D.arena fun _ _ => trivial

theorem startsPaths : D.Obeys (Analysis.startsPaths n) := Paired.map D.arena fun _ _ => trivial

theorem slot (hn : D.node n) (sl : Slot) : D.Holds (Analysis.slot su n sl) (D.union n) :=
  (D.slots hn).map fun _ hs => hs sl

theorem value_first {d : Disjunction} (hd : D.union n d) : D.value n d.first :=
  D.value_mem hd d.first (by simp [Disjunction.toList])

theorem value_slot (hn : D.node n) (sl : Slot) : D.Holds (Analysis.value su n sl) (D.value n) :=
  (D.slot hn sl).map fun _ hd => D.value_first hd

theorem setSlot (hn : D.node n) (sl : Slot) {d : Disjunction} (hd : D.union n d) : D.Obeys (Analysis.setSlot su n sl d) :=
  Paired.bind (D.slots hn) fun _ hs => D.setSlots hn (hs.set sl hd)

theorem setDisjunct (hn : D.node n) (sl : Slot) {i : ℕ} (hv : D.value n v) (hi : D.stores i v) :
    D.Obeys (Analysis.setDisjunct su n sl i v) :=
  Paired.bind (D.slot hn sl) fun _ hd => D.setSlot hn sl (D.union_set hd hv hi)

theorem setValue (hn : D.node n) (sl : Slot) (hv : D.value n v) : D.Obeys (Analysis.setValue su n sl v) :=
  D.setDisjunct hn sl hv (D.stores_first v)

/-- A disjunct may be put back where it was taken from, if paths depart from there. -/
theorem disjunct (hn : D.node n) (sl : Slot) (i : ℕ) :
    D.Holds (Analysis.disjunct su n sl i) fun v => D.value n v ∧ (D.departs i → D.stores i v) := by
  refine Paired.bind (D.slot hn sl) fun d hd => ?_
  split
  · rename_i v hv
    exact Paired.pure ⟨D.value_mem hd v (List.mem_of_getElem? hv), fun hi => D.stores_get? hd hi hv⟩
  · exact (D.readEnv hn).map fun _ he => ⟨D.value_bottom he, D.stores_bottom he⟩

end Slots

section Iteration

variable {visit compute narrow : ℕ → Analysis Ω S Unit}

theorem transformEdge (hn : D.node n) (hs : D.node succ) (v : Value) :
    D.Holds (Analysis.transformEdge su n succ v) (D.value succ) := by
  have hblocks : D.Obeys ([n, succ].mapM Analysis.block) := Paired.mapM fun m hm => by
    rcases List.mem_pair.mp hm with rfl | rfl
    · exact D.block hn
    · exact D.block hs
  refine Obeys.bind (Obeys.bind hblocks fun _ => D.transform _ v) fun image => ?_
  exact (D.readEnv hs).map fun _ he => D.value_withEnv he image

theorem meetKnown (hn : D.node n) (hv : D.value n v) : D.Holds (Analysis.meetKnown su n v) (D.value n) :=
  Holds.bind (D.value_slot hn .known) fun _ hknown => Paired.ite (fun _ => Paired.pure hv) fun _ => D.meet hv hknown

theorem drain (hvisit : ∀ n, D.node n → D.Obeys (visit n)) (fuel : ℕ) : D.Obeys (Analysis.drain visit fuel) := by
  induction fuel with
  | zero => exact Paired.throw D.fails_outOfFuel
  | succ fuel ih =>
    refine Holds.bind D.pop? fun o ho => ?_
    split
    · exact Paired.pure trivial
    · rename_i n
      refine Obeys.bind (D.isComputed (ho n rfl)) fun computed => ?_
      cases computed with
      | true => exact ih
      | false => exact Obeys.bind (hvisit n (ho n rfl)) fun _ => ih

theorem ascend (hcompute : ∀ n, D.node n → D.Obeys (compute n)) (fromEntry : Bool) :
    D.Obeys (Analysis.ascend su compute fromEntry) := by
  cases fromEntry with
  | true => exact Obeys.bind (D.push D.node_entry) fun _ => D.drain hcompute _
  | false => exact D.drain hcompute _

/-- A loop over all nodes. -/
theorem forNodes {f : ℕ → Analysis Ω S Unit} (hf : ∀ n, D.node n → D.Obeys (f n)) {R : β → Prop} {m : Analysis Ω S β}
    (hm : D.Holds m R) : D.Holds (do (List.range (← Analysis.nodeCount)).forM f; m) R :=
  Holds.bind D.nodeCount fun _ hcount =>
    Obeys.bind (Paired.forM fun n hn => hf n (hcount n (List.mem_range.mp hn))) fun _ => hm

theorem resetDescending (hn : D.node n) : D.Obeys (Analysis.resetDescending su n) :=
  Paired.ite (fun _ => Holds.bind (D.slot hn .stable) fun _ hd => D.setSlot hn .descending hd)
    fun _ => Holds.bind (D.bottom hn) fun _ hv => D.setSlot hn .descending (D.union_single hv)

theorem descend (hnarrow : ∀ n, D.node n → D.Obeys (narrow n)) : D.Obeys (Analysis.descend su narrow) := by
  refine Obeys.bind D.resetComputed fun _ => Obeys.bind D.clearWorklist fun _ => ?_
  exact D.forNodes (fun _ hn => D.resetDescending hn) (Obeys.bind (D.push D.node_entry) fun _ => D.drain hnarrow _)

theorem settled {s : Slots Disjunction} (hs : s.All (D.union n)) :
    D.Holds (Analysis.ofFault (Analysis.settled su.options.technique s)) fun x => x.1.All (D.union n) := by
  have hlast : ∀ v, D.value n v → D.Holds (Analysis.ofFault (if s.stable.first.leq v then pure (s, false)
      else pure ({ s with stable := (if su.options.technique = .lookahead then s.stable.set 1 v else s.stable).set 0 v }, true)))
      fun x => x.1.All (D.union n) := by
    intro v hv
    split
    · exact Paired.pure hs
    · refine Paired.pure (hs.set .stable (D.union_set ?_ hv (D.stores_first v)))
      split
      · rename_i h
        exact D.union_set (hs .stable) hv (D.stores_pilot h v)
      · exact hs .stable
  have hfirst : ∀ sl, D.value n (s.get sl).first := fun sl => D.value_first (hs sl)
  have hmeet : D.Holds (Analysis.ofFault (s.descending.first.meet s.stable.first)) (D.value n) :=
    D.meet (hfirst .descending) (hfirst .stable)
  unfold Analysis.settled
  split
  · refine Paired.pure ?_
    split
    · exact hs
    · exact hs.set .stable (hs .descending)
  · dsimp only
    split
    · exact hlast _ (hfirst .descending)
    · rw [Analysis.ofFault_bind]
      exact Holds.bind hmeet hlast

theorem settle : D.Obeys (Analysis.settle su) := by
  refine Holds.bind D.nodeCount fun _ hcount => Obeys.bind (Paired.mapM fun n hn => ?_) fun _ => Paired.pure trivial
  have hnode := hcount n (List.mem_range.mp hn)
  refine Holds.bind (D.slots hnode) fun s hs => Holds.bind (D.settled hs) fun x hx => ?_
  exact Obeys.bind (D.setSlots hnode hx) fun _ => Paired.pure trivial

theorem descendAgain (hnarrow : ∀ n, D.node n → D.Obeys (narrow n)) (count : ℕ) :
    D.Obeys (Analysis.descendAgain su narrow count) := by
  induction count with
  | zero => exact Obeys.bind D.settle fun _ => Paired.pure trivial
  | succ count ih =>
    refine Obeys.bind D.settle fun changed => Paired.ite (fun _ => ?_) fun _ => Paired.pure trivial
    exact Obeys.bind (D.descend hnarrow) fun _ => Obeys.bind D.checkDeadline fun _ => ih

theorem descendRounds (hnarrow : ∀ n, D.node n → D.Obeys (narrow n)) (rounds : ℕ) :
    D.Obeys (Analysis.descendRounds su narrow rounds) :=
  Obeys.bind (D.descend hnarrow) fun _ => D.descendAgain hnarrow _

theorem keepStable : D.Obeys (Analysis.keepStable su) := by
  refine Holds.bind D.nodeCount fun _ hcount => Paired.forM fun n hn => ?_
  have hnode := hcount n (List.mem_range.mp hn)
  exact Holds.bind (D.slots hnode) fun s hs => D.setSlots hnode (hs.set .known (hs .stable))

theorem restoreKnown : D.Obeys (Analysis.restoreKnown su) := by
  refine Holds.bind D.nodeCount fun _ hcount => Paired.forM fun n hn => ?_
  have hnode := hcount n (List.mem_range.mp hn)
  exact Holds.bind (D.slots hnode) fun s hs => D.setSlots hnode (hs.set .stable (hs .known))

theorem seedsAt (hn : D.node n) : D.Obeys (Analysis.seedsAt su n) := by
  refine Holds.bind (D.value_slot hn .initial) fun initial _ => Paired.ite (fun _ => Paired.pure trivial) fun _ => ?_
  exact Holds.bind (D.value_slot hn .stable) fun stable _ => Paired.pure trivial

theorem plantSeeds (hn : D.node n) : D.Obeys (Analysis.plantSeeds su n) := by
  refine Obeys.bind (D.seedsAt hn) fun seeds => Paired.ite (fun _ => Paired.pure trivial) fun _ => ?_
  refine Holds.bind (D.value_slot hn .initial) fun initial hinitial => ?_
  refine Obeys.bind (D.setValue hn .descending hinitial) fun _ => ?_
  exact Obeys.bind (D.addThresholds seeds) fun _ => Paired.pure trivial

theorem findSeeds : D.Obeys (Analysis.findSeeds su) := by
  refine Holds.bind D.nodeCount fun count hcount => ?_
  refine Obeys.bind (Paired.forM fun n hn => ?_) fun _ => Holds.bind D.arena fun a ha => ?_
  · have hnode := hcount n (List.mem_range.mp (List.mem_filter.mp hn).1)
    exact Holds.bind (D.bottom hnode) fun _ hv => D.setSlot hnode .descending (D.union_single hv)
  · refine Obeys.bind (Paired.mapM fun n hn => D.plantSeeds (ha.1 n hn)) fun found => ?_
    exact Obeys.optional D.useThresholds fun _ => Paired.pure trivial

end Iteration

section Steps

variable {compute narrow : ℕ → Analysis Ω S Unit}

theorem nextValue (hs : D.node succ) (hv : D.value succ v) (hw : D.value succ w) :
    D.Holds (Analysis.nextValue su succ v w) (D.value succ) := by
  refine Obeys.bind D.isWidening fun widening => ?_
  exact Holds.either (fun _ => D.widen hv hw) (fun _ => D.join hw hv) fun _ => D.meetKnown hs

theorem store (hs : D.node succ) (hw : D.value succ w) (v : Value) : D.Obeys (Analysis.store su succ v w) := by
  refine Obeys.optional (D.setValue hs .initial hw) fun _ => Obeys.bind (D.setValue hs .stable hw) fun _ => ?_
  exact Obeys.bind (D.push hs) fun _ => D.setComputed hs false

theorem ascendEdge (hn : D.node n) (hs : D.node succ) (start : Value) : D.Obeys (Analysis.ascendEdge su n start succ) := by
  refine Obeys.bind (D.modifyStats _) fun _ => Holds.bind (D.transformEdge hn hs start) fun image himage => ?_
  refine Holds.bind (D.value_slot hs .stable) fun previous hprevious => ?_
  refine Holds.bind (D.nextValue hs hprevious himage) fun next hnext => ?_
  refine Paired.ite (fun _ => Paired.pure trivial) fun _ => ?_
  exact Obeys.bind (D.store hs hnext previous) fun _ => Paired.pure trivial

theorem joinDescending (hn : D.node n) (hv : D.value n v) : D.Obeys (Analysis.joinDescending su n v) := by
  refine Holds.bind (D.value_slot hn .descending) fun descending hdescending => ?_
  exact Holds.either (fun _ => Paired.pure hv) (fun _ => D.join hdescending hv) fun _ => D.setValue hn .descending

theorem descendEdge (hn : D.node n) (hs : D.node succ) (start : Value) : D.Obeys (Analysis.descendEdge su n start succ) := by
  refine Obeys.bind (D.modifyStats _) fun _ => Holds.bind (D.transformEdge hn hs start) fun image himage => ?_
  exact Obeys.bind (D.joinDescending hs himage) fun _ => D.push hs

theorem restartFromSeeds (hcompute : ∀ n, D.node n → D.Obeys (compute n)) (hnarrow : ∀ n, D.node n → D.Obeys (narrow n))
    (rounds : ℕ) : D.Obeys (Analysis.restartFromSeeds su compute narrow rounds) := by
  refine Obeys.bind D.keepStable fun _ => Obeys.bind D.findSeeds fun found => Paired.ite (fun _ => ?_) fun _ => D.restoreKnown
  refine Obeys.bind D.settle fun _ => Obeys.bind D.resetComputed fun _ => Obeys.bind D.clearWorklist fun _ => ?_
  refine D.forNodes (fun n hn => ?_) (Obeys.bind (D.ascend hcompute false) fun _ => D.descendRounds hnarrow rounds)
  exact Holds.bind (D.slot hn .stable) fun _ _ => Paired.ite (fun _ => Paired.pure trivial) fun _ => D.push hn

theorem loopStep (hn : D.node n) {source target : ℕ} (hsource : D.place source ∨ D.departs source)
    (htarget : D.place target) (p : Path) {step : Analysis.LoopStep} (hstep : D.value n step.image) :
    D.Holds (Analysis.loopStep su n source target p step) fun step => D.value n step.image := by
  refine Paired.ite (fun _ => ?_) fun _ => Paired.pure hstep
  refine Holds.bind (D.readEnv hn) fun env henv => Holds.bind (D.disjunct hn .stable source) fun backup hbackup => ?_
  refine Holds.bind (D.disjunct hn .stable target) fun previous hprevious => ?_
  refine Holds.bind (D.widenToThresholds hprevious.1 (D.value_joinOver henv _ _)) fun widened hwidened => ?_
  refine Obeys.bind (D.setDisjunct hn .stable hwidened (htarget widened)) fun _ => ?_
  refine Obeys.bind (D.transform p widened) fun image => ?_
  have hstores : D.stores source backup := hsource.elim (fun h => h backup) hbackup.2
  refine Obeys.bind (D.setDisjunct hn .stable hbackup.1 hstores) fun _ => ?_
  exact Paired.pure (D.value_withEnv henv image)

end Steps

end Discipline

end PathInvariants
