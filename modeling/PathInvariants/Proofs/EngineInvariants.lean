import PathInvariants.Proofs.Disciplines

/-!
# Invariants of engines

A property of engines, with the failures that it allows and what every primitive operation needs to
keep it. From these conditions it is a discipline, so it holds at the end of every run of every
technique that starts in it, and every failure of such a run is one of the allowed ones.
-/
namespace PathInvariants

variable {Ω S α ε : Type}

/-- A result is one of `Q`, and an error one of `F`. -/
def Meets (F : ε → Prop) (Q : α → Prop) (x : Except ε α) : Prop := (∀ a, x = .ok a → Q a) ∧ ∀ f, x = .error f → F f

theorem meets_ok {F : ε → Prop} {Q : α → Prop} {a : α} (h : Q a) : Meets F Q (.ok a) :=
  ⟨fun _ hb => Except.ok.inj hb ▸ h, nofun⟩

/-- A property of engines that the primitive operations keep, and the failures that it allows. -/
structure EngineInvariant (Ω : Type) [PathOracle Ω] (su : Setup) extends Shape su where
  holds : Engine Ω → Prop
  fails : Failure → Prop
  fails_timeout : fails .timeout
  fails_outOfFuel : fails .outOfFuel
  arena {e : Engine Ω} (h : holds e) : (∀ n ∈ e.context.arena.cuts.wideningNodes, node n) ∧
    ∀ n, node n → (∀ s ∈ e.context.arena.successors n, node s) ∧ ∀ s ∈ e.context.arena.cuts.successors n, node s
  nodeCount {e : Engine Ω} (h : holds e) : ∀ n < e.context.size, node n
  lookup {e : Engine Ω} (h : holds e) {n : ℕ} (hn : node n) :
    Meets (fun v => fails (.violation v)) (fun x => env n x.env) (e.context.node n)
  slots {e : Engine Ω} (h : holds e) {n : ℕ} (hn : node n) :
    Meets (fun v => fails (.violation v)) (Slots.All (union n)) (e.context.slots n su.key)
  setSlots {e : Engine Ω} (h : holds e) {n : ℕ} (hn : node n) {s : Slots Disjunction} (hs : s.All (union n)) :
    Meets (fun v => fails (.violation v))
      (fun context => ∀ e, holds e → holds { e with context, written := (n, s) :: e.written })
      (e.context.setSlots n su.key s)
  computed {e : Engine Ω} (h : holds e) {n : ℕ} (hn : node n) :
    n < e.computed.length ∨ fails (.fault (.indexOutOfRange e.computed.length n))
  setComputed {e e' : Engine Ω} (h : holds e) (h' : holds e') {computed : List Bool}
    (hlength : computed.length = e'.computed.length) : holds { e with computed }
  push {e : Engine Ω} (h : holds e) {n : ℕ} (hn : node n) (label : ℕ) :
    holds { e with worklist := e.worklist.push n label }
  pop {e : Engine Ω} (h : holds e) {n : ℕ} {worklist : Worklist} (hpop : e.worklist.pop? = some (n, worklist)) :
    node n ∧ ∀ e, holds e → holds { e with worklist }
  clear {e : Engine Ω} (h : holds e) : holds { e with worklist := .empty }
  quiet {e : Engine Ω} (h : holds e) (thresholds : List LinearConstraint) (usesThresholds : Bool) (readings : ℕ)
    (stats : Stats) (unknown : Bool) : holds { e with thresholds, usesThresholds, readings, stats, unknown }
  join {n : ℕ} {v w : Value} (hv : value n v) (hw : value n w) : Meets (fun f => fails (.fault f)) (value n) (v.join w)
  meet {n : ℕ} {v w : Value} (hv : value n v) (hw : value n w) : Meets (fun f => fails (.fault f)) (value n) (v.meet w)
  widenTo {n : ℕ} {v w : Value} (hv : value n v) (hw : value n w) (thresholds : List LinearConstraint) :
    Meets (fun f => fails (.fault f)) (value n) (v.widenTo thresholds w)
  ask {e e' : Engine Ω} (h : holds e) (h' : holds e') {n : ℕ} {start : Block} (hn : node n)
    (hstart : e'.context.block n = .ok start) (descending : Bool) (filter : PathFilter) :
    let asked := PathOracle.query ⟨start, descending, filter⟩ (e.context.view su.key) (PathOracle.push e.oracle)
    (∀ e, holds e → holds { e with oracle := (PathOracle.pop asked.2).2 }) ∧
      Meets fails (fun _ => True) (PathOracle.pop asked.2).1 ∧
      Meets fails (fun answer => (answer = .unknown → fails .oracleUnknown) ∧
        ∀ p i, answer = .sat p i → (path p ∧ departs i) ∧
          ∀ e, holds e → Meets (fun v => fails (.violation v)) (fun _ => True)
            (Analysis.checkPath su.graph e.context.arena start p)) asked.1
  destination_none {p : Path} (hp : path p) (h : p.destination? = none) : fails (.violation .emptyPath)
  index {e : Engine Ω} (h : holds e) {p : Path} (hp : path p) {b : Block} (hb : p.destination? = some b) :
    (∀ n, e.context.arena.index? b = some n → node n) ∧
      (e.context.arena.index? b = none → fails (.violation (.notInArena b)))

namespace Analysis

/-- A query with the three changes of the oracle in one. -/
def queryAtOnce [PathOracle Ω] (su : Setup) (n : ℕ) (descending : Bool) (filter : PathFilter) :
    Analysis Ω S (Option (Path × ℕ)) := do
  let start ← block n
  let e ← engine
  let asked := PathOracle.query ⟨start, descending, filter⟩ (e.context.view su.key) (PathOracle.push e.oracle)
  modifyEngine fun e => { e with oracle := (PathOracle.pop asked.2).2 }
  liftExcept (PathOracle.pop asked.2).1
  let answer ← liftExcept asked.1
  modifyStats fun s => { s with queries := s.queries + 1 }
  checkDeadline su
  match answer with
  | .unsat => return none
  | .unknown =>
    markUnknown
    throw .oracleUnknown
  | .sat p i =>
    ofViolation (checkPath su.graph (← arena) start p)
    return some (p, i)

theorem query_eq_queryAtOnce [PathOracle Ω] (su : Setup) (n : ℕ) (descending : Bool) (filter : PathFilter) :
    (query su n descending filter : Analysis Ω S _) = queryAtOnce su n descending filter := rfl

end Analysis

namespace EngineInvariant

variable [PathOracle Ω] {su : Setup} (K : EngineInvariant Ω su) {M : S → Prop} {n : ℕ} {v w : Value}

/-- The computation keeps the invariant, fails in an allowed way and has results of `Q`. -/
def Keeps (K : EngineInvariant Ω su) (M : S → Prop) (m : Analysis Ω S α) (Q : α → Prop) : Prop :=
  Paired (Guards K.holds M) K.fails m Q

theorem engine : K.Keeps M Analysis.engine K.holds := Guards.engine

theorem modifyEngine {f : Engine Ω → Engine Ω} (h : ∀ e, K.holds e → K.holds (f e)) :
    K.Keeps M (Analysis.modifyEngine f) fun _ => True := Guards.modifyEngine h

theorem readArena : K.Keeps M Analysis.arena fun a => ∃ e, K.holds e ∧ a = e.context.arena :=
  Paired.map K.engine fun e he => ⟨e, he, rfl⟩

theorem readBlock (hn : K.node n) : K.Keeps M (Analysis.block n) fun b => ∃ e, K.holds e ∧ e.context.block n = .ok b := by
  refine Paired.bind K.engine fun e he => Paired.ofViolation (fun b hb => ⟨e, he, hb⟩) fun f hf => ?_
  refine (K.lookup he hn).2 f ?_
  cases hnode : e.context.node n with
  | ok node => simp [Context.block, hnode, bind, Except.bind, pure, Except.pure] at hf
  | error f' => simpa [Context.block, hnode, bind, Except.bind] using hf

theorem checkDeadline : K.Keeps M (Analysis.checkDeadline su) fun _ => True := by
  refine Paired.bind K.engine fun e _ => ?_
  refine Paired.bind (K.modifyEngine fun e he => K.quiet he _ _ _ _ _) fun _ _ => Paired.ite (fun _ => ?_) fun _ => ?_
  · exact Paired.bind (K.modifyEngine fun e he => K.quiet he _ _ _ _ _) fun _ _ => Paired.throw K.fails_timeout
  · exact Paired.pure trivial

theorem modifyStats (f : Stats → Stats) : K.Keeps M (Analysis.modifyStats f) fun _ => True :=
  K.modifyEngine fun _ he => K.quiet he _ _ _ _ _

theorem widening (hv : K.value n v) (hw : K.value n w) (thresholds : List LinearConstraint) :
    K.Keeps M (do
      let widened ← Analysis.ofFault (v.widenTo thresholds w)
      Analysis.modifyStats fun s => { s with widenings := s.widenings + 1 }
      Analysis.checkDeadline su
      return widened) (K.value n) := by
  have hwiden := K.widenTo hv hw thresholds
  refine Paired.bind (Paired.ofFault hwiden.1 hwiden.2) fun x hx => ?_
  exact Paired.bind (K.modifyStats _) fun _ _ => Paired.bind K.checkDeadline fun _ _ => Paired.pure hx

theorem query (hn : K.node n) (descending : Bool) (filter : PathFilter) :
    K.Keeps M (Analysis.query su n descending filter) fun o => ∀ p i, o = some (p, i) → K.path p ∧ K.departs i := by
  rw [Analysis.query_eq_queryAtOnce]
  refine Paired.bind (K.readBlock hn) fun start hstart => Paired.bind K.engine fun e he => ?_
  obtain ⟨e', he', hstart⟩ := hstart
  obtain ⟨horacle, hpop, hanswer⟩ := K.ask he he' hn hstart descending filter
  refine Paired.bind (K.modifyEngine horacle) fun _ _ => Paired.bind (Paired.liftExcept hpop.1 hpop.2) fun _ _ => ?_
  refine Paired.bind (Paired.liftExcept hanswer.1 hanswer.2) fun answer ha => ?_
  refine Paired.bind (K.modifyStats _) fun _ _ => Paired.bind K.checkDeadline fun _ _ => ?_
  split
  · exact Paired.pure nofun
  · exact Paired.bind (K.modifyEngine fun e he => K.quiet he _ _ _ _ _) fun _ _ => Paired.throw (ha.1 rfl)
  · rename_i p i
    obtain ⟨hpath, hcheck⟩ := ha.2 p i rfl
    refine Paired.bind K.readArena fun a harena => ?_
    obtain ⟨e₂, he₂, rfl⟩ := harena
    refine Paired.bind (Paired.ofViolation (hcheck e₂ he₂).1 (hcheck e₂ he₂).2) fun _ _ => Paired.pure fun q j h => ?_
    obtain ⟨rfl, rfl⟩ := Prod.mk.inj (Option.some.inj h)
    exact hpath

theorem destinationOf {p : Path} (hp : K.path p) : K.Keeps M (Analysis.destinationOf p) K.node := by
  unfold Analysis.destinationOf Analysis.indexOf
  split
  · rename_i b hb
    refine Paired.bind K.readArena fun a harena => ?_
    obtain ⟨e, he, rfl⟩ := harena
    obtain ⟨hsome, hnone⟩ := K.index he hp hb
    split
    · exact Paired.pure (hsome _ (by assumption))
    · exact Paired.throw (hnone (by assumption))
  · exact Paired.throw (K.destination_none hp (by assumption))

/-- The invariant as a discipline. -/
def discipline (remembers : (ℕ → Prop) → (ℕ → Prop) → S → Prop) : Discipline (Ω := Ω) su remembers where
  toShape := K.toShape
  related := Guards K.holds (remembers K.node K.place)
  fails := K.fails
  fails_outOfFuel := K.fails_outOfFuel
  arena := Paired.map K.engine fun _ he => K.arena he
  nodeCount := Paired.map K.engine fun _ he => K.nodeCount he
  block := fun hn => (K.readBlock hn).mono fun _ _ => trivial
  readEnv := fun hn => Paired.bind K.engine fun _ he =>
    Paired.bind (Paired.ofViolation (K.lookup he hn).1 (K.lookup he hn).2) fun _ hx => Paired.pure hx
  slots := fun hn => Paired.bind K.engine fun _ he => Paired.ofViolation (K.slots he hn).1 (K.slots he hn).2
  setSlots := fun hn hs => Paired.bind K.engine fun _ he =>
    Paired.bind (Paired.ofViolation (K.setSlots he hn hs).1 (K.setSlots he hn hs).2) fun _ hc => K.modifyEngine hc
  isComputed := fun hn => Paired.bind K.engine fun e he => by
    dsimp only
    split
    · exact Paired.pure trivial
    · rename_i hnone
      refine Paired.throw ((K.computed he hn).resolve_left fun hlt => ?_)
      exact absurd (List.getElem?_eq_none_iff.mp hnone) (by omega)
  setComputed := fun hn _ => Paired.bind K.engine fun _ he => Paired.ite
    (fun _ => K.modifyEngine fun _ he' => K.setComputed he' he List.length_set)
    fun hlt => Paired.throw ((K.computed he hn).resolve_left hlt)
  resetComputed := K.modifyEngine fun _ he => K.setComputed he he (List.length_map _)
  push := fun hn => K.modifyEngine fun _ he => K.push he hn _
  pop? := Paired.bind K.engine fun e he => by
    split
    · exact Paired.pure nofun
    · rename_i hpop
      obtain ⟨hnode, hkeep⟩ := K.pop he hpop
      exact Paired.bind (K.modifyEngine hkeep) fun _ _ => Paired.pure fun _ h => Option.some.inj h ▸ hnode
  clearWorklist := K.modifyEngine fun _ he => K.clear he
  checkDeadline := K.checkDeadline
  memory := Guards.memory
  modifyMemory := fun hf => Guards.modifyMemory hf
  modifyStats := K.modifyStats
  addThresholds := fun _ => K.modifyEngine fun _ he => K.quiet he _ _ _ _ _
  useThresholds := K.modifyEngine fun _ he => K.quiet he _ _ _ _ _
  transform := fun _ _ => Paired.bind (K.modifyEngine fun _ he => K.quiet he _ _ _ _ _) fun _ _ =>
    Paired.bind K.checkDeadline fun _ _ => Paired.pure trivial
  widen := fun hv hw => Paired.bind K.engine fun _ _ => K.widening hv hw _
  widenToThresholds := fun hv hw => Paired.bind K.engine fun _ _ => K.widening hv hw _
  join := fun hv hw => Paired.ofFault (K.join hv hw).1 (K.join hv hw).2
  meet := fun hv hw => Paired.ofFault (K.meet hv hw).1 (K.meet hv hw).2
  query := K.query
  destinationOf := K.destinationOf

end EngineInvariant

end PathInvariants
