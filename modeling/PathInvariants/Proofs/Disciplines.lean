import PathInvariants.Proofs.PairedRuns
import PathInvariants.Report

/-!
# Disciplined strategies

All five strategies are built from the primitive operations, so every discipline that these respect
holds of whole runs.
-/
namespace PathInvariants

variable {Ω S : Type} [PathOracle Ω] {su : Setup}

/-- The strategy respects every discipline, and so does the memory that it starts with. -/
structure Strategy.Disciplined (st : Strategy Ω S) (su : Setup) (remembers : (ℕ → Prop) → (ℕ → Prop) → S → Prop) :
    Prop where
  initial : ∀ D : Shape su, remembers D.node D.place st.initial
  obeys : ∀ D : Discipline (Ω := Ω) su remembers, D.Obeys (st.computeFunction su)

namespace Worklist

variable {w w' : Worklist} {n : ℕ}

theorem of_pop? (h : w.pop? = some (n, w')) : n ∈ w.nodes ∧ ∀ m ∈ w'.nodes, m ∈ w.nodes := by
  obtain ⟨queue⟩ := w
  cases queue with
  | nil => cases h
  | cons a queue =>
    cases h
    exact ⟨by simp [nodes], fun m hm => List.mem_cons_of_mem _ hm⟩

end Worklist

/-- What the guided strategy keeps for later: nodes that have changed. -/
def Guided.Memory.Keeps (node _place : ℕ → Prop) (m : Guided.Memory) : Prop := ∀ n ∈ m.changed.nodes, node n

/-- What the disjunctive strategy keeps for later: nodes that have changed, and where contributions go. -/
structure Disjunctive.Memory.Keeps (node place : ℕ → Prop) (m : Disjunctive.Memory) : Prop where
  changed : ∀ n ∈ m.changed.nodes, node n
  limit_pos : 0 < m.placement.limit
  free : ∀ i < m.placement.limit, place i
  assigned : ∀ e ∈ m.placement.assigned, place e.2

/-- A contribution goes where one has gone before or below the limit. -/
theorem Placement.assign_place {place : ℕ → Prop} {q : Placement} (hpos : 0 < q.limit) (hfree : ∀ i < q.limit, place i)
    (hassigned : ∀ e ∈ q.assigned, place e.2) (p : Path) (start : ℕ) (v : Value) (target : Disjunction) :
    place (q.assign p start v target).1 ∧ (q.assign p start v target).2.limit = q.limit ∧
      ∀ e ∈ (q.assign p start v target).2.assigned, place e.2 := by
  have hrecord : ∀ i, place i → ∀ e ∈ ((p, start), i) :: q.assigned, place e.2 := by
    intro i hi e he
    rcases List.mem_cons.mp he with rfl | he
    · exact hi
    · exact hassigned e he
  unfold assign
  split
  · rename_i i hi
    obtain ⟨_, _, h, -⟩ := List.lookup_eq_some_iff.mp hi
    have hmem : ((p, start), i) ∈ q.assigned := by simp [h]
    exact ⟨hassigned _ hmem, rfl, hassigned⟩
  · dsimp only
    split
    · rename_i i hi
      have hlt : i < q.limit := by
        have hmem := List.mem_of_find?_eq_some hi
        rw [List.take_range, List.mem_range] at hmem
        omega
      exact ⟨hfree i hlt, rfl, hrecord i (hfree i hlt)⟩
    · split
      · rename_i hlt
        exact ⟨hfree _ hlt, rfl, hrecord _ (hfree _ hlt)⟩
      · have hlast := hfree (q.limit - 1) (by omega)
        exact ⟨hlast, rfl, hrecord _ hlast⟩

namespace Discipline

open Analysis

section Classic

variable {remembers : (ℕ → Prop) → (ℕ → Prop) → Unit → Prop} (D : Discipline (Ω := Ω) su remembers)

theorem classicCompute {n : ℕ} (hn : D.node n) : D.Obeys (Classic.computeNode su n) := by
  refine Obeys.bind (D.setComputed hn true) fun _ => Holds.bind (D.value_slot hn .stable) fun start _ => ?_
  refine Paired.ite (fun _ => Paired.pure trivial) fun _ => Holds.bind D.arena fun a ha => Paired.forM fun succ hs => ?_
  exact Obeys.bind (D.ascendEdge hn ((ha.2 n hn).1 succ hs) start) fun _ => Paired.pure trivial

theorem classicNarrow {n : ℕ} (hn : D.node n) : D.Obeys (Classic.narrowNode su n) := by
  refine Obeys.bind (D.setComputed hn true) fun _ => Holds.bind (D.value_slot hn .stable) fun start _ => ?_
  exact Holds.bind D.arena fun a ha => Paired.forM fun succ hs => D.descendEdge hn ((ha.2 n hn).1 succ hs) start

theorem classic : D.Obeys (Classic.computeFunction su) := by
  have hcompute : ∀ n, D.node n → D.Obeys (Classic.computeNode su n) := fun _ => D.classicCompute
  have hnarrow : ∀ n, D.node n → D.Obeys (Classic.narrowNode su n) := fun _ => D.classicNarrow
  refine Obeys.bind (D.ascend hcompute true) fun _ => Obeys.bind (D.descendRounds hnarrow _) fun _ => ?_
  exact Paired.ite (fun _ => D.restartFromSeeds hcompute hnarrow _) fun _ => Paired.pure trivial

end Classic

section Lookahead

variable {remembers : (ℕ → Prop) → (ℕ → Prop) → Unit → Prop} (D : Discipline (Ω := Ω) su remembers)
  (htechnique : su.options.technique = .lookahead)

theorem pairAt {n : ℕ} (hn : D.node n) : D.Holds (Lookahead.pairAt su n) fun x => D.value n x.main ∧ D.value n x.pilot :=
  Holds.bind (D.disjunct hn .stable _) fun _ hmain => Holds.bind (D.disjunct hn .stable _) fun _ hpilot =>
    Paired.pure ⟨hmain.1, hpilot.1⟩

theorem nextPair {succ : ℕ} {old new : Lookahead.Pair} (hold : D.value succ old.main ∧ D.value succ old.pilot)
    (hnew : D.value succ new.main ∧ D.value succ new.pilot) :
    D.Holds (Lookahead.nextPair su succ old new) fun x => D.value succ x.main ∧ D.value succ x.pilot := by
  refine Obeys.bind D.isWidening fun widening => Paired.ite (fun _ => ?_) fun _ => ?_
  · refine Paired.ite (fun _ => Paired.pure ⟨hold.2, hold.2⟩) fun _ => ?_
    exact Holds.bind (D.join hold.1 hnew.1) fun _ hmain => Holds.bind (D.widen hold.2 hnew.2) fun _ hpilot =>
      Paired.pure ⟨hmain, hpilot⟩
  · exact Holds.bind (D.join hold.1 hnew.1) fun _ hmain => Holds.bind (D.join hold.2 hnew.2) fun _ hpilot =>
      Paired.pure ⟨hmain, hpilot⟩

include htechnique

theorem storePair {succ : ℕ} (hs : D.node succ) (old : Lookahead.Pair) {next : Lookahead.Pair}
    (hnext : D.value succ next.main ∧ D.value succ next.pilot) : D.Obeys (Lookahead.storePair su succ old next) := by
  unfold Lookahead.storePair
  refine Obeys.optional (D.setValue hs .initial hnext.1) fun _ => ?_
  refine Obeys.bind (D.setDisjunct hs .stable hnext.1 (D.stores_first _)) fun _ => ?_
  refine Obeys.bind (D.setDisjunct hs .stable hnext.2 (D.stores_pilot htechnique _)) fun _ => ?_
  exact Obeys.bind (D.push hs) fun _ => D.setComputed hs false

theorem ascendPair {n succ : ℕ} (hn : D.node n) (hs : D.node succ) (start : Lookahead.Pair) :
    D.Obeys (Lookahead.ascendPair su n start succ) := by
  refine Obeys.bind (D.modifyStats _) fun _ => Holds.bind (D.transformEdge hn hs start.main) fun main hmain => ?_
  refine Paired.ite (fun _ => Paired.pure trivial) fun _ => ?_
  refine Holds.bind (D.transformEdge hn hs start.pilot) fun pilot hpilot => Holds.bind (D.pairAt hs) fun old hold => ?_
  refine Holds.bind (D.nextPair hold ⟨hmain, hpilot⟩) fun next hnext => ?_
  refine Holds.bind (D.meetKnown hs hnext.1) fun main hmain => Holds.bind (D.meetKnown hs hnext.2) fun pilot hpilot => ?_
  exact Paired.ite (fun _ => Paired.pure trivial) fun _ => D.storePair htechnique hs old ⟨hmain, hpilot⟩

theorem lookaheadCompute {n : ℕ} (hn : D.node n) : D.Obeys (Lookahead.computeNode su n) := by
  refine Obeys.bind (D.setComputed hn true) fun _ => Holds.bind (D.pairAt hn) fun start _ => ?_
  refine Paired.ite (fun _ => Paired.pure trivial) fun _ => Holds.bind D.arena fun a ha => ?_
  exact Paired.forM fun succ hs => D.ascendPair htechnique hn ((ha.2 n hn).1 succ hs) start

omit htechnique in
theorem lookaheadNarrow {n : ℕ} (hn : D.node n) : D.Obeys (Lookahead.narrowNode su n) := by
  refine Obeys.bind (D.setComputed hn true) fun _ => Holds.bind (D.disjunct hn .stable _) fun main _ => ?_
  exact Holds.bind D.arena fun a ha => Paired.forM fun succ hs => D.descendEdge hn ((ha.2 n hn).1 succ hs) main

theorem lookahead : D.Obeys (Lookahead.computeFunction su) := by
  have hcompute : ∀ n, D.node n → D.Obeys (Lookahead.computeNode su n) := fun _ => D.lookaheadCompute htechnique
  have hnarrow : ∀ n, D.node n → D.Obeys (Lookahead.narrowNode su n) := fun _ => D.lookaheadNarrow
  refine Holds.bind (D.top D.node_entry) fun top htop => ?_
  refine Obeys.bind (D.setDisjunct D.node_entry .stable htop (D.stores_pilot htechnique top)) fun _ => ?_
  refine Obeys.bind (D.ascend hcompute true) fun _ => Obeys.bind (D.descendRounds hnarrow _) fun _ => ?_
  exact Paired.ite (fun _ => D.restartFromSeeds hcompute hnarrow _) fun _ => Paired.pure trivial

end Lookahead

section Guided

variable (D : Discipline (Ω := Ω) su Guided.Memory.Keeps)

theorem guidedMark {n : ℕ} (hn : D.node n) : D.Obeys (Guided.markChanged n) := by
  refine Holds.bind D.arena fun a _ => D.modifyMemory fun m hm k hk => ?_
  rcases Worklist.mem_nodes_push.mp hk with rfl | hk
  · exact hn
  · exact hm k hk

theorem isFeasible {n succ : ℕ} : D.Obeys (Guided.isFeasible n succ) := Paired.map D.memory fun _ _ => trivial

theorem tryEdge {n succ : ℕ} (hn : D.node n) (hs : D.node succ) (start : Value) :
    D.Obeys (Guided.tryEdge su n start succ) := by
  refine Obeys.bind D.isFeasible fun feasible => Paired.ite (fun _ => Paired.pure trivial) fun _ => ?_
  refine Obeys.bind (D.modifyStats _) fun _ => Holds.bind (D.transformEdge hn hs start) fun image himage => ?_
  refine Paired.ite (fun _ => Paired.pure trivial) fun _ => ?_
  refine Obeys.bind (D.modifyMemory fun m hm => hm) fun _ => Obeys.bind (D.push hn) fun _ => ?_
  refine Holds.bind (D.value_slot hs .stable) fun previous hprevious => ?_
  refine Holds.bind (D.join himage hprevious) fun next hnext => Paired.ite (fun _ => Paired.pure trivial) fun _ => ?_
  exact Obeys.bind (D.store hs hnext previous) fun _ => D.guidedMark hs

theorem findEdges {n : ℕ} (hn : D.node n) : D.Obeys (Guided.findEdges su n) := by
  refine Obeys.bind (D.isComputed hn) fun computed => Paired.ite (fun _ => Paired.pure trivial) fun _ => ?_
  refine Obeys.bind (D.setComputed hn true) fun _ => Holds.bind (D.value_slot hn .stable) fun start _ => ?_
  refine Paired.ite (fun _ => Paired.pure trivial) fun _ => Holds.bind D.arena fun a ha => ?_
  exact Paired.forM fun succ hs => D.tryEdge hn ((ha.2 n hn).1 succ hs) start

theorem guidedCompute {n : ℕ} (hn : D.node n) : D.Obeys (Guided.computeNode su n) := by
  refine Obeys.bind (D.setComputed hn true) fun _ => Holds.bind (D.value_slot hn .stable) fun start _ => ?_
  refine Paired.ite (fun _ => Paired.pure trivial) fun _ => Holds.bind D.arena fun a ha => Paired.forM fun succ hs => ?_
  have hsucc := (ha.2 n hn).1 succ hs
  refine Obeys.bind D.isFeasible fun feasible => Paired.ite (fun _ => ?_) fun _ => Paired.pure trivial
  refine Obeys.bind (D.ascendEdge hn hsucc start) fun grown => Paired.ite (fun _ => ?_) fun _ => Paired.pure trivial
  exact D.guidedMark hsucc

theorem guidedNarrow {n : ℕ} (hn : D.node n) : D.Obeys (Guided.narrowNode su n) := by
  refine Obeys.bind (D.setComputed hn true) fun _ => Holds.bind (D.value_slot hn .stable) fun start _ => ?_
  refine Holds.bind D.arena fun a ha => Paired.forM fun succ hs => Obeys.bind D.isFeasible fun feasible => ?_
  exact Paired.ite (fun _ => D.descendEdge hn ((ha.2 n hn).1 succ hs) start) fun _ => Paired.pure trivial

theorem guidedDrain (fuel : ℕ) : D.Obeys (Guided.drainChanged su fuel) := by
  induction fuel with
  | zero => exact Paired.throw D.fails_outOfFuel
  | succ fuel ih =>
    refine Holds.bind D.memory fun m hm => ?_
    split
    · exact Paired.pure trivial
    · rename_i n changed hpop
      obtain ⟨hn, hrest⟩ := Worklist.of_pop? hpop
      refine Obeys.bind (D.modifyMemory fun _ _ k hk => hm k (hrest k hk)) fun _ => ?_
      exact Obeys.bind (D.findEdges (hm n hn)) fun _ => ih

theorem guidedRound : D.Obeys (Guided.round su) := by
  refine Obeys.bind (D.modifyStats _) fun _ => Obeys.bind D.resetComputed fun _ => Obeys.bind (D.guidedDrain _) fun _ => ?_
  refine Obeys.bind D.resetComputed fun _ => Obeys.bind (D.ascend (fun _ => D.guidedCompute) false) fun _ => ?_
  exact Obeys.bind (D.descendRounds (fun _ => D.guidedNarrow) _) fun _ => D.checkDeadline

theorem guidedRounds (fuel : ℕ) : D.Obeys (Guided.rounds su fuel) := by
  induction fuel with
  | zero => exact Paired.throw D.fails_outOfFuel
  | succ fuel ih =>
    refine Holds.bind D.memory fun m _ => Paired.ite (fun _ => Paired.pure trivial) fun _ => ?_
    exact Obeys.bind D.guidedRound fun _ => ih

theorem guided : D.Obeys (Guided.computeFunction su) := by
  refine Obeys.bind (D.modifyMemory fun _ _ k hk => nomatch hk) fun _ => ?_
  exact Obeys.bind (D.guidedMark D.node_entry) fun _ => D.guidedRounds _

end Guided

section Focusing

variable {remembers : (ℕ → Prop) → (ℕ → Prop) → Focusing.Memory → Prop} (D : Discipline (Ω := Ω) su remembers)
  (hremembers : ∀ node place m, remembers node place m) {n : ℕ} {p : Path}

include hremembers

theorem focusingPropagate (hn : D.node n) (hp : D.path p) (onlyJoin : Bool) :
    D.Obeys (Focusing.propagate su n p onlyJoin) := by
  refine Holds.bind (D.destinationOf hp) fun succ hs => Obeys.bind (D.modifyStats _) fun _ => ?_
  refine Holds.bind (D.readEnv hs) fun env henv => Holds.bind (D.value_slot hn .stable) fun start _ => ?_
  refine Obeys.bind (D.transform p start) fun image => Holds.bind D.memory fun m _ => ?_
  have himage := D.value_withEnv henv image
  refine Holds.either (Q := fun step => D.value succ step.image) (fun hcycle => ?_) (fun _ => Paired.pure himage)
    fun step hstep => ?_
  · subst hcycle
    exact D.loopStep hs (.inl D.stores_first) D.stores_first p himage
  refine Obeys.bind (D.modifyMemory fun _ _ => hremembers _ _ _) fun _ => ?_
  refine Holds.bind (D.value_slot hs .stable) fun previous hprevious => Obeys.bind D.isWidening fun widening => ?_
  have hjoined := D.value_joinOver henv previous [step.image]
  refine Holds.either (fun _ => D.widen hprevious hjoined) (fun _ => Paired.pure hjoined) fun next hnext => ?_
  refine Obeys.optional (D.setValue hs .initial hnext) fun _ => Holds.bind (D.meetKnown hs hnext) fun met hmet => ?_
  refine Obeys.bind (D.setValue hs .stable hmet) fun _ => Obeys.bind (D.push hs) fun _ => ?_
  exact Obeys.bind (D.setComputed hs false) fun _ => Paired.pure trivial

theorem focusingFollow (hn : D.node n) (fuel : ℕ) (onlyJoin : Bool) :
    D.Obeys (Focusing.followPaths su n fuel onlyJoin) := by
  induction fuel generalizing onlyJoin with
  | zero => exact Paired.throw D.fails_outOfFuel
  | succ fuel ih =>
    refine Obeys.bind (D.setComputed hn true) fun _ => Holds.bind (D.query hn false .any) fun answer hanswer => ?_
    split
    · exact Paired.pure trivial
    · rename_i p i
      refine Paired.ite (fun _ => ?_) fun _ => Paired.pure trivial
      exact Obeys.bind (D.focusingPropagate hremembers hn (hanswer p i rfl).1 onlyJoin) fun only => ih only

theorem focusingCompute (hn : D.node n) : D.Obeys (Focusing.computeNode su n) := by
  refine Obeys.bind D.startsPaths fun starts => Paired.ite (fun _ => ?_) fun _ => D.setComputed hn true
  exact Obeys.bind (D.modifyMemory fun _ _ => hremembers _ _ _) fun _ => D.focusingFollow hremembers hn _ false

omit hremembers in
theorem focusingPropagateDown (hn : D.node n) (hp : D.path p) : D.Obeys (Focusing.propagateDown su n p) := by
  refine Holds.bind (D.destinationOf hp) fun succ hs => Obeys.bind (D.modifyStats _) fun _ => ?_
  refine Holds.bind (D.value_slot hn .stable) fun start _ => Obeys.bind (D.transform p start) fun image => ?_
  refine Holds.bind (D.readEnv hs) fun env henv => ?_
  refine Holds.bind (D.meetKnown hs (D.value_withEnv henv image)) fun met hmet => ?_
  refine Obeys.bind (D.joinDescending hs hmet) fun _ => Obeys.bind (D.push hs) fun _ => D.setComputed hs false

omit hremembers in
theorem focusingFollowDown (hn : D.node n) (fuel : ℕ) : D.Obeys (Focusing.followPathsDown su n fuel) := by
  induction fuel with
  | zero => exact Paired.throw D.fails_outOfFuel
  | succ fuel ih =>
    refine Obeys.bind (D.setComputed hn true) fun _ => Holds.bind (D.query hn true .any) fun answer hanswer => ?_
    split
    · exact Paired.pure trivial
    · rename_i p i
      refine Paired.ite (fun _ => ?_) fun _ => Paired.pure trivial
      exact Obeys.bind (D.focusingPropagateDown hn (hanswer p i rfl).1) fun _ => ih

omit hremembers in
theorem focusingNarrow (hn : D.node n) : D.Obeys (Focusing.narrowNode su n) := by
  refine Obeys.bind D.startsPaths fun starts => ?_
  exact Paired.ite (fun _ => D.focusingFollowDown hn _) fun _ => D.setComputed hn true

theorem focusing : D.Obeys (Focusing.computeFunction su) := by
  refine Obeys.bind (D.ascend (fun _ => D.focusingCompute hremembers) true) fun _ => ?_
  exact D.descendRounds (fun _ => D.focusingNarrow) _

end Focusing

section Disjunctive

variable (D : Discipline (Ω := Ω) su Disjunctive.Memory.Keeps) {n i : ℕ} {p : Path}

theorem disjunctiveMark (hn : D.node n) : D.Obeys (Disjunctive.markChanged n) := by
  refine Holds.bind D.arena fun a _ => D.modifyMemory fun m hm => { hm with changed := fun k hk => ?_ }
  rcases Worklist.mem_nodes_push.mp hk with rfl | hk
  · exact hn
  · exact hm.changed k hk

theorem placed (v : Value) (target : Disjunction) : D.Holds (Disjunctive.place p i v target) D.place := by
  refine Holds.bind D.memory fun m hm => ?_
  obtain ⟨hplace, hlimit, hassigned⟩ := Placement.assign_place hm.limit_pos hm.free hm.assigned p i v target
  refine Obeys.bind (D.modifyMemory fun m' hm' => ?_) fun _ => Paired.pure hplace
  exact ⟨hm'.changed, hm.limit_pos.trans_eq hlimit.symm, fun k hk => hm.free k (hk.trans_eq hlimit), hassigned⟩

theorem imageOf {succ : ℕ} (hn : D.node n) (hs : D.node succ) : D.Holds (Disjunctive.imageOf su n i p succ) (D.value succ) := by
  refine Holds.bind (D.readEnv hs) fun env henv => Holds.bind (D.disjunct hn .stable i) fun start _ => ?_
  exact Obeys.bind (D.transform p start) fun image => Paired.pure (D.value_withEnv henv image)

theorem recordPath (hn : D.node n) (hp : D.path p) : D.Obeys (Disjunctive.recordPath su n p i) := by
  refine Holds.bind (D.destinationOf hp) fun succ hs => Holds.bind (D.imageOf hn hs) fun image _ => ?_
  refine Holds.bind (D.slot hs .descending) fun target htarget => Holds.bind (D.placed image target) fun chosen hchosen => ?_
  refine Holds.bind (D.readEnv hs) fun env henv => ?_
  have hunion := D.union_set htarget (D.value_joinOver henv (target.get chosen) [image]) (hchosen _)
  refine Obeys.bind (D.setSlot hs .descending hunion) fun _ => ?_
  exact Obeys.bind (D.modifyMemory fun m hm => ⟨hm.changed, hm.limit_pos, hm.free, hm.assigned⟩) fun _ => D.push hn

theorem recordPaths (hn : D.node n) (fuel : ℕ) : D.Obeys (Disjunctive.recordPaths su n fuel) := by
  induction fuel with
  | zero => exact Paired.throw D.fails_outOfFuel
  | succ fuel ih =>
    refine Holds.bind (D.query hn true .any) fun answer hanswer => ?_
    split
    · exact Paired.pure trivial
    · rename_i p i
      refine Paired.ite (fun _ => ?_) fun _ => Paired.pure trivial
      exact Obeys.bind (D.recordPath hn (hanswer p i rfl).1) fun _ => ih

theorem findPaths (hn : D.node n) : D.Obeys (Disjunctive.findPaths su n) := by
  refine Obeys.bind D.startsPaths fun starts => Paired.ite (fun _ => ?_) fun _ => Paired.pure trivial
  refine Holds.bind D.arena fun a ha => Obeys.bind (Paired.forM fun s hs => ?_) fun _ => D.recordPaths hn _
  have hnode := (ha.2 n hn).2 s hs
  exact Holds.bind (D.slot hnode .stable) fun d hd => D.setSlot hnode .descending hd

theorem disjunctivePropagate (hn : D.node n) (hp : D.path p) (hi : D.departs i) :
    D.Obeys (Disjunctive.propagate su n p i) := by
  refine Obeys.bind (D.modifyStats _) fun _ => Holds.bind (D.destinationOf hp) fun succ hs => ?_
  refine Holds.bind (D.readEnv hs) fun env henv => Holds.bind (D.imageOf hn hs) fun image himage => ?_
  refine Holds.bind (D.slot hs .stable) fun target _ => Holds.bind (D.placed image target) fun chosen hchosen => ?_
  refine Holds.bind D.memory fun m _ => ?_
  refine Holds.either (Q := fun step => D.value succ step.image) (fun hcycle => ?_) (fun _ => Paired.pure himage)
    fun step hstep => ?_
  · subst hcycle
    exact D.loopStep hs (.inr hi) hchosen p himage
  refine Obeys.bind (D.modifyMemory fun m hm => ⟨hm.changed, hm.limit_pos, hm.free, hm.assigned⟩) fun _ => ?_
  refine Holds.bind (D.disjunct hs .stable chosen) fun previous hprevious => Obeys.bind D.isWidening fun widening => ?_
  have hjoined := D.value_joinOver henv previous [step.image]
  refine Holds.either (fun _ => D.widenToThresholds hprevious.1 hjoined) (fun _ => Paired.pure hjoined) fun next hnext => ?_
  refine Holds.bind (D.meetKnown hs hnext) fun met hmet => ?_
  refine Obeys.optional (D.setDisjunct hs .initial hmet (hchosen met)) fun _ => ?_
  refine Obeys.bind (D.setDisjunct hs .stable hmet (hchosen met)) fun _ => Obeys.bind (D.push hs) fun _ => ?_
  exact Obeys.bind (D.setComputed hs false) fun _ => D.disjunctiveMark hs

theorem nextRecorded (hn : D.node n) (descending : Bool) : D.Holds (Disjunctive.nextRecorded su n descending) fun o =>
    ∀ p i, o = some (p, i) → D.path p ∧ D.departs i := by
  refine Holds.bind D.memory fun m _ => ?_
  split
  · exact Paired.pure nofun
  · refine Holds.bind (D.query hn descending _) fun answer hanswer => ?_
    split
    · refine Paired.pure fun p i h => ?_
      split at h
      · obtain ⟨rfl, rfl⟩ := Prod.mk.inj (Option.some.inj h)
        exact hanswer _ _ rfl
      · cases h
    · exact Paired.pure nofun

theorem disjunctiveFollow (hn : D.node n) (fuel : ℕ) : D.Obeys (Disjunctive.followPaths su n fuel) := by
  induction fuel with
  | zero => exact Paired.throw D.fails_outOfFuel
  | succ fuel ih =>
    refine Holds.bind (D.nextRecorded hn false) fun answer hanswer => ?_
    split
    · exact Paired.pure trivial
    · rename_i p i
      exact Obeys.bind (D.disjunctivePropagate hn (hanswer p i rfl).1 (hanswer p i rfl).2) fun _ => ih

theorem disjunctiveCompute (hn : D.node n) : D.Obeys (Disjunctive.computeNode su n) := by
  refine Obeys.bind (D.setComputed hn true) fun _ => Obeys.bind D.startsPaths fun starts => ?_
  refine Paired.ite (fun _ => ?_) fun _ => Paired.pure trivial
  exact Obeys.bind (D.modifyMemory fun m hm => ⟨hm.changed, hm.limit_pos, hm.free, hm.assigned⟩) fun _ =>
    D.disjunctiveFollow hn _

theorem disjunctivePropagateDown (hn : D.node n) (hp : D.path p) : D.Obeys (Disjunctive.propagateDown su n p i) := by
  refine Obeys.bind (D.modifyStats _) fun _ => Holds.bind (D.destinationOf hp) fun succ hs => ?_
  refine Holds.bind (D.imageOf hn hs) fun image himage => Holds.bind (D.slot hs .descending) fun target htarget => ?_
  refine Holds.bind (D.placed image target) fun chosen hchosen => Holds.bind (D.meetKnown hs himage) fun met hmet => ?_
  refine Holds.bind (D.readEnv hs) fun env henv => Obeys.bind (D.setSlot hs .descending ?_) fun _ => ?_
  · split
    · exact D.union_set htarget hmet (hchosen met)
    · exact D.union_set htarget (D.value_joinOver henv (target.get chosen) [met]) (hchosen _)
  · exact Obeys.bind (D.push hs) fun _ => D.setComputed hs false

theorem disjunctiveFollowDown (hn : D.node n) (fuel : ℕ) : D.Obeys (Disjunctive.followPathsDown su n fuel) := by
  induction fuel with
  | zero => exact Paired.throw D.fails_outOfFuel
  | succ fuel ih =>
    refine Holds.bind (D.nextRecorded hn true) fun answer hanswer => ?_
    split
    · exact Paired.pure trivial
    · rename_i p i
      exact Obeys.bind (D.disjunctivePropagateDown hn (hanswer p i rfl).1) fun _ => ih

theorem disjunctiveNarrow (hn : D.node n) : D.Obeys (Disjunctive.narrowNode su n) := by
  refine Obeys.bind (D.setComputed hn true) fun _ => Obeys.bind D.startsPaths fun starts => ?_
  exact Paired.ite (fun _ => D.disjunctiveFollowDown hn _) fun _ => Paired.pure trivial

theorem disjunctiveDrain (fuel : ℕ) : D.Obeys (Disjunctive.drainChanged su fuel) := by
  induction fuel with
  | zero => exact Paired.throw D.fails_outOfFuel
  | succ fuel ih =>
    refine Holds.bind D.memory fun m hm => ?_
    split
    · exact Paired.pure trivial
    · rename_i n changed hpop
      obtain ⟨hn, hrest⟩ := Worklist.of_pop? hpop
      refine Obeys.bind (D.modifyMemory fun m' hm' => { hm' with changed := fun k hk => hm.changed k (hrest k hk) }) fun _ => ?_
      exact Obeys.bind (D.findPaths (hm.changed n hn)) fun _ => ih

theorem disjunctiveAgain (count : ℕ) : D.Obeys (Disjunctive.descendAgain su count) := by
  induction count with
  | zero => exact Obeys.bind D.settle fun _ => Paired.pure trivial
  | succ count ih =>
    refine Obeys.bind D.settle fun changed => Paired.ite (fun _ => ?_) fun _ => Paired.pure trivial
    exact Obeys.bind (D.descend fun _ => D.disjunctiveNarrow) fun _ => ih

theorem disjunctiveRound : D.Obeys (Disjunctive.round su) := by
  have hpaths : ∀ f : PathSet → PathSet, D.Obeys (Analysis.modifyMemory fun m : Disjunctive.Memory =>
      { m with recorded := m.recorded.map f }) := fun f =>
    D.modifyMemory fun m hm => ⟨hm.changed, hm.limit_pos, hm.free, hm.assigned⟩
  refine Obeys.bind (D.modifyStats _) fun _ => Obeys.bind (hpaths _) fun _ => Obeys.bind D.resetComputed fun _ => ?_
  refine Obeys.bind D.clearWorklist fun _ => Obeys.bind (D.disjunctiveDrain _) fun _ => Obeys.bind (hpaths _) fun _ => ?_
  refine Obeys.bind D.resetComputed fun _ => Obeys.bind (D.ascend (fun _ => D.disjunctiveCompute) false) fun _ => ?_
  refine Obeys.bind (D.descend fun _ => D.disjunctiveNarrow) fun _ => Obeys.bind (D.disjunctiveAgain _) fun _ => ?_
  exact D.checkDeadline

theorem disjunctiveRounds (fuel : ℕ) : D.Obeys (Disjunctive.rounds su fuel) := by
  induction fuel with
  | zero => exact Paired.throw D.fails_outOfFuel
  | succ fuel ih =>
    refine Holds.bind D.memory fun m _ => Paired.ite (fun _ => Paired.pure trivial) fun _ => ?_
    exact Obeys.bind D.disjunctiveRound fun _ => ih

theorem disjunctive : D.Obeys (Disjunctive.computeFunction su) := by
  refine Holds.bind D.nodeCount fun count _ => Obeys.bind (D.modifyMemory fun m hm => ?_) fun _ => ?_
  · exact ⟨nofun, hm.limit_pos, hm.free, nofun⟩
  · exact Obeys.bind (D.disjunctiveMark D.node_entry) fun _ => D.disjunctiveRounds _

end Disjunctive

end Discipline

/-- The technique that the options ask for is a strategy that respects every discipline. -/
theorem exists_disciplined (su : Setup) : ∃ (S : Type) (st : Strategy Ω S) (remembers : (ℕ → Prop) → (ℕ → Prop) → S → Prop),
    st.Disciplined su remembers ∧ ∀ e : Engine Ω, runTechnique su e = st.runFresh su e := by
  unfold runTechnique
  cases htechnique : su.options.technique with
  | classic => exact ⟨Unit, Classic.strategy, fun _ _ _ => True, ⟨fun _ => trivial, fun D => D.classic⟩, fun _ => rfl⟩
  | lookahead =>
    exact ⟨Unit, Lookahead.strategy, fun _ _ _ => True, ⟨fun _ => trivial, fun D => D.lookahead htechnique⟩, fun _ => rfl⟩
  | guided => exact ⟨_, Guided.strategy, Guided.Memory.Keeps, ⟨fun _ => nofun, fun D => D.guided⟩, fun _ => rfl⟩
  | focusing =>
    exact ⟨_, Focusing.strategy, fun _ _ _ => True, ⟨fun _ => trivial, fun D => D.focusing fun _ _ _ => trivial⟩, fun _ => rfl⟩
  | disjunctive =>
    refine ⟨_, Disjunctive.strategy su.options.maxDisjuncts, Disjunctive.Memory.Keeps, ⟨fun D => ?_, fun D => D.disjunctive⟩,
      fun _ => rfl⟩
    refine ⟨nofun, ?_, fun i hi => D.stores_lt htechnique hi, nofun⟩
    change 0 < if su.options.maxDisjuncts = 0 then 1 else su.options.maxDisjuncts
    split <;> omega

end PathInvariants
