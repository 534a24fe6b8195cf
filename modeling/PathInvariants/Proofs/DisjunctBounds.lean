import PathInvariants.Oracle.Script
import PathInvariants.Proofs.OracleQueries
import PathInvariants.Proofs.SharedContexts

/-!
# Bounds on unions

A disjunctive run keeps its non-bottom disjuncts below the limit of its options, whatever the oracle
answers: a contribution goes to a place below the limit, and the disjunct that a cyclic path departs from
is put back as it was found, so past the limit it is bottom. The searching oracle departs from disjuncts
that there are, so with it no union gets longer than the limit.
-/
namespace PathInvariants

variable {Ω : Type} {su : Setup}

/-- The disjuncts of a list that hold some state stand below the limit. -/
def Confined (limit : ℕ) (vs : List Value) : Prop := ∀ i v, vs[i]? = some v → v.isBottom = false → i < limit

/-- The state of an oracle that has been pushed, popped and asked since `o`, and shown views of `shown` only. -/
inductive Consulted [PathOracle Ω] (shown : StateView → Prop) (o : Ω) : Ω → Prop
  | start : Consulted shown o o
  | push {o' : Ω} (h : Consulted shown o o') : Consulted shown o (PathOracle.push o')
  | pop {o' : Ω} (h : Consulted shown o o') : Consulted shown o (PathOracle.pop o').2
  | query {o' : Ω} (h : Consulted shown o o') (q : PathQuery) {view : StateView} (hview : shown view) :
      Consulted shown o (PathOracle.query q view o').2

namespace Context

variable {key : Key} {P : List Value → Prop} {c c' : Context}

/-- All unions under `key` satisfy `P`. -/
def Shows (key : Key) (P : List Value → Prop) (c : Context) : Prop := ∀ n s sl, c.slots n key = .ok s → P (s.get sl).toList

theorem Shows.setSlots (h : c.Shows key P) {n : ℕ} {s : Slots Disjunction} (hs : s.All fun d => P d.toList)
    (hset : c.setSlots n key s = .ok c') : c'.Shows key P := by
  intro m s' sl hs'
  obtain ⟨x, hx, rfl⟩ := setSlots_eq_ok.mp hset
  obtain ⟨y, hy, hslots⟩ := slots_eq_ok.mp hs'
  rw [setNode, List.getElem?_set] at hy
  split at hy
  · rename_i hnm
    subst hnm
    rw [if_pos (List.getElem?_eq_some_iff.mp hx).1] at hy
    obtain rfl := Option.some.inj hy
    rw [Node.slots?_setSlots] at hslots
    obtain rfl := Option.some.inj hslots
    exact hs sl
  · exact h m s' sl (slots_eq_ok.mpr ⟨y, hy, hslots⟩)

theorem Shows.view (h : c.Shows key P) (hnil : P []) (b : Block) (sl : Slot) : P ((c.view key).disjuncts b sl) := by
  unfold Context.view
  dsimp only
  cases hn : c.arena.index? b with
  | none => exact hnil
  | some n =>
    cases hx : c.nodes[n]? with
    | none => simpa [hx] using hnil
    | some x =>
      cases hs : x.slots? key with
      | none => simpa [hx, hs] using hnil
      | some s => simpa [hx, hs] using h n s sl (slots_eq_ok.mpr ⟨x, hx, hs⟩)

/-- A run starts with one disjunct in every slot. -/
theorem shows_prepared (hsingle : ∀ v, P [v]) (c : Context) : (c.prepared su).Shows su.key P := by
  intro n s sl hs
  obtain ⟨x, hx, hslots⟩ := slots_eq_ok.mp hs
  rw [prepared, List.getElem?_map] at hx
  obtain ⟨y, -, rfl⟩ := Option.map_eq_some_iff.mp hx
  rw [Node.prepared, Node.slots?_setSlots] at hslots
  obtain rfl := Option.some.inj hslots
  cases sl <;> exact hsingle _

end Context

/-- All unions under `key` satisfy `P`, and so do all those that have ever been stored on the way here, and all those
that the oracle has been shown since it was `o`. -/
structure Engine.Exhibits [PathOracle Ω] (key : Key) (P : List Value → Prop) (o : Ω) (e : Engine Ω) : Prop where
  slots : e.context.Shows key P
  stored : ∀ w ∈ e.written, w.2.All fun d => P d.toList
  shown : Consulted (fun view => ∀ b sl, P (view.disjuncts b sl)) o e.oracle

theorem Placement.limit_new (count : ℕ) : (Placement.new count).limit = max 1 count := by
  simp only [new]
  split <;> omega

/-- What a property of unions needs for a disjunctive run to keep it: which values may stand at an index, and which
indices paths may depart from. -/
structure UnionProperty (su : Setup) where
  holds : List Value → Prop
  stores : ℕ → Value → Prop
  departs : ℕ → Prop
  nil : holds []
  single (v : Value) : holds [v]
  set {d : Disjunction} {i : ℕ} {v : Value} (hd : holds d.toList) (hi : stores i v) : holds (d.set i v).toList
  stores_lt {i : ℕ} (hi : i < (Placement.new su.options.maxDisjuncts).limit) (v : Value) : stores i v
  stores_bottom {i : ℕ} (hi : departs i) (env : Environment) : stores i (.bottom su.options.domain env)
  stores_get? {d : Disjunction} {i : ℕ} {v : Value} (hd : holds d.toList) (hi : departs i) (hv : d.get? i = some v) : stores i v

namespace UnionProperty

variable (U : UnionProperty su) (ht : su.options.technique = .disjunctive)

def shape : Shape su where
  node _ := True
  env _ _ := True
  value _ _ := True
  union _ d := U.holds d.toList
  stores := U.stores
  departs := U.departs
  path _ := True
  node_entry := trivial
  value_withEnv _ _ := trivial
  value_joinOver _ _ _ := trivial
  value_top _ := trivial
  value_bottom _ := trivial
  value_mem _ _ _ := trivial
  union_single _ := U.single _
  union_set hd _ hi := U.set hd hi
  stores_first := U.stores_lt (by rw [Placement.limit_new]; omega)
  stores_pilot h := absurd (ht.symm.trans h) (by decide)
  stores_lt _ _ hi := U.stores_lt hi
  stores_bottom _ hi := U.stores_bottom hi _
  stores_get? hd hi hv := U.stores_get? hd hi hv

/-- Shown unions with the property, an oracle names an index that paths may depart from. -/
def Answered (Ω : Type) [PathOracle Ω] : Prop := ∀ (q : PathQuery) (view : StateView) (o : Ω),
  (∀ b sl, U.holds (view.disjuncts b sl)) → ∀ p i, (PathOracle.query q view o).1 = .ok (.sat p i) → U.departs i

/-- The property as an invariant of disjunctive runs. -/
def invariant [PathOracle Ω] (hanswered : U.Answered Ω) (o : Ω) : EngineInvariant Ω su :=
  .lenient (U.shape ht) (fun _ => trivial) (fun _ _ => trivial) (fun _ _ => trivial) (fun _ => trivial)
    (Context.Shows su.key U.holds) (Consulted (fun view => ∀ b sl, U.holds (view.disjuncts b sl)) o)
    (fun _ hc n s hs sl => hc n s sl hs) (fun _ hc _ _ hs _ hset => hc.setSlots hs hset) fun _ hc _ ho q =>
      ⟨.pop (.query (.push ho) q fun b sl => hc.view U.nil b sl), hanswered q _ _ fun b sl => hc.view U.nil b sl⟩

include ht

theorem exhibits_runTechnique [PathOracle Ω] (hanswered : U.Answered Ω) {c : Context} (hc : c.Tracked su.transfer) (o : Ω) :
    (runTechnique su (.new su.options c o)).2.Exhibits su.key U.holds o := by
  let K := U.invariant ht hanswered o
  have himports : K.Imports := .of_fails fun _ => trivial
  obtain ⟨hslots, hshown, hstored⟩ := (EngineInvariant.runTechnique_keeps himports (e := .new su.options c o) hc
    ⟨Context.shows_prepared U.single c, .start, fun _ hw => absurd hw List.not_mem_nil⟩ fun _ h => h).1
  exact ⟨hslots, hstored, hshown⟩

end UnionProperty

/-- Disjuncts past the limit are bottom. -/
def UnionProperty.confined (su : Setup) : UnionProperty su where
  holds := Confined (max 1 su.options.maxDisjuncts)
  stores i v := i < max 1 su.options.maxDisjuncts ∨ v.isBottom = true
  departs _ := True
  nil _ _ h := by simp at h
  single v i w h _ := by
    have := (List.getElem?_eq_some_iff.mp h).1
    simp at this
    omega
  set {d i v} hd hi j w hw hbottom := by
    rcases Disjunction.get?_set_cases hw with ⟨rfl, rfl⟩ | ⟨-, hw⟩ | ⟨-, rfl⟩
    · exact hi.resolve_right (by simp [hbottom])
    · exact hd j w hw hbottom
    · simp [Disjunction.filler, Value.bottom, Value.isBottom, Box.isBottom] at hbottom
  stores_lt hi v := .inl (by rwa [Placement.limit_new] at hi)
  stores_bottom _ _ := .inr rfl
  stores_get? {d i v} hd _ hv := by
    cases hbottom : v.isBottom with
    | true => exact .inr rfl
    | false => exact .inl (hd i v hv hbottom)

theorem Disjunction.length_set_le {d : Disjunction} {i k : ℕ} {v : Value} (hd : d.toList.length ≤ k) (hi : i < k) :
    (d.set i v).toList.length ≤ k := by
  have hsize : (d.set i v).toList.length = (d.set i v).size := by simp [Disjunction.toList, Disjunction.size]
  have hsize' : d.toList.length = d.size := by simp [Disjunction.toList, Disjunction.size]
  rw [hsize, Disjunction.size_set]
  split <;> omega

/-- There are no disjuncts past the limit. -/
def UnionProperty.short (su : Setup) : UnionProperty su where
  holds vs := vs.length ≤ max 1 su.options.maxDisjuncts
  stores i _ := i < max 1 su.options.maxDisjuncts
  departs i := i < max 1 su.options.maxDisjuncts
  nil := Nat.zero_le _
  single _ := le_max_left ..
  set hd hi := Disjunction.length_set_le hd hi
  stores_lt hi v := by rwa [Placement.limit_new] at hi
  stores_bottom hi _ := hi
  stores_get? _ hi _ := hi

/-- The searching oracle departs from a disjunct that it has been shown. -/
theorem SearchOracle.lt_of_sat {q : PathQuery} {view : StateView} {o : SearchOracle} {p : Path} {i : ℕ}
    (h : (SearchOracle.query q view o).1 = .ok (.sat p i)) : i < (view.disjuncts q.start .stable).length := by
  unfold SearchOracle.query at h
  simp only [firstNovel_eq] at h
  generalize ((o.prepare view q.start).paths.lookup q.start).getD [] = paths at h
  cases hf : (candidates view q paths).findM? fun c => isNovel (o.prepare view q.start).transfer view q.target c.2.1 c.1 with
  | error f =>
    rw [hf] at h
    cases h
  | ok found =>
    rw [hf] at h
    cases found with
    | none => cases h
    | some c =>
      obtain ⟨rfl, rfl⟩ := OracleAnswer.sat.inj (Except.ok.inj h)
      obtain ⟨hi, -⟩ := mem_candidates.mp (findM?_eq_some hf).1
      exact (List.getElem?_eq_some_iff.mp hi).1

/-- In a disjunctive run no disjunct past the limit holds a state, whatever the oracle, and with the searching oracle no
slot is longer than the limit. This is so wherever the run ends, by a result, a failure of the oracle, a deadline at any
reading of the clock or a loop bound, at every store that has led there, and in everything that the oracle has been shown
until then. -/
theorem exhibits_disjunct_bound (ht : su.options.technique = .disjunctive) {c : Context}
    (hc : c.Reached su.graph su.transfer) :
    (∀ (Ω : Type) [PathOracle Ω] (oracle : Ω),
      (runTechnique su (.new su.options c oracle)).2.Exhibits su.key (Confined (max 1 su.options.maxDisjuncts)) oracle) ∧
    ∀ oracle : SearchOracle, (runTechnique su (.new su.options c oracle)).2.Exhibits su.key
      (fun vs => vs.length ≤ max 1 su.options.maxDisjuncts) oracle := by
  refine ⟨fun Ω _ oracle => ?_, fun oracle => ?_⟩
  · exact (UnionProperty.confined su).exhibits_runTechnique ht (fun _ _ _ _ _ _ _ => trivial) hc.tracked oracle
  · have hanswered : (UnionProperty.short su).Answered SearchOracle := fun q view _ hview _ _ hsat =>
      lt_of_lt_of_le (SearchOracle.lt_of_sat hsat) (hview q.start .stable)
    exact (UnionProperty.short su).exhibits_runTechnique ht hanswered hc.tracked oracle

/-- Answers with paths around the loop of a counter that depart from a disjunct that it does not have, and then gives up. -/
def ScriptOracle.straying : ScriptOracle :=
  .new ([.sat ⟨[0, 1]⟩ 0, .unsat, .sat ⟨[0, 1]⟩ 0, .unsat, .sat ⟨[1, 2, 1]⟩ 7, .sat ⟨[1, 2, 1]⟩ 7, .unknown].map (⟨.ok ·, none⟩))

/-- Straying answers make a union longer than the limit, by bottoms only. -/
theorem exhibits_disjunct_bound_counter :
    let su := Program.counter.setup { technique := .disjunctive, maxDisjuncts := 2 } .ample
    let start {Ω : Type} (oracle : Ω) := Engine.new su.options (.build Program.counter.graph.control) oracle
    let searching := SearchOracle.new su.graph su.transfer
    (((runTechnique su (start ScriptOracle.straying)).2.context.slots 1 su.key).toOption.map fun s => s.stable.size) = some 8 ∧
      (runTechnique su (start ScriptOracle.straying)).2.Exhibits su.key (Confined 2) ScriptOracle.straying ∧
      (runTechnique su (start searching)).2.Exhibits su.key (fun vs => vs.length ≤ 2) searching := by
  intro su start searching
  have htechnique : su.options.technique = .disjunctive := rfl
  obtain ⟨hany, hsearching⟩ := exhibits_disjunct_bound htechnique (c := .build Program.counter.graph.control) .build
  exact ⟨by decide +kernel, hany ScriptOracle .straying, hsearching searching⟩

end PathInvariants
