import Mathlib
import PathInvariants.Strategy.Basic

/-!
# Runs of analyses

What a computation that ends without a failure has done. `Yields m r a r'` says that `m` takes the
run `r` to `r'` and returns `a`; the lemmas take computations apart into their steps.
-/
namespace PathInvariants

variable {Ω S α β : Type}

/-- The computation ends without a failure. -/
def Yields (m : Analysis Ω S α) (r : Run Ω S) (a : α) (r' : Run Ω S) : Prop := m.run.run r = (.ok a, r')

theorem Worklist.mem_nodes_push {w : Worklist} {n label m : ℕ} :
    m ∈ (w.push n label).nodes ↔ m = n ∨ m ∈ w.nodes := by
  have hinsert : ∀ queue : List (ℕ × ℕ), m ∈ (insert (n, label) queue).map Prod.fst ↔ m = n ∨ m ∈ queue.map Prod.fst := by
    intro queue
    induction queue with
    | nil => simp [insert]
    | cons b queue ih =>
      rw [insert]
      split
      · simp
      · split
        · rename_i hb
          subst hb
          simp
        · rw [List.map_cons, List.mem_cons, ih, List.map_cons, List.mem_cons]
          tauto
  exact hinsert w.queue

namespace Run

/-- The slots of a node under a key. -/
def slots? (r : Run Ω S) (key : Key) (n : ℕ) : Option (Slots Disjunction) :=
  (r.engine.context.nodes[n]?).bind fun node => node.slots? key

theorem all_slots {r : Run Ω S} {key : Key} {test : Slots Disjunction → Bool}
    (h : (r.engine.context.nodes.all fun node => (node.slots? key).all test) = true) {n : ℕ} {s : Slots Disjunction}
    (hs : r.slots? key n = some s) : test s = true := by
  obtain ⟨node, hnode, hs⟩ := Option.bind_eq_some_iff.mp hs
  have hslots := List.all_eq_true.mp h node (List.mem_of_getElem? hnode)
  rwa [hs, Option.all_some] at hslots

/-- The blocks of the nodes. -/
def blocks (r : Run Ω S) : List Block := r.engine.context.nodes.map (·.block)

def arena (r : Run Ω S) : Arena := r.engine.context.arena

def computed? (r : Run Ω S) (n : ℕ) : Option Bool := r.engine.computed[n]?

/-- The node is in the worklist. -/
def Waits (r : Run Ω S) (n : ℕ) : Prop := n ∈ r.engine.worklist.nodes

/-- Nothing but thresholds, clock readings, statistics and the record of stores differs. -/
def Quiet (r r' : Run Ω S) : Prop :=
  ∃ thresholds readings stats written, r' = { r with engine := { r.engine with thresholds, readings, stats, written } }

theorem Quiet.refl (r : Run Ω S) : r.Quiet r := ⟨_, _, _, _, rfl⟩

theorem Quiet.trans {r r₁ r₂ : Run Ω S} (h : r.Quiet r₁) (h' : r₁.Quiet r₂) : r.Quiet r₂ := by
  obtain ⟨t, n, st, w, rfl⟩ := h
  obtain ⟨t', n', st', w', rfl⟩ := h'
  exact ⟨t', n', st', w', rfl⟩

/-- The run with other slots at a node. -/
def put (r : Run Ω S) (key : Key) (n : ℕ) (s : Slots Disjunction) : Run Ω S :=
  { r with engine := { r.engine with
      context := { r.engine.context with nodes := r.engine.context.nodes.modify n fun node => node.setSlots key s }
      written := (n, s) :: r.engine.written } }

theorem slots?_put (r : Run Ω S) (key : Key) (n : ℕ) (s : Slots Disjunction) (m : ℕ)
    (h : (r.slots? key n).isSome = true) :
    (r.put key n s).slots? key m = if m = n then some s else r.slots? key m := by
  simp only [slots?, put, List.getElem?_modify]
  by_cases hmn : m = n
  · subst hmn
    cases hnode : r.engine.context.nodes[m]? with
    | none => simp [slots?, hnode] at h
    | some node => simp
  · have hnm : n ≠ m := fun h => hmn h.symm
    cases r.engine.context.nodes[m]? <;> simp [hnm, hmn]

/-- Runs under other keys are left alone. -/
theorem slots?_put_of_ne {key other : Key} (h : other ≠ key) (r : Run Ω S) (n : ℕ) (s : Slots Disjunction) (m : ℕ) :
    (r.put key n s).slots? other m = r.slots? other m := by
  simp only [slots?, put, List.getElem?_modify]
  cases r.engine.context.nodes[m]? with
  | none => rfl
  | some node =>
    by_cases hnm : n = m
    · simp [hnm, Node.slots?_setSlots_of_ne _ _ h]
    · simp [hnm]

/-- Slots that are overwritten leave only their record. -/
theorem put_put (r : Run Ω S) (key : Key) (n : ℕ) (s t : Slots Disjunction) :
    (r.put key n t).Quiet ((r.put key n s).put key n t) := by
  have hset : ∀ node : Node Disjunction, (node.setSlots key s).setSlots key t = node.setSlots key t := by
    intro node
    simp [Node.setSlots, Node.dropSlots]
  refine ⟨r.engine.thresholds, r.engine.readings, r.engine.stats, (n, t) :: (n, s) :: r.engine.written, ?_⟩
  simp only [put, List.modify_modify_eq, Function.comp_def, hset]

@[simp] theorem blocks_put (r : Run Ω S) (key : Key) (n : ℕ) (s : Slots Disjunction) :
    (r.put key n s).blocks = r.blocks := by
  refine List.ext_getElem? fun m => ?_
  simp only [blocks, put, List.getElem?_map, List.getElem?_modify]
  cases r.engine.context.nodes[m]? with
  | none => rfl
  | some node =>
    by_cases hnm : n = m <;> simp [hnm, Node.setSlots, Node.dropSlots]

theorem Quiet.put {r r' : Run Ω S} (h : r.Quiet r') (key : Key) (n : ℕ) (s : Slots Disjunction) :
    (r.put key n s).Quiet (r'.put key n s) := by
  obtain ⟨t, c, st, w, rfl⟩ := h
  exact ⟨t, c, st, (n, s) :: w, rfl⟩

theorem Quiet.oracle {r r' : Run Ω S} (h : r.Quiet r') : r'.engine.oracle = r.engine.oracle := by
  obtain ⟨t, c, st, w, rfl⟩ := h
  rfl

theorem Quiet.memory {r r' : Run Ω S} (h : r.Quiet r') : r'.memory = r.memory := by
  obtain ⟨t, c, st, w, rfl⟩ := h
  rfl

theorem Quiet.slots? {r r' : Run Ω S} (h : r.Quiet r') (key : Key) (n : ℕ) : r'.slots? key n = r.slots? key n := by
  obtain ⟨t, c, st, w, rfl⟩ := h
  rfl

end Run

theorem yields_pure {a b : α} {r r' : Run Ω S} : Yields (pure a : Analysis Ω S α) r b r' ↔ b = a ∧ r' = r := by
  simp only [Yields, ExceptT.run_pure, StateT.run_pure]
  constructor
  · intro h
    cases h
    exact ⟨rfl, rfl⟩
  · rintro ⟨rfl, rfl⟩
    rfl

theorem yields_of_toOption {m : Analysis Ω S α} {r : Run Ω S} {a : α} (h : (m.run.run r).1.toOption = some a) :
    Yields m r a (m.run.run r).2 := by
  unfold Yields
  generalize m.run.run r = x at h ⊢
  obtain ⟨_ | b, r'⟩ := x
  · cases h
  · obtain rfl := Option.some.inj h
    rfl

theorem yields_bind {m : Analysis Ω S α} {f : α → Analysis Ω S β} {r r' : Run Ω S} {b : β} :
    Yields (m >>= f) r b r' ↔ ∃ a r₁, Yields m r a r₁ ∧ Yields (f a) r₁ b r' := by
  simp only [Yields, ExceptT.run_bind, StateT.run_bind]
  generalize m.run.run r = y
  obtain ⟨x, r₁⟩ := y
  cases x with
  | error e =>
    constructor
    · intro h
      cases h
    · rintro ⟨a, r₂, h, -⟩
      cases h
  | ok a =>
    constructor
    · exact fun h => ⟨a, r₁, rfl, h⟩
    · rintro ⟨a', r₂, h, h'⟩
      cases h
      exact h'

theorem Yields.run_bind {m : Analysis Ω S α} {r r₁ : Run Ω S} {a : α} (h : Yields m r a r₁) (f : α → Analysis Ω S β) :
    (m >>= f).run.run r = (f a).run.run r₁ := by
  simp only [ExceptT.run_bind, StateT.run_bind]
  rw [h]
  rfl

theorem not_yields_throw {f : Failure} {r r' : Run Ω S} {a : α} : ¬ Yields (throw f : Analysis Ω S α) r a r' := by
  intro h
  simp only [Yields, ExceptT.run_throw, StateT.run_pure] at h
  cases h

namespace Analysis

theorem yields_engine {r r' : Run Ω S} {e : Engine Ω} :
    Yields (engine : Analysis Ω S _) r e r' ↔ e = r.engine ∧ r' = r := by
  constructor
  · intro h
    cases h
    exact ⟨rfl, rfl⟩
  · rintro ⟨rfl, rfl⟩
    rfl

theorem yields_memory {r r' : Run Ω S} {m : S} :
    Yields (memory : Analysis Ω S _) r m r' ↔ m = r.memory ∧ r' = r := by
  constructor
  · intro h
    cases h
    exact ⟨rfl, rfl⟩
  · rintro ⟨rfl, rfl⟩
    rfl

theorem yields_modifyEngine {f : Engine Ω → Engine Ω} {r r' : Run Ω S} {u : Unit} :
    Yields (modifyEngine f) r u r' ↔ r' = { r with engine := f r.engine } := by
  constructor
  · intro h
    cases h
    rfl
  · rintro rfl
    rfl

theorem yields_modifyMemory {f : S → S} {r r' : Run Ω S} {u : Unit} :
    Yields (modifyMemory f) r u r' ↔ r' = { r with memory := f r.memory } := by
  constructor
  · intro h
    cases h
    rfl
  · rintro rfl
    rfl

theorem yields_liftExcept {x : Except Failure α} {r r' : Run Ω S} {a : α} :
    Yields (liftExcept x) r a r' ↔ x = .ok a ∧ r' = r := by
  constructor
  · intro h
    cases h
    exact ⟨rfl, rfl⟩
  · rintro ⟨rfl, rfl⟩
    rfl

theorem yields_ofFault {x : Except Fault α} {r r' : Run Ω S} {a : α} :
    Yields (ofFault x) r a r' ↔ x = .ok a ∧ r' = r := by
  cases x with
  | error f => exact iff_of_false not_yields_throw fun h => nomatch h.1
  | ok b =>
    refine yields_pure.trans ?_
    rw [Except.ok.injEq, eq_comm]

theorem yields_ofViolation {x : Except Violation α} {r r' : Run Ω S} {a : α} :
    Yields (ofViolation x) r a r' ↔ x = .ok a ∧ r' = r := by
  cases x with
  | error f => exact iff_of_false not_yields_throw fun h => nomatch h.1
  | ok b =>
    refine yields_pure.trans ?_
    rw [Except.ok.injEq, eq_comm]

theorem context_slots {c : Context} {n : ℕ} {key : Key} {s : Slots Disjunction} :
    c.slots n key = .ok s ↔ (c.nodes[n]?).bind (fun node => node.slots? key) = some s := by
  unfold Context.slots Context.node
  cases c.nodes[n]? with
  | none => exact iff_of_false nofun nofun
  | some node =>
    cases hs : node.slots? key with
    | none => simp [bind, Except.bind, hs]
    | some s' => simp [bind, Except.bind, hs]

theorem yields_slots {su : Setup} {n : ℕ} {r r' : Run Ω S} {s : Slots Disjunction} :
    Yields (slots su n) r s r' ↔ r.slots? su.key n = some s ∧ r' = r := by
  simp only [slots, yields_bind, yields_engine, yields_ofViolation, context_slots, Run.slots?]
  constructor
  · rintro ⟨e, r₁, ⟨rfl, rfl⟩, h, rfl⟩
    exact ⟨h, rfl⟩
  · rintro ⟨h, rfl⟩
    exact ⟨_, _, ⟨rfl, rfl⟩, h, rfl⟩

theorem yields_setSlots {su : Setup} {n : ℕ} {r r' : Run Ω S} {s : Slots Disjunction} {u : Unit}
    (h : Yields (setSlots su n s) r u r') : r' = r.put su.key n s := by
  simp only [setSlots, yields_bind, yields_engine, yields_ofViolation, yields_modifyEngine] at h
  obtain ⟨e, r₁, ⟨rfl, rfl⟩, c, r₂, ⟨hc, rfl⟩, rfl⟩ := h
  unfold Context.setSlots Context.node at hc
  cases hnode : r₂.engine.context.nodes[n]? with
  | none =>
    rw [hnode] at hc
    cases hc
  | some node =>
    rw [hnode] at hc
    obtain rfl := Except.ok.inj hc
    simp only [Run.put, Context.setNode, List.modify_eq_set_getElem?, hnode]
    rfl

theorem yields_slot {su : Setup} {n : ℕ} {sl : Slot} {r r' : Run Ω S} {d : Disjunction} :
    Yields (slot su n sl) r d r' ↔ (∃ s, r.slots? su.key n = some s ∧ d = s.get sl) ∧ r' = r := by
  simp only [slot, yields_bind, yields_slots, yields_pure]
  constructor
  · rintro ⟨s, r₁, ⟨hs, rfl⟩, rfl, rfl⟩
    exact ⟨⟨s, hs, rfl⟩, rfl⟩
  · rintro ⟨⟨s, hs, rfl⟩, rfl⟩
    exact ⟨s, _, ⟨hs, rfl⟩, rfl, rfl⟩

/-- A union has a first disjunct, so no slot is found empty. -/
theorem value_eq (su : Setup) (n : ℕ) (sl : Slot) :
    (value su n sl : Analysis Ω S Value) = do return (← slot su n sl).first := rfl

theorem yields_value {su : Setup} {n : ℕ} {sl : Slot} {r r' : Run Ω S} {v : Value} :
    Yields (value su n sl) r v r' ↔ (∃ s, r.slots? su.key n = some s ∧ v = (s.get sl).first) ∧ r' = r := by
  simp only [value_eq, yields_bind, yields_slot, yields_pure]
  constructor
  · rintro ⟨d, r₁, ⟨⟨s, hs, rfl⟩, rfl⟩, rfl, rfl⟩
    exact ⟨⟨s, hs, rfl⟩, rfl⟩
  · rintro ⟨⟨s, hs, rfl⟩, rfl⟩
    exact ⟨_, _, ⟨⟨s, hs, rfl⟩, rfl⟩, rfl, rfl⟩

theorem yields_setSlot {su : Setup} {n : ℕ} {sl : Slot} {d : Disjunction} {r r' : Run Ω S} {u : Unit}
    (h : Yields (setSlot su n sl d) r u r') :
    ∃ s, r.slots? su.key n = some s ∧ r' = r.put su.key n (s.set sl d) := by
  simp only [setSlot, yields_bind, yields_slots] at h
  obtain ⟨s, r₁, ⟨hs, rfl⟩, h⟩ := h
  exact ⟨s, hs, yields_setSlots h⟩

theorem yields_setDisjunct {su : Setup} {n : ℕ} {sl : Slot} {i : ℕ} {v : Value} {r r' : Run Ω S} {u : Unit}
    (h : Yields (setDisjunct su n sl i v) r u r') :
    ∃ s, r.slots? su.key n = some s ∧ r' = r.put su.key n (s.set sl ((s.get sl).set i v)) := by
  simp only [setDisjunct, yields_bind, yields_slot] at h
  obtain ⟨d, r₁, ⟨⟨s, hs, rfl⟩, rfl⟩, h⟩ := h
  obtain ⟨s', hs', rfl⟩ := yields_setSlot h
  obtain rfl : s = s' := Option.some.inj (hs.symm.trans hs')
  exact ⟨s, hs, rfl⟩

theorem yields_isComputed {n : ℕ} {r r' : Run Ω S} {b : Bool} :
    Yields (isComputed n) r b r' ↔ r.computed? n = some b ∧ r' = r := by
  simp only [isComputed, yields_bind, yields_engine, Run.computed?]
  constructor
  · rintro ⟨e, r₁, ⟨rfl, rfl⟩, h⟩
    split at h
    · rename_i b' hb
      obtain ⟨rfl, rfl⟩ := yields_pure.mp h
      exact ⟨hb, rfl⟩
    · exact absurd h not_yields_throw
  · rintro ⟨hb, rfl⟩
    refine ⟨_, _, ⟨rfl, rfl⟩, ?_⟩
    rw [hb]
    exact yields_pure.mpr ⟨rfl, rfl⟩

theorem yields_setComputed {n : ℕ} {b : Bool} {r r' : Run Ω S} {u : Unit} (h : Yields (setComputed n b) r u r') :
    n < r.engine.computed.length ∧
      r' = { r with engine := { r.engine with computed := r.engine.computed.set n b } } := by
  simp only [setComputed, yields_bind, yields_engine] at h
  obtain ⟨e, r₁, ⟨rfl, rfl⟩, h⟩ := h
  split at h
  · rename_i hn
    exact ⟨hn, yields_modifyEngine.mp h⟩
  · exact absurd h not_yields_throw

theorem yields_push {n : ℕ} {r r' : Run Ω S} {u : Unit} : Yields (push n) r u r' ↔
    r' = { r with engine := { r.engine with worklist := r.engine.worklist.push n (r.arena.label n) } } :=
  yields_modifyEngine

theorem yields_pop? {r r' : Run Ω S} {n : Option ℕ} (h : Yields pop? r n r') :
    (n = none ∧ r.engine.worklist = .empty ∧ r' = r) ∨
      ∃ m label queue, n = some m ∧ r.engine.worklist.queue = (m, label) :: queue ∧
        r' = { r with engine := { r.engine with worklist := ⟨queue⟩ } } := by
  simp only [pop?, yields_bind, yields_engine] at h
  obtain ⟨e, r₁, ⟨rfl, rfl⟩, h⟩ := h
  cases hw : r₁.engine.worklist with
  | mk queue =>
    cases queue with
    | nil =>
      simp only [hw, Worklist.pop?, yields_pure] at h
      exact .inl ⟨h.1, rfl, h.2⟩
    | cons a queue =>
      simp only [hw, Worklist.pop?, yields_bind, yields_modifyEngine, yields_pure] at h
      obtain ⟨-, r₂, rfl, rfl, rfl⟩ := h
      exact .inr ⟨a.1, a.2, queue, rfl, rfl, rfl⟩

theorem yields_block {n : ℕ} {r r' : Run Ω S} {b : Block} :
    Yields (block n) r b r' ↔ r.blocks[n]? = some b ∧ r' = r := by
  simp only [block, yields_bind, yields_engine, yields_ofViolation, Context.block, Context.node, Run.blocks,
    List.getElem?_map]
  constructor
  · rintro ⟨e, r₁, ⟨rfl, rfl⟩, h, rfl⟩
    refine ⟨?_, rfl⟩
    cases hnode : r'.engine.context.nodes[n]? with
    | none => simp [hnode, bind, Except.bind] at h
    | some node => simpa [hnode, bind, Except.bind, pure, Except.pure] using h
  · rintro ⟨h, rfl⟩
    refine ⟨_, _, ⟨rfl, rfl⟩, ?_, rfl⟩
    cases hnode : r'.engine.context.nodes[n]? with
    | none => simp [hnode] at h
    | some node => simpa [hnode, bind, Except.bind, pure, Except.pure] using h

theorem yields_env {n : ℕ} {r r' : Run Ω S} {env : Environment} (h : Yields (Analysis.env n) r env r') : r' = r := by
  simp only [Analysis.env, yields_bind, yields_engine, yields_ofViolation, yields_pure] at h
  obtain ⟨e, r₁, ⟨rfl, rfl⟩, node, r₂, ⟨-, rfl⟩, -, rfl⟩ := h
  rfl

theorem yields_arena {r r' : Run Ω S} {a : Arena} :
    Yields (arena : Analysis Ω S _) r a r' ↔ a = r.arena ∧ r' = r := by
  simp only [arena, yields_bind, yields_engine, yields_pure]
  constructor
  · rintro ⟨e, r₁, ⟨rfl, rfl⟩, rfl, rfl⟩
    exact ⟨rfl, rfl⟩
  · rintro ⟨rfl, rfl⟩
    exact ⟨_, _, ⟨rfl, rfl⟩, rfl, rfl⟩

theorem yields_nodeCount {r r' : Run Ω S} {n : ℕ} (h : Yields (nodeCount : Analysis Ω S _) r n r') :
    n = r.engine.context.nodes.length ∧ r' = r := by
  simp only [nodeCount, yields_bind, yields_engine, yields_pure] at h
  obtain ⟨e, r₁, ⟨rfl, rfl⟩, rfl, rfl⟩ := h
  exact ⟨rfl, rfl⟩

/-- Every step of a loop over a list keeps the invariant, establishes the property of its element and keeps
those of the others. -/
theorem yields_forM {l : List α} {f : α → Analysis Ω S Unit} {I : Run Ω S → Prop} {Q : α → Run Ω S → Prop}
    {r r' : Run Ω S} {u : Unit} (h : Yields (l.forM f) r u r') (hI : I r)
    (hstep : ∀ a ∈ l, ∀ r r', I r → Yields (f a) r () r' → I r' ∧ Q a r' ∧ ∀ b, Q b r → Q b r') :
    I r' ∧ (∀ a ∈ l, Q a r') ∧ ∀ b, Q b r → Q b r' := by
  induction l generalizing r with
  | nil =>
    obtain ⟨-, rfl⟩ := yields_pure.mp h
    exact ⟨hI, by simp, fun b hb => hb⟩
  | cons a l ih =>
    rw [show List.forM (a :: l) f = (f a >>= fun _ => l.forM f) from rfl, yields_bind] at h
    obtain ⟨u₁, r₁, hf, h⟩ := h
    obtain ⟨hI₁, hQ, hkeep⟩ := hstep a (by simp) r r₁ hI hf
    obtain ⟨hI', hall, hkeep'⟩ := ih h hI₁ fun b hb => hstep b (by simp [hb])
    refine ⟨hI', fun b hb => ?_, fun b hb => hkeep' b (hkeep b hb)⟩
    rcases List.mem_cons.mp hb with rfl | hb
    · exact hkeep' b hQ
    · exact hall b hb

theorem yields_forM_of_mapM {l : List α} {f : α → Analysis Ω S β} {r r' : Run Ω S} {bs : List β}
    (h : Yields (l.mapM f) r bs r') : Yields (l.forM fun a => f a >>= fun _ => pure ()) r () r' := by
  induction l generalizing r bs with
  | nil =>
    rw [List.mapM_nil, yields_pure] at h
    exact yields_pure.mpr ⟨rfl, h.2⟩
  | cons a l ih =>
    simp only [List.mapM_cons, yields_bind, yields_pure] at h
    obtain ⟨b, r₁, hf, bs', r₂, hl, -, rfl⟩ := h
    refine yields_bind.mpr ⟨(), r₁, ?_, ih hl⟩
    exact yields_bind.mpr ⟨b, r₁, hf, yields_pure.mpr ⟨rfl, rfl⟩⟩

theorem yields_modifyStats {f : Stats → Stats} {r r' : Run Ω S} {u : Unit} (h : Yields (modifyStats f) r u r') :
    r.Quiet r' :=
  ⟨_, _, _, _, yields_modifyEngine.mp h⟩

theorem yields_checkDeadline {su : Setup} {r r' : Run Ω S} {u : Unit} (h : Yields (checkDeadline su) r u r') :
    r.Quiet r' := by
  simp only [checkDeadline, yields_bind, yields_engine, yields_modifyEngine] at h
  obtain ⟨e, r₁, ⟨rfl, rfl⟩, u₁, r₂, rfl, h⟩ := h
  split at h
  · simp only [yields_bind] at h
    obtain ⟨u₂, r₃, -, h⟩ := h
    exact absurd h not_yields_throw
  · obtain ⟨-, rfl⟩ := yields_pure.mp h
    exact ⟨_, _, _, _, rfl⟩

theorem yields_transform {su : Setup} {p : Path} {v w : Value} {r r' : Run Ω S}
    (h : Yields (transform su p v) r w r') : w = su.transfer.along p v ∧ r.Quiet r' := by
  simp only [transform, yields_bind, yields_modifyEngine, yields_pure] at h
  obtain ⟨u₁, r₁, rfl, u₂, r₂, hd, rfl, rfl⟩ := h
  exact ⟨rfl, Run.Quiet.trans ⟨_, _, _, _, rfl⟩ (yields_checkDeadline hd)⟩

theorem yields_transformEdge {su : Setup} {n succ : ℕ} {v w : Value} {r r' : Run Ω S}
    (h : Yields (transformEdge su n succ v) r w r') :
    ∃ a b env, r.blocks[n]? = some a ∧ r.blocks[succ]? = some b ∧
      w = (su.transfer.edge a b (su.transfer.block a v)).withEnv env ∧ r.Quiet r' := by
  simp only [transformEdge, transformNodes, yields_bind, yields_pure, List.mapM_cons, List.mapM_nil, yields_block] at h
  obtain ⟨x, r₁, ⟨bs, r₂, ⟨a, r₃, ⟨ha, rfl⟩, bs', r₄, ⟨b, r₅, ⟨hb, rfl⟩, bs'', r₆, ⟨rfl, rfl⟩, rfl, rfl⟩, rfl, rfl⟩, ht⟩,
    env, r₇, henv, rfl, rfl⟩ := h
  obtain ⟨rfl, hq⟩ := yields_transform ht
  obtain rfl := yields_env henv
  exact ⟨a, b, env, ha, hb, rfl, hq⟩

theorem yields_widenToThresholds {su : Setup} {v w x : Value} {r r' : Run Ω S}
    (h : Yields (widenToThresholds su v w) r x r') :
    (∃ thresholds, Value.widenTo thresholds v w = .ok x) ∧ r.Quiet r' := by
  simp only [widenToThresholds, yields_bind, yields_engine, yields_ofFault, yields_pure] at h
  obtain ⟨e, r₁, ⟨rfl, rfl⟩, y, r₂, ⟨hw, rfl⟩, u₁, r₃, hs, u₂, r₄, hd, rfl, rfl⟩ := h
  exact ⟨⟨_, hw⟩, (yields_modifyStats hs).trans (yields_checkDeadline hd)⟩

theorem yields_widen {su : Setup} {v w x : Value} {r r' : Run Ω S} (h : Yields (widen su v w) r x r') :
    (∃ thresholds, Value.widenTo thresholds v w = .ok x) ∧ r.Quiet r' := by
  simp only [widen, yields_bind, yields_engine, yields_ofFault, yields_pure] at h
  obtain ⟨e, r₁, ⟨rfl, rfl⟩, y, r₂, ⟨hw, rfl⟩, u₁, r₃, hs, u₂, r₄, hd, rfl, rfl⟩ := h
  exact ⟨⟨_, hw⟩, (yields_modifyStats hs).trans (yields_checkDeadline hd)⟩

theorem yields_meetKnown {su : Setup} {n : ℕ} {v w : Value} {r r' : Run Ω S} (h : Yields (meetKnown su n v) r w r') :
    ∃ s, r.slots? su.key n = some s ∧ r' = r ∧
      ((s.known.first.isBottom = true ∧ w = v) ∨ (s.known.first.isBottom = false ∧ v.meet s.known.first = .ok w)) := by
  simp only [meetKnown, yields_bind, yields_value] at h
  obtain ⟨known, r₁, ⟨⟨s, hs, rfl⟩, rfl⟩, h⟩ := h
  refine ⟨s, hs, ?_⟩
  split at h
  · rename_i hb
    obtain ⟨rfl, rfl⟩ := yields_pure.mp h
    exact ⟨rfl, .inl ⟨hb, rfl⟩⟩
  · rename_i hb
    obtain ⟨hw, rfl⟩ := yields_ofFault.mp h
    exact ⟨rfl, .inr ⟨Bool.eq_false_iff.mpr hb, hw⟩⟩

theorem yields_isWidening {n : ℕ} {r r' : Run Ω S} {b : Bool} (h : Yields (isWidening n) r b r') : r' = r := by
  simp only [isWidening, yields_bind, yields_arena, yields_pure] at h
  obtain ⟨a, r₁, ⟨rfl, rfl⟩, -, rfl⟩ := h
  rfl

theorem yields_bottom {su : Setup} {n : ℕ} {r r' : Run Ω S} {v : Value} (h : Yields (bottom su n) r v r') :
    (∃ env, v = .bottom su.options.domain env) ∧ r' = r := by
  simp only [bottom, yields_bind, yields_pure] at h
  obtain ⟨env, r₁, henv, rfl, rfl⟩ := h
  exact ⟨⟨env, rfl⟩, yields_env henv⟩

theorem yields_disjunct {su : Setup} {n i : ℕ} {sl : Slot} {r r' : Run Ω S} {v : Value}
    (h : Yields (disjunct su n sl i) r v r') : ∃ s, r.slots? su.key n = some s ∧ r' = r ∧
      ((s.get sl).get? i = some v ∨ (s.get sl).get? i = none ∧ ∃ env, v = .bottom su.options.domain env) := by
  simp only [disjunct, yields_bind, yields_slot] at h
  obtain ⟨d, r₁, ⟨⟨s, hs, rfl⟩, rfl⟩, h⟩ := h
  refine ⟨s, hs, ?_⟩
  cases hi : (s.get sl).get? i with
  | some w =>
    rw [hi] at h
    obtain ⟨rfl, rfl⟩ := yields_pure.mp h
    exact ⟨rfl, .inl rfl⟩
  | none =>
    rw [hi] at h
    obtain ⟨henv, rfl⟩ := yields_bottom h
    exact ⟨rfl, .inr ⟨rfl, henv⟩⟩

theorem yields_destinationOf {p : Path} {n : ℕ} {r r' : Run Ω S} (h : Yields (destinationOf p) r n r') : r' = r := by
  unfold destinationOf at h
  split at h
  · simp only [indexOf, yields_bind, yields_arena] at h
    obtain ⟨a, r₁, ⟨rfl, rfl⟩, h⟩ := h
    split at h
    · exact (yields_pure.mp h).2
    · exact absurd h not_yields_throw
  · exact absurd h not_yields_throw

theorem yields_startsPaths {n : ℕ} {b : Bool} {r r' : Run Ω S} (h : Yields (startsPaths n) r b r') :
    b = (r.arena.cuts.isCut n && !r.arena.cuts.isErrorSite n && !(r.arena.cuts.successors n).isEmpty) ∧ r' = r := by
  simp only [startsPaths, yields_bind, yields_arena, yields_pure] at h
  obtain ⟨a, r₁, ⟨rfl, rfl⟩, rfl, rfl⟩ := h
  exact ⟨rfl, rfl⟩

/-- The first sighting of a cyclic path is recorded. The second leaves a widened disjunct behind, with the disjunct
of departure as it was. -/
theorem yields_loopStep {su : Setup} {n source target : ℕ} {p : Path} {step step' : LoopStep} {r r' : Run Ω S}
    (h : Yields (loopStep su n source target p step) r step' r') :
    (step'.image = step.image ∧ r' = r) ∨ ∃ s backup previous widened env thresholds,
      r.slots? su.key n = some s ∧
      (s.stable.get? source = some backup ∨ s.stable.get? source = none ∧ ∃ e, backup = .bottom su.options.domain e) ∧
      (s.stable.get? target = some previous ∨ s.stable.get? target = none ∧ ∃ e, previous = .bottom su.options.domain e) ∧
      Value.widenTo thresholds previous (previous.joinOver env [step.image]) = .ok widened ∧
      step'.image = (su.transfer.along p widened).withEnv env ∧
      (r.put su.key n { s with stable := (s.stable.set target widened).set source backup }).Quiet r' := by
  unfold loopStep at h
  split at h
  · simp only [yields_bind, yields_pure] at h
    obtain ⟨env, r₁, henv, backup, r₂, hbackup, previous, r₃, hprevious, widened, r₄, hwiden, u₁, r₅, hset, image, r₆,
      himage, u₂, r₇, hreset, rfl, rfl⟩ := h
    obtain rfl := yields_env henv
    obtain ⟨s, hs, rfl, hb⟩ := yields_disjunct hbackup
    obtain ⟨s', hs', rfl, hp⟩ := yields_disjunct hprevious
    obtain rfl : s = s' := Option.some.inj (hs.symm.trans hs')
    obtain ⟨⟨thresholds, hwiden⟩, hq⟩ := yields_widenToThresholds hwiden
    obtain ⟨s₁, hs₁, rfl⟩ := yields_setDisjunct hset
    obtain rfl : s = s₁ := Option.some.inj (hs.symm.trans ((hq.slots? _ _).symm.trans hs₁))
    obtain ⟨rfl, hq'⟩ := yields_transform himage
    obtain ⟨s₂, hs₂, rfl⟩ := yields_setDisjunct hreset
    rw [hq'.slots?, Run.slots?_put _ _ _ _ _ (by rw [hs₁]; rfl), if_pos rfl] at hs₂
    obtain rfl := Option.some.inj hs₂
    refine .inr ⟨s, backup, previous, widened, env, thresholds, hs, hb, hp, hwiden, rfl, ?_⟩
    have hput := ((hq.put su.key n _).trans hq').put su.key n
      { s with stable := (s.stable.set target widened).set source backup }
    exact (Run.put_put ..).trans hput
  · obtain ⟨rfl, rfl⟩ := yields_pure.mp h
    exact .inl ⟨rfl, rfl⟩

/-- A loop over the worklist ends with nothing waiting. -/
theorem yields_drain {visit : ℕ → Analysis Ω S Unit} {I : Run Ω S → Prop} {fuel : ℕ} {r r' : Run Ω S} {u : Unit}
    (h : Yields (drain visit fuel) r u r') (hI : I r)
    (hskip : ∀ r n label queue, I r → r.engine.worklist.queue = (n, label) :: queue → r.computed? n = some true →
      I { r with engine := { r.engine with worklist := ⟨queue⟩ } })
    (hvisit : ∀ r n label queue r', I r → r.engine.worklist.queue = (n, label) :: queue →
      Yields (visit n) { r with engine := { r.engine with worklist := ⟨queue⟩ } } () r' → I r') :
    I r' ∧ r'.engine.worklist = .empty := by
  induction fuel generalizing r with
  | zero => exact absurd h not_yields_throw
  | succ fuel ih =>
    simp only [drain, yields_bind] at h
    obtain ⟨popped, r₁, hpop, h⟩ := h
    rcases yields_pop? hpop with ⟨rfl, hempty, rfl⟩ | ⟨n, label, queue, rfl, hqueue, rfl⟩
    · obtain ⟨-, rfl⟩ := yields_pure.mp h
      exact ⟨hI, hempty⟩
    · simp only [yields_bind, yields_isComputed] at h
      obtain ⟨b, r₂, ⟨hb, rfl⟩, h⟩ := h
      cases b with
      | true => exact ih h (hskip r n label queue hI hqueue hb)
      | false =>
        obtain ⟨u₁, r₃, hv, h⟩ := yields_bind.mp h
        exact ih h (hvisit r n label queue r₃ hI hqueue hv)

/-- Nothing but the slots of the nodes chosen by `P` differs, and those are related by `R`. -/
structure Rewrites (key : Key) (P : ℕ → Prop) (R : ℕ → Slots Disjunction → Slots Disjunction → Prop)
    (r r' : Run Ω S) : Prop where
  arena : r'.arena = r.arena
  blocks : r'.blocks = r.blocks
  length : r'.engine.context.nodes.length = r.engine.context.nodes.length
  oracle : r'.engine.oracle = r.engine.oracle
  worklist : r'.engine.worklist = r.engine.worklist
  computed : r'.engine.computed = r.engine.computed
  memory : r'.memory = r.memory
  others : ∀ n, ¬ P n → r'.slots? key n = r.slots? key n
  slots : ∀ n, P n → ∀ s, r.slots? key n = some s → ∃ s', r'.slots? key n = some s' ∧ R n s s'
  absent : ∀ n, r.slots? key n = none → r'.slots? key n = none
  aside : ∀ other, other ≠ key → ∀ n, r'.slots? other n = r.slots? other n

theorem Rewrites.put {R : ℕ → Slots Disjunction → Slots Disjunction → Prop} {r : Run Ω S} {key : Key} {n : ℕ}
    {s s' : Slots Disjunction} (hs : r.slots? key n = some s) (hR : R n s s') :
    Rewrites key (· = n) R r (r.put key n s') := by
  have hput := r.slots?_put key n s'
  have hsome : (r.slots? key n).isSome = true := by rw [hs]; rfl
  refine ⟨rfl, r.blocks_put key n s', by simp [Run.put], rfl, rfl, rfl, rfl, fun m hm => ?_, fun m hm t ht => ?_,
    fun m hm => ?_, fun other h m => Run.slots?_put_of_ne h r n s' m⟩
  · rw [hput m hsome, if_neg hm]
  · subst hm
    obtain rfl : s = t := Option.some.inj (hs.symm.trans ht)
    exact ⟨s', by rw [hput m hsome, if_pos rfl], hR⟩
  · rw [hput m hsome, if_neg, hm]
    rintro rfl
    rw [hs] at hm
    cases hm

/-- A loop that rewrites the slots of each node in turn. Its steps still find the slots of other runs as they were. -/
theorem yields_forM_rewrites {R : ℕ → Slots Disjunction → Slots Disjunction → Prop} {f : ℕ → Analysis Ω S Unit}
    {key : Key} {l : List ℕ} {r r' : Run Ω S} {u : Unit} (hl : l.Nodup)
    (hstep : ∀ n ∈ l, ∀ x x', (∀ other, other ≠ key → ∀ m, x.slots? other m = r.slots? other m) →
      Yields (f n) x () x' → Rewrites key (· = n) R x x') (h : Yields (l.forM f) r u r') :
    Rewrites key (· ∈ l) R r r' := by
  induction l generalizing r with
  | nil =>
    obtain ⟨-, rfl⟩ := yields_pure.mp h
    exact ⟨rfl, rfl, rfl, rfl, rfl, rfl, rfl, fun _ _ => rfl, by simp, fun _ h => h, fun _ _ _ => rfl⟩
  | cons n l ih =>
    rw [show List.forM (n :: l) f = (f n >>= fun _ => l.forM f) from rfl, yields_bind] at h
    obtain ⟨u₁, r₁, hf, h⟩ := h
    obtain ⟨hn, hl⟩ := List.nodup_cons.mp hl
    have h₁ := hstep n (by simp) r r₁ (fun _ _ _ => rfl) hf
    have h₂ := ih hl (fun m hm x x' hx => hstep m (by simp [hm]) x x' fun other ho i =>
      (hx other ho i).trans (h₁.aside other ho i)) h
    refine ⟨h₂.arena.trans h₁.arena, h₂.blocks.trans h₁.blocks, h₂.length.trans h₁.length, h₂.oracle.trans h₁.oracle,
      h₂.worklist.trans h₁.worklist, h₂.computed.trans h₁.computed, h₂.memory.trans h₁.memory, fun m hm => ?_,
      fun m hm s hs => ?_, fun m hm => h₂.absent m (h₁.absent m hm),
      fun other ho m => (h₂.aside other ho m).trans (h₁.aside other ho m)⟩
    · rw [List.mem_cons, not_or] at hm
      rw [h₂.others m hm.2, h₁.others m hm.1]
    · rcases List.mem_cons.mp hm with rfl | hml
      · obtain ⟨s', hs', hR⟩ := h₁.slots m rfl s hs
        exact ⟨s', by rw [h₂.others m hn, hs'], hR⟩
      · refine h₂.slots m hml s ?_
        rw [h₁.others m, hs]
        rintro rfl
        exact hn hml

theorem Rewrites.exists_slots {key : Key} {P : ℕ → Prop} {R : ℕ → Slots Disjunction → Slots Disjunction → Prop}
    {r r' : Run Ω S} {n : ℕ} {s' : Slots Disjunction} (h : Rewrites key P R r r')
    (hs : r'.slots? key n = some s') : ∃ s, r.slots? key n = some s ∧ (P n ∧ R n s s' ∨ ¬ P n ∧ s' = s) := by
  by_cases hn : P n
  · cases hr : r.slots? key n with
    | none =>
      rw [h.absent n hr] at hs
      cases hs
    | some s =>
      obtain ⟨t, ht, hR⟩ := h.slots n hn s hr
      obtain rfl : t = s' := Option.some.inj (ht.symm.trans hs)
      exact ⟨s, rfl, .inl ⟨hn, hR⟩⟩
  · rw [h.others n hn] at hs
    exact ⟨s', hs, .inr ⟨hn, rfl⟩⟩

/-- A loop over all nodes rewrites the slots of every node that has some. -/
theorem Rewrites.of_range {key : Key} {R : ℕ → Slots Disjunction → Slots Disjunction → Prop} {count : ℕ}
    {r r' : Run Ω S} (h : Rewrites key (· ∈ List.range count) R r r')
    (hc : count = r.engine.context.nodes.length) : Rewrites key (fun _ => True) R r r' := by
  have hlt : ∀ n, n ∉ List.range count → r.slots? key n = none := by
    intro n hn
    rw [List.mem_range] at hn
    rw [Run.slots?, List.getElem?_eq_none (by omega)]
    rfl
  refine ⟨h.arena, h.blocks, h.length, h.oracle, h.worklist, h.computed, h.memory, fun n hn => absurd trivial hn,
    fun n _ s hs => ?_, h.absent, h.aside⟩
  refine h.slots n ?_ s hs
  by_contra hn
  rw [hlt n hn] at hs
  cases hs

end Analysis

end PathInvariants
