import PathInvariants.Proofs.Preparation
import PathInvariants.Proofs.WideningHeight

/-!
# Total runs

Computations that end without a failure. `Ensures m r Q` says that `m` ends from `r` in a state that
satisfies `Q`. While all values at a node speak about the environment of the node and there is no
deadline, the operations of the engine cannot fail.
-/
namespace PathInvariants

variable {Ω S α β : Type}

/-- The computation ends without a failure, and what it gives satisfies `Q`. -/
def Ensures (m : Analysis Ω S α) (r : Run Ω S) (Q : α → Run Ω S → Prop) : Prop := ∃ a r', Yields m r a r' ∧ Q a r'

theorem Ensures.mono {m : Analysis Ω S α} {r : Run Ω S} {Q Q' : α → Run Ω S → Prop} (h : Ensures m r Q)
    (hQ : ∀ a r', Q a r' → Q' a r') : Ensures m r Q' := by
  obtain ⟨a, r', hm, ha⟩ := h
  exact ⟨a, r', hm, hQ a r' ha⟩

theorem Ensures.of_yields {m : Analysis Ω S α} {r r' : Run Ω S} {a : α} {Q : α → Run Ω S → Prop} (h : Ensures m r Q)
    (hm : Yields m r a r') : Q a r' := by
  obtain ⟨b, r₁, hb, hQ⟩ := h
  obtain ⟨hab, rfl⟩ := Prod.mk.inj (hm.symm.trans hb)
  rwa [Except.ok.inj hab]

theorem ensures_pure {a : α} {r : Run Ω S} {Q : α → Run Ω S → Prop} : Ensures (pure a) r Q ↔ Q a r := by
  simp only [Ensures, yields_pure]
  constructor
  · rintro ⟨b, r', ⟨rfl, rfl⟩, h⟩
    exact h
  · exact fun h => ⟨a, r, ⟨rfl, rfl⟩, h⟩

theorem ensures_bind {m : Analysis Ω S α} {f : α → Analysis Ω S β} {r : Run Ω S} {Q : β → Run Ω S → Prop} :
    Ensures (m >>= f) r Q ↔ Ensures m r fun a r₁ => Ensures (f a) r₁ Q := by
  simp only [Ensures, yields_bind]
  constructor
  · rintro ⟨b, r', ⟨a, r₁, hm, hf⟩, hQ⟩
    exact ⟨a, r₁, hm, b, r', hf, hQ⟩
  · rintro ⟨a, r₁, hm, b, r', hf, hQ⟩
    exact ⟨b, r', ⟨a, r₁, hm, hf⟩, hQ⟩

/-- A loop over a list ends when every step keeps the invariant. -/
theorem ensures_forM {l : List α} {f : α → Analysis Ω S Unit} {I : Run Ω S → Prop} {r : Run Ω S} (hI : I r)
    (hstep : ∀ a ∈ l, ∀ r, I r → Ensures (f a) r fun _ r' => I r') : Ensures (l.forM f) r fun _ r' => I r' := by
  induction l generalizing r with
  | nil => exact ensures_pure.mpr hI
  | cons a l ih =>
    refine ensures_bind.mpr ((hstep a (by simp) r hI).mono fun _ r₁ h₁ => ?_)
    exact ih h₁ fun b hb => hstep b (by simp [hb])

theorem ensures_mapM {l : List α} {f : α → Analysis Ω S β} {I : Run Ω S → Prop} {r : Run Ω S} (hI : I r)
    (hstep : ∀ a ∈ l, ∀ r, I r → Ensures (f a) r fun _ r' => I r') : Ensures (l.mapM f) r fun _ r' => I r' := by
  induction l generalizing r with
  | nil =>
    rw [List.mapM_nil]
    exact ensures_pure.mpr hI
  | cons a l ih =>
    simp only [List.mapM_cons, ensures_bind, ensures_pure]
    refine (hstep a (by simp) r hI).mono fun b r₁ h₁ => ?_
    exact ih h₁ fun b hb => hstep b (by simp [hb])

/-- The environment of a node. -/
def Run.env? (r : Run Ω S) (n : ℕ) : Option Environment := (r.engine.context.nodes[n]?).map (·.env)

/-- The run with a node marked as computed, or as not computed. -/
def Run.mark (r : Run Ω S) (n : ℕ) (b : Bool) : Run Ω S :=
  { r with engine := { r.engine with computed := r.engine.computed.set n b } }

/-- The run with nothing waiting and none of its nodes computed. -/
def Run.fresh (r : Run Ω S) (count : ℕ) : Run Ω S :=
  { r with engine := { r.engine with worklist := .empty, computed := (List.range count).map fun _ => false } }

/-- The run with another node in place. -/
def Run.setNode (r : Run Ω S) (n : ℕ) (node : Node Disjunction) : Run Ω S :=
  { r with engine := { r.engine with context := r.engine.context.setNode n node } }

theorem Run.env?_put (r : Run Ω S) (key : Key) (n : ℕ) (s : Slots Disjunction) (m : ℕ) :
    (r.put key n s).env? m = r.env? m := by
  simp only [env?, put, List.getElem?_modify]
  cases r.engine.context.nodes[m]? with
  | none => rfl
  | some node => by_cases hnm : n = m <;> simp [hnm, Node.setSlots, Node.dropSlots]

/-- The join of `v` and `w`, where `w` takes the place of a bottom `v`. -/
def Value.absorb (v w : Value) : Value := if v.isBottom then w else v.joinAligned w

theorem Value.env_absorb {v w : Value} {env : Environment} (hv : v.env = env) (hw : w.env = env) :
    (v.absorb w).env = env := by
  unfold absorb
  split
  · exact hw
  · exact (env_joinAligned v w).trans hv

namespace Analysis

variable {su : Setup} {r : Run Ω S} {n : ℕ}

theorem ensures_engine {Q : Engine Ω → Run Ω S → Prop} : Ensures engine r Q ↔ Q r.engine r := by
  simp [Ensures, yields_engine]

theorem ensures_memory {Q : S → Run Ω S → Prop} : Ensures memory r Q ↔ Q r.memory r := by
  simp [Ensures, yields_memory]

theorem ensures_arena {Q : Arena → Run Ω S → Prop} : Ensures arena r Q ↔ Q r.arena r := by
  simp [Ensures, yields_arena]

theorem ensures_modifyEngine {f : Engine Ω → Engine Ω} {Q : Unit → Run Ω S → Prop} :
    Ensures (modifyEngine f) r Q ↔ Q () { r with engine := f r.engine } := by
  constructor
  · rintro ⟨u, r', h, hQ⟩
    rwa [yields_modifyEngine.mp h] at hQ
  · exact fun hQ => ⟨(), _, yields_modifyEngine.mpr rfl, hQ⟩

theorem ensures_modifyMemory {f : S → S} {Q : Unit → Run Ω S → Prop} :
    Ensures (modifyMemory f) r Q ↔ Q () { r with memory := f r.memory } := by
  constructor
  · rintro ⟨u, r', h, hQ⟩
    rwa [yields_modifyMemory.mp h] at hQ
  · exact fun hQ => ⟨(), _, yields_modifyMemory.mpr rfl, hQ⟩

theorem ensures_push {Q : Unit → Run Ω S → Prop} : Ensures (push n) r Q ↔
    Q () { r with engine := { r.engine with worklist := r.engine.worklist.push n (r.arena.label n) } } :=
  ensures_modifyEngine

theorem ensures_nodeCount {Q : ℕ → Run Ω S → Prop} : Ensures nodeCount r Q ↔ Q r.engine.context.nodes.length r := by
  simp only [nodeCount, ensures_bind, ensures_engine, ensures_pure]
  rfl

theorem ensures_isWidening {Q : Bool → Run Ω S → Prop} : Ensures (isWidening n) r Q ↔ Q (r.arena.cuts.isWidening n) r := by
  simp only [isWidening, ensures_bind, ensures_arena, ensures_pure]

theorem ensures_ofFault {x : Except Fault α} {Q : α → Run Ω S → Prop} :
    Ensures (ofFault x) r Q ↔ ∃ a, x = .ok a ∧ Q a r := by
  simp only [Ensures, yields_ofFault]
  constructor
  · rintro ⟨a, r', ⟨ha, rfl⟩, hQ⟩
    exact ⟨a, ha, hQ⟩
  · rintro ⟨a, ha, hQ⟩
    exact ⟨a, r, ⟨ha, rfl⟩, hQ⟩

theorem ensures_ofViolation {x : Except Violation α} {Q : α → Run Ω S → Prop} :
    Ensures (ofViolation x) r Q ↔ ∃ a, x = .ok a ∧ Q a r := by
  simp only [Ensures, yields_ofViolation]
  constructor
  · rintro ⟨a, r', ⟨ha, rfl⟩, hQ⟩
    exact ⟨a, ha, hQ⟩
  · rintro ⟨a, ha, hQ⟩
    exact ⟨a, r, ⟨ha, rfl⟩, hQ⟩

theorem ensures_liftExcept {x : Except Failure α} {Q : α → Run Ω S → Prop} :
    Ensures (liftExcept x) r Q ↔ ∃ a, x = .ok a ∧ Q a r := by
  simp only [Ensures, yields_liftExcept]
  constructor
  · rintro ⟨a, r', ⟨ha, rfl⟩, hQ⟩
    exact ⟨a, ha, hQ⟩
  · rintro ⟨a, ha, hQ⟩
    exact ⟨a, r, ⟨ha, rfl⟩, hQ⟩

theorem ensures_startsPaths {Q : Bool → Run Ω S → Prop} : Ensures (startsPaths n) r Q ↔
    Q (r.arena.cuts.isCut n && !r.arena.cuts.isErrorSite n && !(r.arena.cuts.successors n).isEmpty) r := by
  simp only [startsPaths, ensures_bind, ensures_arena, ensures_pure]

theorem ensures_block {Q : Block → Run Ω S → Prop} :
    Ensures (block n) r Q ↔ ∃ b, r.blocks[n]? = some b ∧ Q b r := by
  simp only [Ensures, yields_block]
  constructor
  · rintro ⟨b, r', ⟨hb, rfl⟩, hQ⟩
    exact ⟨b, hb, hQ⟩
  · rintro ⟨b, hb, hQ⟩
    exact ⟨b, r, ⟨hb, rfl⟩, hQ⟩

theorem ensures_env {Q : Environment → Run Ω S → Prop} {env : Environment} (henv : r.env? n = some env) :
    Ensures (Analysis.env n) r Q ↔ Q env r := by
  obtain ⟨node, hnode, rfl⟩ := Option.map_eq_some_iff.mp henv
  have hyields : Yields (Analysis.env n) r node.env r := by
    simp only [Analysis.env, yields_bind, yields_engine, yields_ofViolation, yields_pure]
    refine ⟨_, _, ⟨rfl, rfl⟩, node, r, ⟨?_, rfl⟩, rfl, rfl⟩
    rw [Context.node, hnode]
  exact ⟨fun h => h.of_yields hyields, fun hQ => ⟨_, _, hyields, hQ⟩⟩

theorem yields_env_eq {env env' : Environment} {r' : Run Ω S} (henv : r.env? n = some env)
    (h : Yields (Analysis.env n) r env' r') : env' = env ∧ r' = r :=
  Ensures.of_yields (Q := fun a x => a = env ∧ x = r) ((ensures_env henv).mpr ⟨rfl, rfl⟩) h

theorem ensures_slots {Q : Slots Disjunction → Run Ω S → Prop} {s : Slots Disjunction}
    (hs : r.slots? su.key n = some s) : Ensures (slots su n) r Q ↔ Q s r := by
  simp [Ensures, yields_slots, hs]

theorem ensures_value {Q : Value → Run Ω S → Prop} {sl : Slot} {s : Slots Disjunction}
    (hs : r.slots? su.key n = some s) : Ensures (value su n sl) r Q ↔ Q (s.get sl).first r := by
  simp only [value_eq, slot, ensures_bind, ensures_slots hs, ensures_pure]

theorem ensures_setSlots {Q : Unit → Run Ω S → Prop} {s t : Slots Disjunction} (hs : r.slots? su.key n = some s) :
    Ensures (setSlots su n t) r Q ↔ Q () (r.put su.key n t) := by
  obtain ⟨r', hyields⟩ : ∃ r', Yields (setSlots su n t) r () r' := by
    obtain ⟨node, hnode, -⟩ := Option.bind_eq_some_iff.mp hs
    simp only [setSlots, yields_bind, yields_engine, yields_ofViolation, yields_modifyEngine]
    refine ⟨_, _, _, ⟨rfl, rfl⟩, r.engine.context.setNode n (node.setSlots su.key t), _, ⟨?_, rfl⟩, rfl⟩
    rw [Context.setSlots, Context.node, hnode]
    rfl
  constructor
  · rintro ⟨u, r₁, h, hQ⟩
    rwa [yields_setSlots h] at hQ
  · exact fun hQ => ⟨(), r', hyields, by rwa [yields_setSlots hyields]⟩

theorem ensures_setSlot {Q : Unit → Run Ω S → Prop} {sl : Slot} {d : Disjunction} {s : Slots Disjunction}
    (hs : r.slots? su.key n = some s) : Ensures (setSlot su n sl d) r Q ↔ Q () (r.put su.key n (s.set sl d)) := by
  simp only [setSlot, ensures_bind, ensures_slots hs, ensures_setSlots hs]

theorem ensures_setDisjunct {Q : Unit → Run Ω S → Prop} {sl : Slot} {i : ℕ} {v : Value} {s : Slots Disjunction}
    (hs : r.slots? su.key n = some s) :
    Ensures (setDisjunct su n sl i v) r Q ↔ Q () (r.put su.key n (s.set sl ((s.get sl).set i v))) := by
  simp only [setDisjunct, slot, ensures_bind, ensures_slots hs, ensures_pure, ensures_setSlot hs]

theorem ensures_disjunct {Q : Value → Run Ω S → Prop} {sl : Slot} {s : Slots Disjunction}
    (hs : r.slots? su.key n = some s) : Ensures (disjunct su n sl 0) r Q ↔ Q (s.get sl).first r := by
  simp only [disjunct, slot, ensures_bind, ensures_slots hs, ensures_pure]
  exact ensures_pure

theorem ensures_setValue {Q : Unit → Run Ω S → Prop} {sl : Slot} {v : Value} {s : Slots Disjunction}
    (hs : r.slots? su.key n = some s) :
    Ensures (setValue su n sl v) r Q ↔ Q () (r.put su.key n (s.set sl ((s.get sl).set 0 v))) := by
  simp only [setValue, ensures_setDisjunct hs]

/-- Where nothing is known, the value stays as it is. -/
theorem ensures_meetKnown {Q : Value → Run Ω S → Prop} {v : Value} {s : Slots Disjunction}
    (hs : r.slots? su.key n = some s) (hknown : s.known.first.isBottom = true) :
    Ensures (meetKnown su n v) r Q ↔ Q v r := by
  simp only [meetKnown, ensures_bind, ensures_value hs, Slots.get, hknown, if_true, ensures_pure]

/-- A meet with what is known over the same environment. -/
theorem ensures_meetKnown_of_env {v : Value} {s : Slots Disjunction} (hs : r.slots? su.key n = some s)
    (henv : v.env = s.known.first.env) : Ensures (meetKnown su n v) r fun x r' =>
      r' = r ∧ x.env = v.env ∧ if s.known.first.isBottom then x = v else v.meet s.known.first = .ok x := by
  cases hknown : s.known.first.isBottom with
  | true => exact (ensures_meetKnown hs hknown).mpr ⟨rfl, rfl, rfl⟩
  | false =>
    obtain ⟨x, hx, hxenv⟩ := Value.exists_meet_of_env henv
    simp only [meetKnown, ensures_bind, ensures_value hs, Slots.get, hknown, Bool.false_eq_true, if_false, ensures_ofFault]
    exact ⟨x, hx, trivial, hxenv, hx⟩

/-- A value is joined into the descending slot over the same environment. -/
theorem ensures_joinDescending {w : Value} {s : Slots Disjunction} {Q : Unit → Run Ω S → Prop}
    (hs : r.slots? su.key n = some s) (henv : s.descending.first.env = w.env) : Ensures (joinDescending su n w) r Q ↔
      Q () (r.put su.key n (s.set .descending (s.descending.set 0 (s.descending.first.absorb w)))) := by
  simp only [joinDescending, ensures_bind, ensures_value hs, Value.absorb]
  cases hbottom : s.descending.first.isBottom with
  | true =>
    rw [if_pos (show (s.get .descending).first.isBottom = true from hbottom), ensures_bind, ensures_pure,
      ensures_setValue hs, if_pos rfl]
    rfl
  | false =>
    rw [if_neg (show ¬ (s.get .descending).first.isBottom = true by simp [Slots.get, hbottom]), ensures_bind,
      show (s.get .descending).first.join w = _ from Value.join_of_env henv, ensures_ofFault, if_neg Bool.false_ne_true]
    simp only [Except.ok.injEq, exists_eq_left', ensures_setValue hs]
    rfl

theorem ensures_isComputed {Q : Bool → Run Ω S → Prop} {b : Bool} (hb : r.computed? n = some b) :
    Ensures (isComputed n) r Q ↔ Q b r := by
  simp [Ensures, yields_isComputed, hb]

theorem ensures_setComputed {Q : Unit → Run Ω S → Prop} {b : Bool} (hn : n < r.engine.computed.length) :
    Ensures (setComputed n b) r Q ↔ Q () (r.mark n b) := by
  simp only [setComputed, ensures_bind, ensures_engine, hn, if_true, ensures_modifyEngine]
  rfl

theorem ensures_checkDeadline {Q : Unit → Run Ω S → Prop} (ht : su.options.timeout = none) :
    Ensures (checkDeadline su) r Q ↔ Q () { r with engine := { r.engine with readings := r.engine.readings + 1 } } := by
  have hexpired : ∀ elapsed, su.options.isExpired elapsed = false := by simp [Options.isExpired, ht]
  simp only [checkDeadline, ensures_bind, ensures_engine, ensures_modifyEngine, hexpired, Bool.false_eq_true, if_false,
    ensures_pure]

end Analysis

/-- What stays the same while a run goes on: the arena, the environments of the nodes, the guards that may become
thresholds, the number of rounds, and whether something may be known from elsewhere. -/
structure Layout where
  arena : Arena
  envs : ℕ → Environment
  thresholds : List LinearConstraint
  rounds : ℕ
  informed : Bool

/-- The layout lists all guards between blocks of its arena. -/
def Layout.Lists (L : Layout) (t : Transfer) : Prop :=
  ∀ a ∈ L.arena.blocks, ∀ b ∈ L.arena.blocks, ∀ c ∈ t.thresholds a b, c ∈ L.thresholds

/-- The image of a value along a path, over the environment of a node. -/
def Layout.image (L : Layout) (t : Transfer) (p : Path) (m : ℕ) (v : Value) : Value := (t.along p v).withEnv (L.envs m)

/-- The value `x` takes the place of `v` at the node when the image `w` comes in: a widening by listed thresholds at
widening points and a join elsewhere, met with what is known. -/
def Layout.Next (L : Layout) (m : ℕ) (known v w x : Value) : Prop :=
  ∃ u, (if L.arena.cuts.isWidening m then
      ∃ thresholds, (∀ c ∈ thresholds, c ∈ L.thresholds) ∧ u = Value.widenAligned thresholds v w else u = w.joinAligned v) ∧
    if known.isBottom then x = u else u.meet known = .ok x

/-- The values that an iteration reads speak about the environment, and nothing is known unless the run is informed. -/
structure Slots.Over (env : Environment) (informed : Bool) (s : Slots Disjunction) : Prop where
  stable : s.stable.first.env = env
  descending : s.descending.first.env = env
  initial : s.initial.first.env = env
  known : s.known.first.env = env
  unknown : informed = false → s.known.first.isBottom = true

namespace Run

/-- The engine can work on from here. -/
structure Operable (key : Key) (L : Layout) (r : Run Ω S) : Prop where
  arena : r.arena = L.arena
  blocks : r.blocks = L.arena.blocks
  envs : ∀ n < L.arena.size, r.env? n = some (L.envs n)
  computed : r.engine.computed.length = L.arena.size
  waiting : ∀ n, r.Waits n → n < L.arena.size
  slots : ∀ n < L.arena.size, ∃ s, r.slots? key n = some s ∧ s.Over (L.envs n) L.informed
  thresholds : ∀ c ∈ r.engine.thresholds, c ∈ L.thresholds
  rounds : r.engine.stats.rounds = L.rounds

variable {key : Key} {L : Layout} {r r' : Run Ω S} {n : ℕ}

namespace Operable

theorem nodes_length (hr : r.Operable key L) : r.engine.context.nodes.length = L.arena.size := by
  simpa [Run.blocks, Arena.size] using congrArg List.length hr.blocks

theorem exists_block (hr : r.Operable key L) (hn : n < L.arena.size) :
    ∃ b ∈ L.arena.blocks, r.blocks[n]? = some b := by
  refine ⟨L.arena.blocks[n], List.getElem_mem hn, ?_⟩
  rw [hr.blocks]
  exact List.getElem?_eq_getElem hn

theorem lt_of_slots {s : Slots Disjunction} (hr : r.Operable key L) (hs : r.slots? key n = some s) : n < L.arena.size := by
  obtain ⟨node, hnode, -⟩ := Option.bind_eq_some_iff.mp hs
  exact hr.nodes_length ▸ (List.getElem?_eq_some_iff.mp hnode).1

theorem exists_computed (hr : r.Operable key L) (hn : n < L.arena.size) : ∃ b, r.computed? n = some b :=
  ⟨_, List.getElem?_eq_getElem (hr.computed.symm ▸ hn)⟩

/-- Slots over the environment of a node may be put there. -/
theorem put (hr : r.Operable key L) (hn : n < L.arena.size) {s : Slots Disjunction} (hs : s.Over (L.envs n) L.informed) :
    (r.put key n s).Operable key L := by
  obtain ⟨t, ht, -⟩ := hr.slots n hn
  refine ⟨hr.arena, (r.blocks_put key n s).trans hr.blocks, fun m hm => ?_, hr.computed, hr.waiting, fun m hm => ?_,
    hr.thresholds, hr.rounds⟩
  · rw [env?_put, hr.envs m hm]
  · rw [r.slots?_put key n s m (by rw [ht]; rfl)]
    split
    · rename_i hmn
      exact ⟨s, rfl, hmn ▸ hs⟩
    · exact hr.slots m hm

theorem mark (hr : r.Operable key L) (n : ℕ) (b : Bool) : (r.mark n b).Operable key L :=
  ⟨hr.arena, hr.blocks, hr.envs, (List.length_set ..).trans hr.computed, hr.waiting, hr.slots, hr.thresholds, hr.rounds⟩

theorem push (hr : r.Operable key L) (hn : n < L.arena.size) :
    Operable key L { r with engine := { r.engine with worklist := r.engine.worklist.push n (r.arena.label n) } } := by
  refine ⟨hr.arena, hr.blocks, hr.envs, hr.computed, fun m hm => ?_, hr.slots, hr.thresholds, hr.rounds⟩
  rcases Worklist.mem_nodes_push.mp hm with rfl | hm
  · exact hn
  · exact hr.waiting m hm

theorem pop (hr : r.Operable key L) {label : ℕ} {queue : List (ℕ × ℕ)}
    (hq : r.engine.worklist.queue = (n, label) :: queue) : (r.pop queue).Operable key L := by
  refine ⟨hr.arena, hr.blocks, hr.envs, hr.computed, fun m hm => hr.waiting m ?_, hr.slots, hr.thresholds, hr.rounds⟩
  rw [Waits, Worklist.nodes, hq]
  exact List.mem_cons_of_mem _ hm

theorem quiet (hr : r.Operable key L) (h : r.Quiet r') (hthresholds : ∀ c ∈ r'.engine.thresholds, c ∈ L.thresholds)
    (hrounds : r'.engine.stats.rounds = L.rounds) : r'.Operable key L := by
  obtain ⟨t, c, st, w, rfl⟩ := h
  exact ⟨hr.arena, hr.blocks, hr.envs, hr.computed, hr.waiting, hr.slots, hthresholds, hrounds⟩

/-- Knowing nothing is a way of being informed. -/
theorem inform (hr : r.Operable key L) : r.Operable key { L with informed := true } :=
  ⟨hr.arena, hr.blocks, hr.envs, hr.computed, hr.waiting, fun n hn => by
    obtain ⟨s, hs, hover⟩ := hr.slots n hn
    exact ⟨s, hs, hover.stable, hover.descending, hover.initial, hover.known, nofun⟩, hr.thresholds, hr.rounds⟩

theorem memory (hr : r.Operable key L) (m : S) : Operable key L { r with memory := m } :=
  ⟨hr.arena, hr.blocks, hr.envs, hr.computed, hr.waiting, hr.slots, hr.thresholds, hr.rounds⟩

end Operable

end Run

namespace Analysis

open Run

variable {su : Setup} {L : Layout} {r : Run Ω S} {n p : ℕ} {v w : Value}

theorem mem_addNew {listed new : List LinearConstraint} {c : LinearConstraint} (h : c ∈ Transfer.addNew listed new) :
    c ∈ listed ∨ c ∈ new := by
  unfold Transfer.addNew at h
  induction new generalizing listed with
  | nil => exact .inl h
  | cons d new ih =>
    rcases ih h with h | h
    · dsimp only at h
      split at h
      · exact .inl h
      · rcases List.mem_append.mp h with h | h
        · exact .inl h
        · exact .inr (by rw [List.mem_singleton.mp h]; simp)
    · exact .inr (List.mem_cons_of_mem _ h)

theorem mem_thresholdsAlong {t : Transfer} {q : Path} {listed : List LinearConstraint} {c : LinearConstraint}
    (h : c ∈ t.thresholdsAlong q listed) : c ∈ listed ∨ ∃ s ∈ q.steps, c ∈ t.thresholds s.1 s.2 := by
  unfold Transfer.thresholdsAlong at h
  generalize q.steps = steps at h
  induction steps generalizing listed with
  | nil => exact .inl h
  | cons s steps ih =>
    rcases ih h with h | ⟨x, hx, hc⟩
    · exact (mem_addNew h).imp_right fun hc => ⟨s, by simp, hc⟩
    · exact .inr ⟨x, List.mem_cons_of_mem _ hx, hc⟩

section Edges

variable (ht : su.options.timeout = none) (hL : L.Lists su.transfer) (hr : r.Operable su.key L)

include ht hL hr

theorem ensures_transform {q : Path} (hq : ∀ b ∈ q.blocks, b ∈ L.arena.blocks) : Ensures (transform su q v) r fun w r' =>
    w = su.transfer.along q v ∧ r'.Operable su.key L ∧ r.Quiet r' := by
  simp only [transform, ensures_bind, ensures_modifyEngine, ensures_checkDeadline ht, ensures_pure]
  refine ⟨trivial, hr.quiet ⟨_, _, _, _, rfl⟩ (fun c hc => ?_) hr.rounds, ⟨_, _, _, _, rfl⟩⟩
  rcases mem_thresholdsAlong hc with hc | ⟨s, hs, hc⟩
  · exact hr.thresholds c hc
  · obtain ⟨ha, hb⟩ := List.of_mem_zip hs
    exact hL s.1 (hq _ ha) s.2 (hq _ (List.mem_of_mem_tail hb)) c hc

theorem ensures_transformEdge (hn : n < L.arena.size) (hp : p < L.arena.size) :
    Ensures (transformEdge su n p v) r fun w r' => r'.Operable su.key L ∧ r.Quiet r' ∧ ∃ a b,
      L.arena.blocks[n]? = some a ∧ L.arena.blocks[p]? = some b ∧ w = L.image su.transfer ⟨[a, b]⟩ p v := by
  obtain ⟨a, ha, hblock⟩ := hr.exists_block hn
  obtain ⟨b, hb, hblock'⟩ := hr.exists_block hp
  simp only [transformEdge, transformNodes, List.mapM_cons, List.mapM_nil, ensures_bind, ensures_pure, ensures_block]
  refine ⟨a, hblock, b, hblock', ?_⟩
  refine (ensures_transform ht hL hr (by simpa using ⟨ha, hb⟩)).mono ?_
  rintro w r' ⟨hw, hr', hquiet⟩
  rw [hr.blocks] at hblock hblock'
  exact (ensures_env (hr'.envs p hp)).mpr ⟨hr', hquiet, a, b, hblock, hblock', by rw [hw]; rfl⟩

omit hL in
theorem ensures_widen (henv : v.env = w.env) : Ensures (widen su v w) r fun x r' => r'.Operable su.key L ∧ r.Quiet r' ∧
    ∃ thresholds, (∀ c ∈ thresholds, c ∈ L.thresholds) ∧ x = Value.widenAligned thresholds v w := by
  simp only [widen, modifyStats, ensures_bind, ensures_engine, ensures_ofFault, ensures_modifyEngine,
    ensures_checkDeadline ht, ensures_pure]
  refine ⟨_, Value.widenTo_of_env henv _, hr.quiet ⟨_, _, _, _, rfl⟩ hr.thresholds hr.rounds, ⟨_, _, _, _, rfl⟩, _, ?_, rfl⟩
  intro c hc
  split at hc
  · exact hr.thresholds c hc
  · cases hc

omit hL in
theorem ensures_widenToThresholds (henv : v.env = w.env) :
    Ensures (widenToThresholds su v w) r fun x r' => r'.Operable su.key L ∧ r.Quiet r' ∧
      ∃ thresholds, (∀ c ∈ thresholds, c ∈ L.thresholds) ∧ x = Value.widenAligned thresholds v w := by
  simp only [widenToThresholds, modifyStats, ensures_bind, ensures_engine, ensures_ofFault, ensures_modifyEngine,
    ensures_checkDeadline ht, ensures_pure]
  exact ⟨_, Value.widenTo_of_env henv _, hr.quiet ⟨_, _, _, _, rfl⟩ hr.thresholds hr.rounds, ⟨_, _, _, _, rfl⟩, _,
    hr.thresholds, rfl⟩

omit hL in
theorem ensures_nextValue (hp : p < L.arena.size) (hv : v.env = L.envs p) (hw : w.env = L.envs p)
    {s : Slots Disjunction} (hs : r.slots? su.key p = some s) :
    Ensures (nextValue su p v w) r fun x r' => r'.Operable su.key L ∧ r.Quiet r' ∧ x.env = L.envs p ∧
      L.Next p s.known.first v w x := by
  obtain ⟨s', hs', hover⟩ := hr.slots p hp
  obtain rfl := Option.some.inj (hs'.symm.trans hs)
  simp only [nextValue, ensures_bind, ensures_isWidening, hr.arena, Layout.Next]
  cases L.arena.cuts.isWidening p with
  | true =>
    rw [if_pos rfl, ensures_bind]
    refine (ensures_widen ht hr (hv.trans hw.symm)).mono ?_
    rintro u r' ⟨hr', hq, hu⟩
    have henv : u.env = L.envs p := by
      obtain ⟨thresholds, -, rfl⟩ := hu
      exact (Value.env_widenAligned _ _ _).trans hv
    refine (ensures_meetKnown_of_env ((hq.slots? _ _).trans hs) (henv.trans hover.known.symm)).mono ?_
    rintro x _ ⟨rfl, hx, hmeet⟩
    exact ⟨hr', hq, hx.trans henv, u, hu, hmeet⟩
  | false =>
    have hjoin := Value.join_of_env (hw.trans hv.symm)
    have henv : (w.joinAligned v).env = L.envs p := (Value.env_joinAligned _ _).trans hw
    simp only [Bool.false_eq_true, if_false, ensures_bind, ensures_ofFault]
    refine ⟨_, hjoin, (ensures_meetKnown_of_env hs (henv.trans hover.known.symm)).mono ?_⟩
    rintro x _ ⟨rfl, hx, hmeet⟩
    exact ⟨hr, .refl _, hx.trans henv, _, rfl, hmeet⟩

omit ht hL in
theorem ensures_store (hp : p < L.arena.size) (hw : w.env = L.envs p) :
    Ensures (store su p v w) r fun _ r' => r'.Operable su.key L := by
  obtain ⟨s, hs, hover⟩ := hr.slots p hp
  -- The stable slot is set, the node waits and is marked, from whatever slots the initial one has left.
  have hrest : ∀ {r₁ : Run Ω S} {s₁ : Slots Disjunction}, r₁.Operable su.key L → r₁.slots? su.key p = some s₁ →
      s₁.Over (L.envs p) L.informed → Ensures (do
        setValue su p .stable w
        push p
        setComputed p false) r₁ fun _ r' => r'.Operable su.key L := by
    intro r₁ s₁ hr₁ hs₁ hover₁
    have hput := hr₁.put hp (s := s₁.set .stable (s₁.stable.set 0 w))
      ⟨hw, hover₁.descending, hover₁.initial, hover₁.known, hover₁.unknown⟩
    simp only [ensures_bind, ensures_setValue hs₁, ensures_push]
    exact (ensures_setComputed (hput.computed.symm ▸ hp)).mpr ((hput.push hp).mark p false)
  simp only [store]
  split
  · have hput := hr.put hp (s := s.set .initial (s.initial.set 0 w))
      ⟨hover.stable, hover.descending, hw, hover.known, hover.unknown⟩
    rw [ensures_bind, ensures_setValue hs]
    have hslots : (r.put su.key p (s.set .initial (s.initial.set 0 w))).slots? su.key p =
        some (s.set .initial (s.initial.set 0 w)) := by
      rw [slots?_put _ _ _ _ _ (by rw [hs]; rfl), if_pos rfl]
    exact hrest hput hslots ⟨hover.stable, hover.descending, hw, hover.known, hover.unknown⟩
  · exact hrest hr hs hover

/-- Propagation along an edge changes no slot, or gives its target its next value, which is no smaller than it was. -/
theorem ensures_ascendEdge (hn : n < L.arena.size) (hp : p < L.arena.size) :
    Ensures (ascendEdge su n v p) r fun grown r' => r'.Operable su.key L ∧
      (grown = false ∧ r.Quiet r' ∨ grown = true ∧ ∃ a b s x i, L.arena.blocks[n]? = some a ∧
        L.arena.blocks[p]? = some b ∧ r.slots? su.key p = some s ∧ x.leq s.stable.first = false ∧
        L.Next p s.known.first s.stable.first (L.image su.transfer ⟨[a, b]⟩ p v) x ∧
        Stores su.key p { s with stable := s.stable.set 0 x, initial := i } r r') := by
  simp only [ascendEdge, modifyStats, ensures_bind, ensures_modifyEngine]
  have hr₁ : Operable su.key L { r with engine := { r.engine with stats :=
      { r.engine.stats with ascendingSteps := r.engine.stats.ascendingSteps + 1 } } } :=
    hr.quiet ⟨_, _, _, _, rfl⟩ hr.thresholds hr.rounds
  refine (ensures_transformEdge ht hL hr₁ hn hp).mono ?_
  rintro _ r₂ ⟨hr₂, hq₂, a, b, ha, hb, rfl⟩
  obtain ⟨s, hs, hover⟩ := hr₂.slots p hp
  rw [ensures_value hs]
  refine (ensures_nextValue ht hr₂ hp hover.stable rfl hs).mono ?_
  rintro x r₃ ⟨hr₃, hq₃, hx, hnext⟩
  have hq : r.Quiet r₃ := Quiet.trans ⟨_, _, _, _, rfl⟩ (hq₂.trans hq₃)
  cases hleq : x.leq s.stable.first with
  | true =>
    rw [if_pos (show x.leq (s.get .stable).first = true from hleq)]
    exact ensures_pure.mpr ⟨hr₃, .inl ⟨rfl, hq⟩⟩
  | false =>
    rw [if_neg (show ¬ x.leq (s.get .stable).first = true by simp [Slots.get, hleq]), ensures_bind]
    obtain ⟨u, r₄, hstore, hr₄⟩ := ensures_store hr₃ hp hx (v := s.stable.first)
    obtain ⟨s', i, hs', -, hstores⟩ := yields_store hstore
    rw [← hq₃.slots?, hs'] at hs
    obtain rfl := Option.some.inj hs
    refine ⟨u, r₄, hstore, ensures_pure.mpr ⟨hr₄, .inr ⟨rfl, a, b, s', x, i, ha, hb, ?_, hleq, hnext, ?_⟩⟩⟩
    · rw [← hq.slots?, hs']
    · exact hq.alike.stores hstores hq.oracle hq.memory

/-- Propagation along an edge into the descending slot of its target, which then waits. -/
theorem ensures_descendEdge (hn : n < L.arena.size) (hp : p < L.arena.size) :
    Ensures (descendEdge su n v p) r fun _ r' => r'.Operable su.key L ∧ r'.memory = r.memory ∧
      r'.engine.computed = r.engine.computed := by
  simp only [descendEdge, modifyStats, ensures_bind, ensures_modifyEngine]
  have hr₁ : Operable su.key L { r with engine := { r.engine with stats :=
      { r.engine.stats with descendingSteps := r.engine.stats.descendingSteps + 1 } } } :=
    hr.quiet ⟨_, _, _, _, rfl⟩ hr.thresholds hr.rounds
  refine (ensures_transformEdge ht hL hr₁ hn hp).mono ?_
  rintro _ r₂ ⟨hr₂, hq₂, a, b, -, -, rfl⟩
  obtain ⟨s, hs, hover⟩ := hr₂.slots p hp
  rw [ensures_joinDescending hs hover.descending, ensures_push]
  refine ⟨(hr₂.put hp ?_).push hp, ?_⟩
  · exact ⟨hover.stable, Value.env_absorb hover.descending rfl, hover.initial, hover.known, hover.unknown⟩
  · obtain ⟨t, c, st, w, rfl⟩ := hq₂
    exact ⟨rfl, rfl⟩

end Edges

/-- Settling keeps values over one environment. -/
theorem exists_settled {technique : Technique} {env : Environment} {informed : Bool} {s : Slots Disjunction}
    (htechnique : technique ≠ .disjunctive) (hs : s.Over env informed) :
    ∃ s' changed, settled technique s = .ok (s', changed) ∧ s'.Over env informed := by
  have hlast : ∀ x : Value, x.env = env → ∃ s' changed, (if s.stable.first.leq x = true then pure (s, false)
      else pure ({ s with stable := (if technique = .lookahead then s.stable.set 1 x else s.stable).set 0 x }, true)) =
        Except.ok (ε := Fault) (s', changed) ∧ s'.Over env informed := by
    intro x hx
    split
    · exact ⟨s, false, rfl, hs⟩
    · exact ⟨_, true, rfl, hx, hs.descending, hs.initial, hs.known, hs.unknown⟩
  have hsettled : settled technique s = (do
      let x ← if s.descending.first.leq s.stable.first = true then pure s.descending.first
        else s.descending.first.meet s.stable.first
      if s.stable.first.leq x = true then pure (s, false)
      else pure ({ s with stable := (if technique = .lookahead then s.stable.set 1 x else s.stable).set 0 x }, true)) := by
    cases technique with
    | disjunctive => exact absurd rfl htechnique
    | _ => rfl
  rw [hsettled]
  cases s.descending.first.leq s.stable.first with
  | true => exact hlast _ hs.descending
  | false =>
    obtain ⟨x, hx, henv⟩ := Value.exists_meet_of_env (hs.descending.trans hs.stable.symm)
    rw [hx]
    exact hlast x (henv.trans hs.descending)

theorem ensures_settle (htechnique : su.options.technique ≠ .disjunctive) (hr : r.Operable su.key L) :
    Ensures (settle su) r fun _ r' => r'.Operable su.key L ∧ r'.memory = r.memory ∧
      r'.engine.worklist = r.engine.worklist := by
  simp only [settle, ensures_bind, ensures_nodeCount, ensures_pure, hr.nodes_length]
  refine ensures_mapM (I := fun x => x.Operable su.key L ∧ x.memory = r.memory ∧
    x.engine.worklist = r.engine.worklist) ⟨hr, rfl, rfl⟩ fun n hn x hx => ?_
  obtain ⟨hx, hmemory, hworklist⟩ := hx
  rw [List.mem_range] at hn
  obtain ⟨s, hs, hover⟩ := hx.slots n hn
  obtain ⟨s', changed, hsettled, hover'⟩ := exists_settled htechnique hover
  simp only [ensures_bind, ensures_slots hs, ensures_ofFault, hsettled]
  exact ⟨_, rfl, (ensures_setSlots hs).mpr (ensures_pure.mpr ⟨hx.put hn hover', hmemory, hworklist⟩)⟩

theorem ensures_resetDescending (hr : r.Operable su.key L) (hn : n < L.arena.size) :
    Ensures (resetDescending su n) r fun _ r' => r'.Operable su.key L ∧ r'.memory = r.memory ∧
      r'.engine.worklist = r.engine.worklist ∧ r'.engine.computed = r.engine.computed := by
  obtain ⟨s, hs, hover⟩ := hr.slots n hn
  have hset : ∀ d : Disjunction, d.first.env = L.envs n → Ensures (setSlot su n .descending d) r fun _ r' =>
      r'.Operable su.key L ∧ r'.memory = r.memory ∧ r'.engine.worklist = r.engine.worklist ∧
        r'.engine.computed = r.engine.computed := by
    intro d hd
    rw [ensures_setSlot hs]
    exact ⟨hr.put hn ⟨hover.stable, hd, hover.initial, hover.known, hover.unknown⟩, rfl, rfl, rfl⟩
  unfold resetDescending
  split
  · simp only [slot, ensures_bind, ensures_slots hs, ensures_pure]
    exact hset _ hover.stable
  · simp only [bottom, ensures_bind, ensures_env (hr.envs n hn), ensures_pure]
    exact hset _ rfl

end Analysis

/-- The variables tracked in the context have the kinds that the client gives them, as far as they are reals. -/
def Context.Respects (c : Context) (t : Transfer) : Prop :=
  ∀ node ∈ c.nodes, node.env.Respects {s | t.kindOf s = some .real}

theorem Context.respects_build (g : ControlFlow) (t : Transfer) : (Context.build g).Respects t := by
  intro node hnode s kind hkind
  obtain ⟨b, -, rfl⟩ := List.mem_map.mp hnode
  cases hkind

namespace Analysis

open Run

variable {su : Setup} {r : Run Ω S} {n : ℕ}

theorem ensures_prepareNode {node : Node Disjunction} (hnode : r.engine.context.nodes[n]? = some node)
    (henv : node.env.Respects {s | su.transfer.kindOf s = some .real}) :
    Ensures (prepareNode su n) r fun _ r' => ∃ env : Environment, env.Respects {s | su.transfer.kindOf s = some .real} ∧
      r' = r.setNode n (Node.setSlots { node with env } su.key (.filled (.single (.bottom su.options.domain env)))) := by
  have hkinds : ∀ s ∈ su.transfer.liveVariables node.block, ∀ kind, su.transfer.kindOf s = some kind →
      (s ∈ {s | su.transfer.kindOf s = some .real} ↔ kind = .real) := by
    intro s _ kind hkind
    simp [hkind]
  obtain ⟨env, hadd, hrespects⟩ := henv.exists_foldlM_add hkinds
  have hnode' : Yields (ofViolation (r.engine.context.node n) : Analysis Ω S _) r node r := by
    rw [yields_ofViolation, Context.node, hnode]
    exact ⟨rfl, rfl⟩
  simp only [prepareNode, ensures_bind, ensures_engine, ensures_ofFault, ensures_modifyEngine]
  refine ⟨node, r, hnode', { node with env }, ?_, env, hrespects, rfl⟩
  rw [Node.track, hadd]
  rfl

/-- Every node gets its environment, and slots filled with bottom over it. -/
theorem ensures_prepareNodes (hr : r.engine.context.Respects su.transfer) :
    Ensures ((List.range r.engine.context.nodes.length).forM (prepareNode su)) r fun _ r' =>
      (r'.arena = r.arena ∧ r'.blocks = r.blocks ∧ r'.engine.thresholds = r.engine.thresholds ∧
        r'.engine.stats = r.engine.stats ∧ r'.memory = r.memory) ∧
      ∀ n < r.blocks.length, ∃ env, r'.env? n = some env ∧
        r'.slots? su.key n = some (.filled (.single (.bottom su.options.domain env))) := by
  let I : Run Ω S → Prop := fun x => (x.arena = r.arena ∧ x.blocks = r.blocks ∧ x.engine.thresholds = r.engine.thresholds ∧
    x.engine.stats = r.engine.stats ∧ x.memory = r.memory) ∧ x.engine.context.Respects su.transfer
  let Q : ℕ → Run Ω S → Prop := fun n x => ∃ env, x.env? n = some env ∧
    x.slots? su.key n = some (.filled (.single (.bottom su.options.domain env)))
  have hstep : ∀ n ∈ List.range r.engine.context.nodes.length, ∀ x : Run Ω S, I x →
      Ensures (prepareNode su n) x fun _ x' => I x' ∧ Q n x' ∧ ∀ m, Q m x → Q m x' := by
    rintro n hn x ⟨⟨harena, hblocks, hthresholds, hstats, hmemory⟩, hrespects⟩
    have hlt : n < x.engine.context.nodes.length := by
      have hlength := congrArg List.length hblocks
      simp only [Run.blocks, List.length_map] at hlength
      rw [hlength]
      exact List.mem_range.mp hn
    have hnode := List.getElem?_eq_getElem hlt
    refine (ensures_prepareNode hnode (hrespects _ (List.getElem_mem hlt))).mono ?_
    rintro _ _ ⟨env, henv, rfl⟩
    have hQ : Q n (x.setNode n (Node.setSlots { x.engine.context.nodes[n] with env } su.key
        (.filled (.single (.bottom su.options.domain env))))) := by
      refine ⟨env, ?_, ?_⟩
      · simp only [env?, Run.setNode, Context.setNode, List.getElem?_set_self hlt, Option.map_some]
        rfl
      · simp only [slots?, Run.setNode, Context.setNode, List.getElem?_set_self hlt, Option.bind_some,
          Node.slots?_setSlots]
    refine ⟨⟨⟨harena, ?_, hthresholds, hstats, hmemory⟩, ?_⟩, hQ, fun m hm => ?_⟩
    · rw [← hblocks]
      refine List.ext_getElem? fun m => ?_
      simp only [Run.blocks, Run.setNode, Context.setNode, List.getElem?_map, List.getElem?_set]
      by_cases hm : n = m
      · subst hm
        rw [if_pos rfl, if_pos hlt, hnode]
        rfl
      · rw [if_neg hm]
    · intro node hmem
      rcases List.mem_or_eq_of_mem_set hmem with hmem | rfl
      · exact hrespects node hmem
      · exact henv
    · by_cases hmn : m = n
      · rw [hmn]
        exact hQ
      · obtain ⟨env', henv', hslots'⟩ := hm
        refine ⟨env', ?_, ?_⟩
        · simpa only [env?, Run.setNode, Context.setNode, List.getElem?_set_ne fun hnm => hmn hnm.symm] using henv'
        · simpa only [slots?, Run.setNode, Context.setNode, List.getElem?_set_ne fun hnm => hmn hnm.symm] using hslots'
  obtain ⟨u, r', hyields, hI⟩ := ensures_forM (I := I) (r := r) ⟨⟨rfl, rfl, rfl, rfl, rfl⟩, hr⟩
    fun n hn x hx => (hstep n hn x hx).mono fun _ _ h => h.1
  obtain ⟨-, hall, -⟩ := yields_forM (I := I) (Q := Q) hyields ⟨⟨rfl, rfl, rfl, rfl, rfl⟩, hr⟩
    fun n hn x x' hx h => (hstep n hn x hx).of_yields h
  refine ⟨u, r', hyields, hI.1, fun n hn => hall n (List.mem_range.mpr ?_)⟩
  simpa [Run.blocks] using hn

/-- What is imported is put over the environment of the node. -/
theorem operable_of_importKnown {L : Layout} {known : Key} {count : ℕ} {r' : Run Ω S} {u : Unit}
    (h : Yields (importKnown su known n) r u r') (hn : n < L.arena.size) (hL : L.informed = true)
    (hr : (r.fresh count).Operable su.key L) : (r'.fresh count).Operable su.key L := by
  simp only [importKnown, yields_bind, yields_engine, yields_ofViolation, yields_ofFault] at h
  obtain ⟨e, r₁, ⟨rfl, rfl⟩, t, r₂, ⟨-, rfl⟩, hull, r₃, ⟨-, rfl⟩, env, r₄, henv, h⟩ := h
  have henv' : r₃.env? n = some (L.envs n) := hr.envs n hn
  obtain ⟨rfl, rfl⟩ := yields_env_eq henv' henv
  obtain ⟨s, hs, rfl⟩ := yields_setSlot h
  obtain ⟨s', hs', hover⟩ := hr.slots n hn
  obtain rfl : s' = s := Option.some.inj (hs'.symm.trans hs)
  exact hr.put hn ⟨hover.stable, hover.descending, hover.initial, rfl, by simp [hL]⟩

section Prepare

variable {A : Arena} (thresholds : List LinearConstraint) (hA : 0 < A.size) (harena : r.arena = A)
  (hblocks : r.blocks = A.blocks) (hr : r.engine.context.Respects su.transfer) (hempty : r.engine.thresholds = [])
  (hrounds : r.engine.stats.rounds = 0)

include hA harena hblocks hr hempty hrounds

omit hA harena hr hempty hrounds in
theorem nodes_length_eq : r.engine.context.nodes.length = A.size := by
  simpa [Run.blocks, Arena.size] using congrArg List.length hblocks

/-- Once every node has its environment and the entry is at top, the engine could start. -/
theorem exists_furnished : ∃ envs u r₁, Yields ((List.range r.engine.context.nodes.length).forM (prepareNode su)) r u r₁ ∧
    r₁.env? 0 = some (envs 0) ∧ r₁.slots? su.key 0 = some (.filled (.single (.bottom su.options.domain (envs 0)))) ∧
    ((r₁.put su.key 0 ⟨.single (.top su.options.domain (envs 0)), .single (.top su.options.domain (envs 0)),
        .single (.top su.options.domain (envs 0)), .single (.bottom su.options.domain (envs 0))⟩).fresh
      r.engine.context.nodes.length).Operable su.key ⟨A, envs, thresholds, 0, false⟩ ∧ r₁.memory = r.memory := by
  have hlength := nodes_length_eq hblocks
  obtain ⟨u, r₁, hnodes, ⟨harena₁, hblocks₁, hthresholds₁, hstats₁, hmemory₁⟩, hfilled⟩ := ensures_prepareNodes hr
  have hfilled' : ∀ n < A.size, r₁.env? n = some ((r₁.env? n).getD .empty) ∧ r₁.slots? su.key n =
      some (.filled (.single (.bottom su.options.domain ((r₁.env? n).getD .empty)))) := by
    intro n hn
    obtain ⟨env, henv, hslots⟩ := hfilled n (hblocks.symm ▸ hn)
    rw [henv]
    exact ⟨rfl, hslots⟩
  obtain ⟨henv₀, hslots₀⟩ := hfilled' 0 hA
  -- The entry is put last, into a state that can already be worked on from.
  have hr₁ : (r₁.fresh r.engine.context.nodes.length).Operable su.key
      ⟨A, fun n => (r₁.env? n).getD .empty, thresholds, 0, false⟩ := by
    refine ⟨harena₁.trans harena, hblocks₁.trans hblocks, fun n hn => (hfilled' n hn).1, ?_, nofun, fun n hn => ?_, ?_, ?_⟩
    · simp [fresh, hlength]
    · exact ⟨_, (hfilled' n hn).2, rfl, rfl, rfl, rfl, fun _ => rfl⟩
    · simp [fresh, hthresholds₁, hempty]
    · simp [fresh, hstats₁, hrounds]
  exact ⟨_, u, r₁, hnodes, henv₀, hslots₀, hr₁.put hA ⟨rfl, rfl, rfl, rfl, fun _ => rfl⟩, hmemory₁⟩

omit harena hr hempty hrounds in
theorem range_nodes_isEmpty : (List.range r.engine.context.nodes.length).isEmpty = false := by
  rw [List.isEmpty_eq_false_iff, Ne, List.range_eq_nil, nodes_length_eq hblocks]
  omega

/-- Whatever is known to start with, preparation leaves a state that the engine can work on from. -/
theorem operable_of_prepare {u : Unit} {r' : Run Ω S} (h : Yields (prepare su) r u r') :
    ∃ envs, r'.Operable su.key ⟨A, envs, thresholds, 0, true⟩ := by
  obtain ⟨envs, u₁, r₁, hnodes, henv₀, hslots₀, hr₁, -⟩ := exists_furnished thresholds hA harena hblocks hr hempty hrounds
  have hlength := nodes_length_eq hblocks
  refine ⟨envs, ?_⟩
  simp only [prepare, yields_bind] at h
  obtain ⟨count, r₀, hcount, u₂, r₂, hnodes', h⟩ := h
  obtain ⟨rfl, rfl⟩ := yields_nodeCount hcount
  obtain rfl := (Prod.mk.inj (hnodes.symm.trans hnodes')).2
  rw [range_nodes_isEmpty hA hblocks, if_neg Bool.false_ne_true] at h
  simp only [top, yields_bind, yields_slots, yields_pure] at h
  obtain ⟨v, r₂, ⟨env, r₃, henv, rfl, rfl⟩, s, r₄, ⟨hs, rfl⟩, u₃, r₅, hset, h⟩ := h
  obtain ⟨rfl, rfl⟩ := yields_env_eq henv₀ henv
  obtain rfl := Option.some.inj (hslots₀.symm.trans hs)
  rw [yields_setSlots hset] at h
  have hr₂ := hr₁.inform
  cases hknown : su.options.known with
  | none =>
    simp only [hknown, clearWorklist, yields_bind, yields_modifyEngine] at h
    obtain ⟨u₄, r₆, rfl, rfl⟩ := h
    exact hr₂
  | some known =>
    simp only [hknown, clearWorklist, yields_bind, yields_engine] at h
    obtain ⟨e, r₆, ⟨rfl, rfl⟩, h⟩ := h
    split at h
    · simp only [yields_bind, yields_modifyEngine] at h
      obtain ⟨u₄, r₇, hall, u₅, r₈, rfl, rfl⟩ := h
      refine (yields_forM (Q := fun _ _ => True) (I := fun x => (x.fresh r₀.engine.context.nodes.length).Operable su.key
        ⟨A, envs, thresholds, 0, true⟩) hall hr₂ fun n hn x x' hx h => ?_).1
      rw [List.mem_range, hlength] at hn
      exact ⟨operable_of_importKnown h hn rfl hx, trivial, fun _ _ => trivial⟩
    · simp only [yields_bind, yields_modifyEngine] at h
      obtain ⟨u₄, r₇, rfl, rfl⟩ := h
      exact hr₂

end Prepare

/-- Preparation ends in a state that the engine can work on from. -/
theorem ensures_prepare {A : Arena} (thresholds : List LinearConstraint) (hknown : su.options.known = none)
    (hA : 0 < A.size) (harena : r.arena = A) (hblocks : r.blocks = A.blocks)
    (hr : r.engine.context.Respects su.transfer) (hempty : r.engine.thresholds = []) (hrounds : r.engine.stats.rounds = 0) :
    ∃ envs, Ensures (prepare su) r fun _ r' => r'.Operable su.key ⟨A, envs, thresholds, 0, false⟩ ∧
      r'.engine.worklist = .empty ∧ (∀ n, r'.computed? n ≠ some true) ∧ r'.memory = r.memory := by
  obtain ⟨envs, u, r₁, hnodes, henv₀, hslots₀, hr₁, hmemory₁⟩ :=
    exists_furnished thresholds hA harena hblocks hr hempty hrounds
  refine ⟨envs, ?_⟩
  simp only [prepare, ensures_bind, ensures_nodeCount]
  refine ⟨u, r₁, hnodes, ?_⟩
  simp only [range_nodes_isEmpty hA hblocks, Bool.false_eq_true, if_false, top, ensures_bind, ensures_env henv₀,
    ensures_pure, ensures_slots hslots₀, ensures_setSlots hslots₀, hknown, clearWorklist, ensures_modifyEngine]
  refine ⟨hr₁, trivial, fun n hn => ?_, hmemory₁⟩
  simp only [computed?, List.getElem?_map] at hn
  cases hg : (List.range r.engine.context.nodes.length)[n]? <;> simp [hg] at hn

end Analysis

end PathInvariants
