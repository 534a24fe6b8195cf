import PathInvariants.Proofs.EngineInvariants
import PathInvariants.Proofs.SharedContexts

/-!
# Rules for slots

A rule says of each slot of each node what its union may be. A computation upholds the rule when it leaves
slots that follow it, however it ends, and takes no slots away. Only the writing of slots needs an argument:
whatever is read from a slot follows the rule, and all other operations leave the slots alone.
-/
namespace PathInvariants

/-- What the union in a slot of a node may be. -/
abbrev SlotRule := ℕ → Slot → Disjunction → Prop

/-- The slots that the nodes had before. -/
abbrev Before := ℕ → Option (Slots Disjunction)

variable {Ω S α β : Type} {su : Setup} {rule : SlotRule} {before : Before}

namespace Context

variable {c c' : Context} {key : Key} {n m : ℕ} {s : Slots Disjunction}

theorem slots_of_setSlots (h : c.setSlots n key s = .ok c') :
    c'.slots m key = if m = n then .ok s else c.slots m key := by
  obtain ⟨x, hx, rfl⟩ := setSlots_eq_ok.mp h
  split
  · rename_i hmn
    refine slots_eq_ok.mpr ⟨x.setSlots key s, ?_, Node.slots?_setSlots x key s⟩
    rw [setNode, hmn, List.getElem?_set_self (List.getElem?_eq_some_iff.mp hx).1]
  · rename_i hmn
    rw [slots, slots, node, node, setNode, List.getElem?_set_ne (Ne.symm hmn)]

/-- The slots under the key follow the rule, and no node that had some before is without. -/
structure Follows (c : Context) (key : Key) (rule : SlotRule) (before : Before) : Prop where
  follows : ∀ n s, c.slots n key = .ok s → ∀ sl, rule n sl (s.get sl)
  kept : ∀ n s, before n = some s → ∃ s', c.slots n key = .ok s'

theorem Follows.setSlots (h : c.Follows key rule before) (hs : ∀ sl, rule n sl (s.get sl))
    (hset : c.setSlots n key s = .ok c') : c'.Follows key rule before := by
  refine ⟨fun m s' hs' => ?_, fun m s' hs' => ?_⟩
  · rw [slots_of_setSlots hset] at hs'
    split at hs'
    · rename_i hmn
      obtain rfl := Except.ok.inj hs'
      exact hmn ▸ hs
    · exact h.follows m s' hs'
  · rw [slots_of_setSlots hset]
    split
    · exact ⟨s, rfl⟩
    · exact h.kept m s' hs'

end Context

/-- However the computation ends, the slots follow the rule, and its results are of `Q`. -/
def Upholds (su : Setup) (rule : SlotRule) (before : Before) (m : Analysis Ω S α) (Q : α → Prop) : Prop :=
  Paired (Guards (fun e : Engine Ω => e.context.Follows su.key rule before) fun _ : S => True) (fun _ => True) m Q

namespace Upholds

variable {m : Analysis Ω S α} {f : α → Analysis Ω S β} {Q : α → Prop} {R : β → Prop} {n i : ℕ} {sl : Slot} {v w : Value}
  {p : Path}

/-- Whole runs: what follows the rule at first follows it in the end. -/
theorem run {r : Run Ω S} (h : Upholds su rule (r.slots? su.key) m Q)
    (hr : ∀ n s, r.slots? su.key n = some s → ∀ sl, rule n sl (s.get sl)) :
    (∀ n s, (m.run.run r).2.slots? su.key n = some s → ∀ sl, rule n sl (s.get sl)) ∧
      ∀ n s, r.slots? su.key n = some s → ∃ s', (m.run.run r).2.slots? su.key n = some s' := by
  have hstart : r.engine.context.Follows su.key rule (r.slots? su.key) :=
    ⟨fun n s hs => hr n s (Analysis.context_slots.mp hs), fun n s hs => ⟨s, Analysis.context_slots.mpr hs⟩⟩
  obtain ⟨hfollows, hkept⟩ := (h r r ⟨rfl, hstart, trivial⟩).related.2.1
  refine ⟨fun n s hs => hfollows n s (Analysis.context_slots.mpr hs), fun n s hs => ?_⟩
  obtain ⟨s', hs'⟩ := hkept n s hs
  exact ⟨s', Analysis.context_slots.mp hs'⟩

theorem bind (hm : Upholds su rule before m Q) (hf : ∀ a, Q a → Upholds su rule before (f a) R) :
    Upholds su rule before (m >>= f) R := Paired.bind hm hf

/-- Either of two computations, and then a common rest. -/
theorem either {c : Prop} [Decidable c] {m' : Analysis Ω S α} (hm : c → Upholds su rule before m Q)
    (hm' : ¬ c → Upholds su rule before m' Q) (hf : ∀ a, Q a → Upholds su rule before (f a) R) :
    Upholds su rule before (if c then m >>= f else m' >>= f) R :=
  Paired.ite (fun hc => (hm hc).bind hf) fun hc => (hm' hc).bind hf

/-- A computation under a condition, and then the rest. -/
theorem optional {c : Prop} [Decidable c] {m : Analysis Ω S Unit} {f : Unit → Analysis Ω S β}
    (hm : Upholds su rule before m fun _ => True) (hf : ∀ u, Upholds su rule before (f u) R) :
    Upholds su rule before (if c then m >>= f else f ()) R :=
  Paired.ite (fun _ => hm.bind fun u _ => hf u) fun _ => hf ()

theorem throw (e : Failure) : Upholds su rule before (throw e : Analysis Ω S α) Q := Paired.throw trivial

theorem ofFault {x : Except Fault α} (h : ∀ a, x = .ok a → Q a) :
    Upholds su rule before (Analysis.ofFault x : Analysis Ω S α) Q := Paired.ofFault h fun _ _ => trivial

theorem ofViolation {x : Except Violation α} (h : ∀ a, x = .ok a → Q a) :
    Upholds su rule before (Analysis.ofViolation x : Analysis Ω S α) Q := Paired.ofViolation h fun _ _ => trivial

section Bookkeeping

theorem engine : Upholds su rule before (Analysis.engine : Analysis Ω S _) fun e => e.context.Follows su.key rule before :=
  Guards.engine

theorem modifyEngine {f : Engine Ω → Engine Ω} (hf : ∀ e, (f e).context = e.context) :
    Upholds su rule before (Analysis.modifyEngine f : Analysis Ω S _) fun _ => True :=
  Guards.modifyEngine fun e he => (hf e).symm ▸ he

theorem memory : Upholds su rule before (Analysis.memory : Analysis Ω S _) fun _ => True := Guards.memory

theorem modifyMemory (f : S → S) : Upholds su rule before (Analysis.modifyMemory f : Analysis Ω S _) fun _ => True :=
  Guards.modifyMemory fun _ _ => trivial

theorem modifyStats (f : Stats → Stats) : Upholds su rule before (Analysis.modifyStats f : Analysis Ω S _) fun _ => True :=
  modifyEngine fun _ => rfl

theorem arena : Upholds su rule before (Analysis.arena : Analysis Ω S _) fun _ => True := engine.map fun _ _ => trivial

theorem nodeCount : Upholds su rule before (Analysis.nodeCount : Analysis Ω S _) fun _ => True :=
  engine.map fun _ _ => trivial

theorem block (n : ℕ) : Upholds su rule before (Analysis.block n : Analysis Ω S _) fun _ => True :=
  engine.bind fun _ _ => ofViolation fun _ _ => trivial

theorem env (n : ℕ) : Upholds su rule before (Analysis.env n : Analysis Ω S _) fun _ => True :=
  engine.bind fun _ _ => (ofViolation fun _ _ => trivial).bind fun _ _ => Paired.pure trivial

theorem bottom (n : ℕ) :
    Upholds su rule before (Analysis.bottom su n : Analysis Ω S _) fun v => ∃ env, v = .bottom su.options.domain env :=
  (env n).bind fun env _ => Paired.pure ⟨env, rfl⟩

theorem isWidening (n : ℕ) : Upholds su rule before (Analysis.isWidening n : Analysis Ω S _) fun _ => True :=
  arena.map fun _ _ => trivial

theorem startsPaths (n : ℕ) : Upholds su rule before (Analysis.startsPaths n : Analysis Ω S _) fun _ => True :=
  arena.map fun _ _ => trivial

theorem isComputed (n : ℕ) : Upholds su rule before (Analysis.isComputed n : Analysis Ω S _) fun _ => True := by
  refine engine.bind fun e _ => ?_
  dsimp only
  split
  · exact Paired.pure trivial
  · exact throw _

theorem setComputed (n : ℕ) (b : Bool) : Upholds su rule before (Analysis.setComputed n b : Analysis Ω S _) fun _ => True :=
  engine.bind fun _ _ => Paired.ite (fun _ => modifyEngine fun _ => rfl) fun _ => throw _

theorem resetComputed : Upholds su rule before (Analysis.resetComputed : Analysis Ω S _) fun _ => True :=
  modifyEngine fun _ => rfl

theorem push (n : ℕ) : Upholds su rule before (Analysis.push n : Analysis Ω S _) fun _ => True := modifyEngine fun _ => rfl

theorem isFeasible (n succ : ℕ) :
    Upholds su rule before (Guided.isFeasible n succ : Analysis Ω Guided.Memory _) fun _ => True :=
  memory.map fun _ _ => trivial

theorem pop? : Upholds su rule before (Analysis.pop? : Analysis Ω S _) fun _ => True := by
  refine engine.bind fun e _ => ?_
  split
  · exact Paired.pure trivial
  · exact Upholds.bind (modifyEngine fun _ => rfl) fun _ _ => Paired.pure trivial

theorem clearWorklist : Upholds su rule before (Analysis.clearWorklist : Analysis Ω S _) fun _ => True :=
  modifyEngine fun _ => rfl

theorem checkDeadline : Upholds su rule before (Analysis.checkDeadline su : Analysis Ω S _) fun _ => True := by
  refine engine.bind fun e _ => Upholds.bind (modifyEngine fun _ => rfl) fun _ _ => Paired.ite (fun _ => ?_) fun _ => ?_
  · exact Upholds.bind (modifyEngine fun _ => rfl) fun _ _ => throw _
  · exact Paired.pure trivial

theorem query [PathOracle Ω] (n : ℕ) (descending : Bool) (filter : PathFilter) :
    Upholds su rule before (Analysis.query su n descending filter : Analysis Ω S _) fun _ => True := by
  rw [Analysis.query_eq_queryAtOnce]
  refine (block n).bind fun start _ => engine.bind fun e _ => Upholds.bind (modifyEngine fun _ => rfl) fun _ _ => ?_
  have hlift : ∀ {α : Type} (x : Except Failure α),
      Upholds su rule before (Analysis.liftExcept x : Analysis Ω S α) fun _ => True := fun x =>
    Paired.liftExcept (fun _ _ => trivial) fun _ _ => trivial
  refine (hlift _).bind fun _ _ => (hlift _).bind fun answer _ => ?_
  refine (modifyStats _).bind fun _ _ => checkDeadline.bind fun _ _ => ?_
  split
  · exact Paired.pure trivial
  · exact Upholds.bind (modifyEngine fun _ => rfl) fun _ _ => throw _
  · exact arena.bind fun a _ => (ofViolation fun _ _ => trivial).bind fun _ _ => Paired.pure trivial

theorem place (p : Path) (start : ℕ) (v : Value) (target : Disjunction) :
    Upholds su rule before (Disjunctive.place p start v target : Analysis Ω _ _) fun _ => True :=
  memory.bind fun _ _ => (modifyMemory _).bind fun _ _ => Paired.pure trivial

theorem nextRecorded [PathOracle Ω] (n : ℕ) (descending : Bool) :
    Upholds su rule before (Disjunctive.nextRecorded su n descending : Analysis Ω _ _) fun _ => True := by
  refine memory.bind fun m _ => ?_
  split
  · exact Paired.pure trivial
  · refine (query n descending _).bind fun answer _ => ?_
    split <;> exact Paired.pure trivial

theorem destinationOf (p : Path) : Upholds su rule before (Analysis.destinationOf p : Analysis Ω S _) fun _ => True := by
  unfold Analysis.destinationOf Analysis.indexOf
  split
  · refine arena.bind fun a _ => ?_
    split
    · exact Paired.pure trivial
    · exact throw _
  · exact throw _

theorem drain {visit : ℕ → Analysis Ω S Unit} (hvisit : ∀ n, Upholds su rule before (visit n) fun _ => True) (fuel : ℕ) :
    Upholds su rule before (Analysis.drain visit fuel) fun _ => True := by
  induction fuel with
  | zero => exact throw _
  | succ fuel ih =>
    refine pop?.bind fun o _ => ?_
    split
    · exact Paired.pure trivial
    · rename_i n
      refine (isComputed n).bind fun computed _ => ?_
      cases computed with
      | true => exact ih
      | false => exact (hvisit n).bind fun _ _ => ih

end Bookkeeping

section Slots

theorem slots (n : ℕ) : Upholds su rule before (Analysis.slots su n : Analysis Ω S _) fun s => ∀ sl, rule n sl (s.get sl) :=
  engine.bind fun _ he => ofViolation (he.follows n)

theorem setSlots {s : Slots Disjunction} (hs : ∀ sl, rule n sl (s.get sl)) :
    Upholds su rule before (Analysis.setSlots su n s : Analysis Ω S _) fun _ => True := by
  refine engine.bind fun e he => Upholds.bind (Q := fun c => c.Follows su.key rule before)
    (ofViolation fun c hc => he.setSlots hs hc) fun c hc => ?_
  exact Guards.modifyEngine fun _ _ => hc

theorem slot (n : ℕ) (sl : Slot) : Upholds su rule before (Analysis.slot su n sl : Analysis Ω S _) (rule n sl) :=
  (slots n).map fun _ hs => hs sl

theorem setSlot {d : Disjunction} (hd : rule n sl d) :
    Upholds su rule before (Analysis.setSlot su n sl d : Analysis Ω S _) fun _ => True := by
  refine (slots n).bind fun s hs => setSlots fun sl' => ?_
  rw [Slots.get_set]
  split
  · rename_i heq
    exact heq ▸ hd
  · exact hs sl'

theorem value (n : ℕ) (sl : Slot) : Upholds su rule before (Analysis.value su n sl : Analysis Ω S _) fun v =>
    ∃ d, rule n sl d ∧ v = d.first := (slot n sl).map fun d hd => ⟨d, hd, rfl⟩

theorem setDisjunct (h : ∀ d, rule n sl d → rule n sl (d.set i v)) :
    Upholds su rule before (Analysis.setDisjunct su n sl i v : Analysis Ω S _) fun _ => True :=
  (slot n sl).bind fun d hd => setSlot (h d hd)

/-- A disjunct is one of the slot, or bottom where the slot has none. -/
theorem disjunct (n : ℕ) (sl : Slot) (i : ℕ) : Upholds su rule before (Analysis.disjunct su n sl i : Analysis Ω S _) fun v =>
    ∃ d, rule n sl d ∧ (d.get? i = some v ∨ d.get? i = none ∧ ∃ env, v = .bottom su.options.domain env) := by
  refine (slot n sl).bind fun d hd => ?_
  split
  · rename_i v hv
    exact Paired.pure ⟨d, hd, .inl hv⟩
  · rename_i hnone
    exact Paired.mono (bottom n) fun v hv => ⟨d, hd, .inr ⟨hnone, hv⟩⟩

end Slots

section Values

theorem transform (p : Path) (v : Value) :
    Upholds su rule before (Analysis.transform su p v : Analysis Ω S _) (· = su.transfer.along p v) :=
  Upholds.bind (modifyEngine fun _ => rfl) fun _ _ => checkDeadline.bind fun _ _ => Paired.pure rfl

theorem transformEdge (n succ : ℕ) (v : Value) : Upholds su rule before (Analysis.transformEdge su n succ v : Analysis Ω S _)
    fun image => ∃ p env, image = (su.transfer.along p v).withEnv env := by
  refine Upholds.bind (Q := fun image => ∃ p, image = su.transfer.along p v) ?_ fun image himage => ?_
  · refine Upholds.bind (Paired.mapM fun m _ => block m) fun bs _ => ?_
    exact Paired.mono (transform _ v) fun _ h => ⟨_, h⟩
  · obtain ⟨p, rfl⟩ := himage
    exact (env succ).bind fun env _ => Paired.pure ⟨p, env, rfl⟩

theorem widening (thresholds : List LinearConstraint) (v w : Value) : Upholds su rule before (do
      let widened ← Analysis.ofFault (v.widenTo thresholds w)
      Analysis.modifyStats fun s => { s with widenings := s.widenings + 1 }
      Analysis.checkDeadline su
      return widened : Analysis Ω S Value) fun u => ∃ thresholds, v.widenTo thresholds w = .ok u := by
  refine Upholds.bind (ofFault fun u hu => hu) fun u hu => ?_
  exact (modifyStats _).bind fun _ _ => checkDeadline.bind fun _ _ => Paired.pure ⟨thresholds, hu⟩

theorem widenToThresholds (v w : Value) : Upholds su rule before (Analysis.widenToThresholds su v w : Analysis Ω S _) fun u =>
    ∃ thresholds, v.widenTo thresholds w = .ok u := engine.bind fun _ _ => widening _ v w

theorem widen (v w : Value) : Upholds su rule before (Analysis.widen su v w : Analysis Ω S _) fun u =>
    ∃ thresholds, v.widenTo thresholds w = .ok u := engine.bind fun _ _ => widening _ v w

end Values

end Upholds

end PathInvariants
