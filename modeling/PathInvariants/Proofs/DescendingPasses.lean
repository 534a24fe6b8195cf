import PathInvariants.Proofs.Narrowing
import PathInvariants.Proofs.OperationOrder
import PathInvariants.Proofs.Outcomes
import PathInvariants.Proofs.SlotRules

/-!
# Descending passes

A pass fills the descending slots from scratch, and nothing keeps what arrives there below the stable values.
Settling meets it with the stable value before it takes that value's place. A meet lies below its right operand in
the order, so the stable values only go down, in however many passes and whatever the transfer does.
-/
namespace PathInvariants

variable {Ω S : Type} {su : Setup} {before : Before}

/-- The first values have canonical rows, and the stable one has not grown. -/
structure Shrunk (before : Before) (n : ℕ) (sl : Slot) (d : Disjunction) : Prop where
  canonical : d.first.eqs.Canonical
  below : sl = .stable → ∀ s, before n = some s → d.first.leq s.stable.first = true

namespace Shrunk

variable {n : ℕ} {sl : Slot} {d : Disjunction} {v : Value}

theorem of_canonical (hsl : sl ≠ .stable) (hv : d.first.eqs.Canonical) : Shrunk before n sl d :=
  ⟨hv, fun h => absurd h hsl⟩

/-- What settling stores lies below the stable value. -/
theorem settled {technique : Technique} {s s' : Slots Disjunction} {changed : Bool} (ht : technique ≠ .disjunctive)
    (h : Analysis.settled technique s = .ok (s', changed)) (hs : ∀ sl, Shrunk before n sl (s.get sl)) :
    ∀ sl, Shrunk before n sl (s'.get sl) := by
  obtain ⟨v, hv, hs'⟩ := Analysis.settled_eq ht h
  have hdescending := (hs .descending).canonical
  obtain ⟨hcanonical, hleq⟩ : v.eqs.Canonical ∧ v.leq s.stable.first = true := by
    rcases hv with ⟨hleq, rfl⟩ | ⟨-, hmeet⟩
    · exact ⟨hdescending, hleq⟩
    · exact ⟨Value.canonical_meet hdescending hmeet, Value.meet_leq_right hmeet⟩
  rcases hs' with ⟨-, rfl⟩ | ⟨-, rfl⟩
  · exact hs
  · intro sl
    cases sl with
    | stable =>
      have hstable := hs .stable
      refine ⟨hcanonical, fun _ s₀ hs₀ => ?_⟩
      exact Value.leq_trans hcanonical hstable.canonical hleq (hstable.below rfl s₀ hs₀)
    | _ => exact hs _

end Shrunk

/-- However the computation ends, no stable value has grown. -/
abbrev Shrinks (su : Setup) (before : Before) {α : Type} (m : Analysis Ω S α) (Q : α → Prop) : Prop :=
  Upholds su (Shrunk before) before m Q

namespace Shrinks

open Upholds hiding value

variable {n : ℕ} {v : Value}

theorem value (n : ℕ) (sl : Slot) :
    Shrinks su before (Analysis.value su n sl : Analysis Ω S _) fun v => v.eqs.Canonical := by
  refine Paired.mono (Upholds.value n sl) fun v hv => ?_
  obtain ⟨d, hd, rfl⟩ := hv
  exact hd.canonical

theorem meetKnown (hv : v.eqs.Canonical) :
    Shrinks su before (Analysis.meetKnown su n v : Analysis Ω S _) fun v => v.eqs.Canonical := by
  refine (value n .known).bind fun known _ => Paired.ite (fun _ => Paired.pure hv) fun _ => ?_
  exact ofFault fun u hu => Value.canonical_meet hv hu

theorem joinDescending (hv : v.eqs.Canonical) :
    Shrinks su before (Analysis.joinDescending su n v : Analysis Ω S _) fun _ => True := by
  refine (value n .descending).bind fun descending hd => ?_
  refine Upholds.either (Q := fun u => u.eqs.Canonical) (fun _ => Paired.pure hv) (fun _ => ?_) fun joined hjoined => ?_
  · exact ofFault fun u hu => Value.canonical_join hd hv hu
  · exact setDisjunct fun d _ => .of_canonical nofun hjoined

section Nodes

variable (hsu : su.transfer.KeepsCanonical)
include hsu

theorem descendEdge (hv : v.eqs.Canonical) (succ : ℕ) :
    Shrinks su before (Analysis.descendEdge su n v succ : Analysis Ω S _) fun _ => True := by
  refine (modifyStats _).bind fun _ _ => (transformEdge n succ v).bind fun image himage => ?_
  obtain ⟨p, env, rfl⟩ := himage
  exact (joinDescending (Value.canonical_withEnv (hsu p v hv) env)).bind fun _ _ => push succ

theorem classicNarrow (n : ℕ) :
    Shrinks su before (Classic.narrowNode su n : Analysis Ω _ _) fun _ => True := by
  refine (setComputed n true).bind fun _ _ => (value n .stable).bind fun start hstart => ?_
  exact arena.bind fun a _ => Paired.forM fun succ _ => descendEdge hsu hstart succ

theorem lookaheadNarrow (n : ℕ) :
    Shrinks su before (Lookahead.narrowNode su n : Analysis Ω _ _) fun _ => True := by
  refine (setComputed n true).bind fun _ _ => (disjunct n .stable Lookahead.mainIndex).bind fun main hmain => ?_
  have hcanonical : main.eqs.Canonical := by
    obtain ⟨d, hd, hmain | ⟨hnone, -⟩⟩ := hmain
    · exact Option.some.inj hmain ▸ hd.canonical
    · cases hnone
  exact arena.bind fun a _ => Paired.forM fun succ _ => descendEdge hsu hcanonical succ

theorem guidedNarrow (n : ℕ) :
    Shrinks su before (Guided.narrowNode su n : Analysis Ω _ _) fun _ => True := by
  refine (setComputed n true).bind fun _ _ => (value n .stable).bind fun start hstart => ?_
  refine arena.bind fun a _ => Paired.forM fun succ _ => (isFeasible n succ).bind fun feasible _ => ?_
  exact Paired.ite (fun _ => descendEdge hsu hstart succ) fun _ => Paired.pure trivial

theorem focusingPropagateDown (n : ℕ) (p : Path) :
    Shrinks su before (Focusing.propagateDown su n p : Analysis Ω _ _) fun _ => True := by
  refine (destinationOf p).bind fun succ _ => (modifyStats _).bind fun _ _ => ?_
  refine (value n .stable).bind fun start hstart => (transform p start).bind fun image himage => ?_
  refine (env succ).bind fun env _ => (meetKnown ?_).bind fun met hmet => ?_
  · rw [himage]
    exact Value.canonical_withEnv (hsu p start hstart) env
  · exact (joinDescending hmet).bind fun _ _ => (push succ).bind fun _ _ => setComputed succ false

theorem focusingFollowDown [PathOracle Ω] (n fuel : ℕ) :
    Shrinks su before (Focusing.followPathsDown su n fuel : Analysis Ω _ _) fun _ => True := by
  induction fuel with
  | zero => exact Upholds.throw _
  | succ fuel ih =>
    refine (setComputed n true).bind fun _ _ => (query n true .any).bind fun answer _ => ?_
    split
    · exact Paired.pure trivial
    · rename_i p i
      refine Paired.ite (fun _ => ?_) fun _ => Paired.pure trivial
      exact (focusingPropagateDown hsu n p).bind fun _ _ => ih

theorem focusingNarrow [PathOracle Ω] (n : ℕ) :
    Shrinks su before (Focusing.narrowNode su n : Analysis Ω _ _) fun _ => True :=
  (startsPaths n).bind fun _ _ => Paired.ite (fun _ => focusingFollowDown hsu n _) fun _ => setComputed n true

end Nodes

section Rounds

variable {narrow : ℕ → Analysis Ω S Unit}

theorem resetDescending (n : ℕ) :
    Shrinks su before (Analysis.resetDescending su n : Analysis Ω S _) fun _ => True := by
  refine Paired.ite (fun _ => ?_) fun _ => ?_
  · exact (slot n .stable).bind fun d hd => setSlot (.of_canonical nofun hd.canonical)
  · refine (bottom n).bind fun v hv => setSlot (.of_canonical nofun ?_)
    obtain ⟨env, rfl⟩ := hv
    exact Equalities.canonical_empty

variable (hnarrow : ∀ n, Shrinks su before (narrow n) fun _ => True)
include hnarrow

theorem descend : Shrinks su before (Analysis.descend su narrow) fun _ => True := by
  refine resetComputed.bind fun _ _ => clearWorklist.bind fun _ _ => nodeCount.bind fun count _ => ?_
  refine Upholds.bind (Paired.forM fun n _ => resetDescending n) fun _ _ => (push 0).bind fun _ _ => ?_
  exact drain hnarrow _

variable (ht : su.options.technique ≠ .disjunctive)
include ht

omit hnarrow in
theorem settle : Shrinks su before (Analysis.settle su : Analysis Ω S _) fun _ => True := by
  refine nodeCount.bind fun count _ => Upholds.bind (Paired.mapM fun n _ => ?_) fun _ _ => Paired.pure trivial
  refine (slots n).bind fun s hs => (ofFault fun x hx => hx).bind fun x hx => ?_
  obtain ⟨s', changed⟩ := x
  exact (setSlots (Shrunk.settled ht hx hs)).bind fun _ _ => Paired.pure trivial

theorem descendAgain (count : ℕ) :
    Shrinks su before (Analysis.descendAgain su narrow count) fun _ => True := by
  induction count with
  | zero => exact (settle ht).bind fun _ _ => Paired.pure trivial
  | succ count ih =>
    refine (settle ht).bind fun changed _ => Paired.ite (fun _ => ?_) fun _ => Paired.pure trivial
    exact (descend hnarrow).bind fun _ _ => checkDeadline.bind fun _ _ => ih

theorem descendRounds (rounds : ℕ) :
    Shrinks su before (Analysis.descendRounds su narrow rounds) fun _ => True :=
  (descend hnarrow).bind fun _ _ => descendAgain hnarrow ht _

end Rounds

end Shrinks

section Passes

open Analysis

variable {narrow : ℕ → Analysis Ω S Unit} {r r' r₁ r₂ r₃ : Run Ω S}

/-- So many descending passes with the settling after each, the last of which tells whether something changed. A pass
is followed by another one only if settling has changed something. Between a pass and its settling the clock may be
read. -/
inductive Passes (su : Setup) (narrow : ℕ → Analysis Ω S Unit) : ℕ → Bool → Run Ω S → Run Ω S → Prop
  | last {changed : Bool} {r r₁ r₂ r' : Run Ω S} (hdescend : Yields (descend su narrow) r () r₁) (hclock : r₁.Quiet r₂)
      (hsettle : Yields (settle su) r₂ changed r') : Passes su narrow 1 changed r r'
  | more {count : ℕ} {changed : Bool} {r r₁ r₂ r₃ r' : Run Ω S} (hdescend : Yields (descend su narrow) r () r₁)
      (hclock : r₁.Quiet r₂) (hsettle : Yields (settle su) r₂ true r₃) (hrest : Passes su narrow count changed r₃ r') :
      Passes su narrow (count + 1) changed r r'

/-- The loop behind a pass ends when settling changes nothing, or after so many passes more. -/
theorem passes_of_descendAgain {count : ℕ} (hdescend : Yields (descend su narrow) r () r₁) (hclock : r₁.Quiet r₂)
    (h : Yields (descendAgain su narrow count) r₂ () r') :
    ∃ made ≤ count + 1, ∃ changed, Passes su narrow made changed r r' ∧ (changed = true → made = count + 1) := by
  induction count generalizing r r₁ r₂ with
  | zero =>
    obtain ⟨changed, r₃, hsettle, h⟩ := yields_bind.mp h
    obtain ⟨-, rfl⟩ := yields_pure.mp h
    exact ⟨1, le_rfl, changed, .last hdescend hclock hsettle, fun _ => rfl⟩
  | succ count ih =>
    obtain ⟨changed, r₃, hsettle, h⟩ := yields_bind.mp h
    cases changed with
    | false =>
      obtain ⟨-, rfl⟩ := yields_pure.mp h
      exact ⟨1, by omega, false, .last hdescend hclock hsettle, nofun⟩
    | true =>
      obtain ⟨_, r₄, hnext, h⟩ := yields_bind.mp h
      obtain ⟨_, r₅, hcheck, h⟩ := yields_bind.mp h
      obtain ⟨made, hmade, changed, hpasses, hfull⟩ := ih hnext (yields_checkDeadline hcheck) h
      exact ⟨made + 1, by omega, changed, .more hdescend hclock hsettle hpasses, fun hc => by rw [hfull hc]⟩

end Passes

/-- The first values of all slots have canonical rows. -/
def Run.Canonical (r : Run Ω S) (key : Key) : Prop :=
  ∀ n s, r.slots? key n = some s → ∀ sl, (s.get sl).first.eqs.Canonical

/-- What narrowing with a strategy does. However it ends, no stable value has grown, and if it ends well, it has made
at most `rounds + 2` passes: fewer only if the last one changed nothing. -/
structure Strategy.NarrowsDown (st : Strategy Ω S) (su : Setup) (rounds : ℕ) : Prop where
  below : ∀ r : Run Ω S, r.Canonical su.key → ∀ n s, r.slots? su.key n = some s →
    ∃ s', ((Analysis.descendRounds su (st.narrowNode su) rounds).run.run r).2.slots? su.key n = some s' ∧
      s'.stable.first.leq s.stable.first = true
  passes : ∀ r r' : Run Ω S, Yields (Analysis.descendRounds su (st.narrowNode su) rounds) r () r' →
    ∃ made ≤ rounds + 2, ∃ changed, Passes su (st.narrowNode su) made changed r r' ∧
      (changed = true → made = rounds + 2)

theorem Strategy.NarrowsDown.of_shrinks {st : Strategy Ω S} (ht : su.options.technique ≠ .disjunctive)
    (hnarrow : ∀ before n, Shrinks su before (st.narrowNode su n) fun _ => True) (rounds : ℕ) :
    st.NarrowsDown su rounds := by
  refine ⟨fun r hr n s hs => ?_, fun r r' h => ?_⟩
  · have hstart : ∀ n s, r.slots? su.key n = some s → ∀ sl, Shrunk (r.slots? su.key) n sl (s.get sl) := by
      refine fun n s hs sl => ⟨hr n s hs sl, fun hsl s₀ hs₀ => ?_⟩
      obtain rfl := Option.some.inj (hs.symm.trans hs₀)
      exact hsl ▸ Value.leq_refl s.stable.first
    obtain ⟨hrule, hkept⟩ := (Shrinks.descendRounds (hnarrow _) ht rounds).run hstart
    obtain ⟨s', hs'⟩ := hkept n s hs
    exact ⟨s', hs', (hrule n s' hs' .stable).below rfl s hs⟩
  · obtain ⟨_, r₁, hdescend, h⟩ := yields_bind.mp h
    exact passes_of_descendAgain hdescend (.refl r₁) h

/-- Narrowing never makes a stable value grow, for any graph, any transfer, any state of the slots and any number of
rounds. -/
theorem narrowing_never_grows [PathOracle Ω] (hsu : su.transfer.KeepsCanonical)
    (ht : su.options.technique ≠ .disjunctive) (rounds : ℕ) :
    (Classic.strategy : Strategy Ω Unit).NarrowsDown su rounds ∧
      (Lookahead.strategy : Strategy Ω Unit).NarrowsDown su rounds ∧
      (Guided.strategy : Strategy Ω Guided.Memory).NarrowsDown su rounds ∧
      (Focusing.strategy : Strategy Ω Focusing.Memory).NarrowsDown su rounds :=
  ⟨.of_shrinks ht (fun _ => Shrinks.classicNarrow hsu) rounds, .of_shrinks ht (fun _ => Shrinks.lookaheadNarrow hsu) rounds,
    .of_shrinks ht (fun _ => Shrinks.guidedNarrow hsu) rounds, .of_shrinks ht (fun _ => Shrinks.focusingNarrow hsu) rounds⟩

/-- Classic iteration of ranges. -/
def ranges : Options := { technique := .classic, domain := .intervals }

/-- The counter after the ascending pass, by which its range has lost the upper bound. -/
def overshot : Run SearchOracle Unit :=
  let su := Program.counter.setup ranges .ample
  ((do Analysis.prepare su; Analysis.ascend su (Classic.computeNode su) true : Analysis SearchOracle Unit Unit).run.run
    ⟨.new ranges (.build Program.counter.graph.control) (.new Program.counter.graph.control Program.counter.transfer), ()⟩).2

theorem Run.canonical_of_rowless {r : Run Ω S} {key : Key} (h : (r.engine.context.nodes.all fun x =>
    (x.slots? key).all fun s => [.stable, .descending, .initial, .known].all fun sl => (s.get sl).first.eqs == .empty) =
      true) : r.Canonical key := by
  intro n s hs sl
  have hslots := List.all_eq_true.mp (all_slots h hs)
  rw [beq_iff_eq.mp (hslots sl (by cases sl <;> simp))]
  exact Equalities.canonical_empty

/-- Narrowing gives the counter at the head of its loop an upper bound again, in at most three passes. -/
theorem narrowing_never_grows_counter : let su := Program.counter.setup ranges .ample
    let narrow := (Classic.strategy : Strategy SearchOracle Unit).narrowNode su
    ∃ s r' s', overshot.slots? su.key 1 = some s ∧
      Yields (Analysis.descendRounds su narrow 1) overshot () r' ∧ r'.slots? su.key 1 = some s' ∧
      s'.stable.first.leq s.stable.first = true ∧ s.stable.first.leq s'.stable.first = false ∧
      ∃ made ≤ 3, ∃ changed, Passes su narrow made changed overshot r' := by
  intro su narrow
  have hcanonical : su.transfer.KeepsCanonical := Program.counter.keepsCanonical
  have htechnique : su.options.technique ≠ .disjunctive := by decide
  obtain ⟨hbelow, hpasses⟩ := (narrowing_never_grows (Ω := SearchOracle) hcanonical htechnique 1).1
  obtain ⟨hend, hslots, hgap⟩ : ((Analysis.descendRounds su narrow 1).run.run overshot).1.toOption = some () ∧
      (overshot.slots? su.key 1).isSome = true ∧
      ((overshot.slots? su.key 1).bind fun s => (((Analysis.descendRounds su narrow 1).run.run overshot).2.slots?
        su.key 1).map fun s' => s.stable.first.leq s'.stable.first) = some false := by decide +kernel
  have hyields := yields_of_toOption hend
  obtain ⟨s, hs⟩ := Option.isSome_iff_exists.mp hslots
  obtain ⟨s', hs', hleq⟩ := hbelow overshot (Run.canonical_of_rowless (by decide +kernel)) 1 s hs
  obtain ⟨made, hmade, changed, hmore, -⟩ := hpasses _ _ hyields
  rw [hs, Option.bind_some, hs', Option.map_some] at hgap
  exact ⟨s, _, s', hs, hyields, hs', hleq, Option.some.inj hgap, made, hmade, changed, hmore⟩

end PathInvariants
