import PathInvariants.Proofs.ClassicSoundness

/-!
# Soundness of lookahead widening

A promotion replaces the main value by the pilot, so neither of the two grows steadily. What grows is
the set of stores that both of them hold: the stores in reach never leave it, and the main value, which
is what a run reports, holds them all.
-/
namespace PathInvariants

namespace Lookahead

open Run Analysis

variable {Ω : Type} {su : Setup} {k : ValueKind} {A : Arena} {K : ℕ → Store → Prop}
  {step : Block → Store → Block → Store → Prop}

/-- The store is in the main value and in the pilot. -/
def Held (s : Slots Disjunction) (σ : Store) : Prop :=
  s.stable.first.Allows σ.point ∧ ∃ w, s.stable.get? pilotIndex = some w ∧ w.Allows σ.point

/-- Both values are of the kind, and both are present and exclude nothing at the entry. -/
structure PairLawful (k : ValueKind) (n : ℕ) (s : Slots Disjunction) : Prop where
  pilot : ∀ w, s.stable.get? pilotIndex = some w → w.OfKind k
  entry : n = 0 → ∀ σ, Held s σ

/-- The slots are lawful as in classic iteration, and so is the pilot. -/
structure SlotsLawful (k : ValueKind) (K : ℕ → Store → Prop) (n : ℕ) (s : Slots Disjunction) : Prop
    extends Classic.SlotsLawful k K n s where
  pair : PairLawful k n s

theorem PairLawful.of_stable {n : ℕ} {s s' : Slots Disjunction} (h : PairLawful k n s) (hs : s'.stable = s.stable) :
    PairLawful k n s' := by
  refine ⟨fun w hw => h.pilot w ?_, fun h0 σ => ?_⟩
  · rwa [hs] at hw
  · rw [Held, hs]
    exact h.entry h0 σ

theorem get?_set_pilot (d : Disjunction) (v w : Value) :
    ((d.set mainIndex v).set pilotIndex w).first = v ∧ ((d.set mainIndex v).set pilotIndex w).get? pilotIndex = some w :=
  ⟨rfl, Disjunction.get?_set _ _ _⟩

theorem get?_set_main (d : Disjunction) (v w : Value) :
    ((d.set pilotIndex w).set mainIndex v).get? pilotIndex = some w := by
  rw [Disjunction.get?_set_of_ne _ _ (by decide), Disjunction.get?_set]
  rw [Disjunction.size_set]
  split
  · assumption
  · exact Nat.lt_succ_self _

theorem slotLaw : SlotLaw .lookahead k K (SlotsLawful k K) := by
  have hlaw : SlotLaw .lookahead k K (Classic.SlotsLawful k K) := Classic.slotLaw (by decide)
  refine ⟨fun h => h.stable, fun h => h.descending, fun h => h.known, fun h => ⟨hlaw.reset h.toSlotsLawful, ?_⟩,
    fun env h hn => ⟨hlaw.clear env h.toSlotsLawful hn, ?_⟩, fun h hv hw => ⟨hlaw.lower h.toSlotsLawful hv hw, ?_⟩,
    fun h hs => ?_⟩
  · exact h.pair.of_stable rfl
  · exact h.pair.of_stable rfl
  · exact h.pair.of_stable rfl
  · have hc := hlaw.settle h.toSlotsLawful hs
    refine ⟨hc, ?_⟩
    obtain ⟨v, -, ⟨-, rfl⟩ | ⟨-, rfl⟩⟩ := settled_eq (by decide) hs
    · exact h.pair
    · have hpilot := get?_set_main (v := v) (w := v)
      refine ⟨fun w hw => ?_, fun h0 σ => ⟨(hc.entry h0 σ).1, v, hpilot _, (hc.entry h0 σ).1⟩⟩
      obtain rfl := Option.some.inj ((hpilot _).symm.trans hw)
      exact hc.stable

theorem disjunct_main (su : Setup) (n : ℕ) :
    (disjunct su n .stable mainIndex : Analysis Ω Unit Value) = value su n .stable := rfl

/-- The pair of a node holds what both components hold. A component that is not there stands for no store. -/
theorem pairAt_spec {n : ℕ} {v : Pair} {r r' : Run Ω Unit} (hD : k.domain = su.options.domain)
    (h : Yields (pairAt su n) r v r') (hr : r.Regular su.key A (SlotsLawful k K)) :
    ∃ s, r.slots? su.key n = some s ∧ r' = r ∧ v.main = s.stable.first ∧ v.main.OfKind k ∧ v.pilot.OfKind k ∧
      ∀ σ, Held s σ ↔ v.main.Allows σ.point ∧ v.pilot.Allows σ.point := by
  simp only [pairAt, yields_bind, yields_pure, disjunct_main, yields_value] at h
  obtain ⟨main, r₁, ⟨⟨s, hs, rfl⟩, rfl⟩, pilot, r₂, hpilot, rfl, rfl⟩ := h
  obtain ⟨t, ht, rfl, hcase⟩ := yields_disjunct hpilot
  obtain rfl : s = t := Option.some.inj (hs.symm.trans ht)
  have hlaw := hr.slots n s hs
  refine ⟨s, hs, rfl, rfl, hlaw.stable, ?_⟩
  rcases hcase with hget | ⟨hget, env, rfl⟩
  · refine ⟨hlaw.pair.pilot pilot hget, fun σ => ?_⟩
    rw [Held, show s.stable.get? pilotIndex = some pilot from hget]
    simp [Slots.get]
  · refine ⟨hD ▸ Value.ofKind_bottom env, fun σ => iff_of_false ?_ ?_⟩
    · rintro ⟨-, w, hw, -⟩
      rw [show s.stable.get? pilotIndex = none from hget] at hw
      cases hw
    · exact fun hσ => Value.not_allows_of_isBottom rfl _ hσ.2

/-- A store that both old values or both images hold stays with both values. A pilot is promoted only where it
holds its own image. -/
theorem nextPair_spec {n : ℕ} {v w x : Pair} {r r' : Run Ω Unit} (h : Yields (nextPair su n v w) r x r')
    (hv : v.main.OfKind k ∧ v.pilot.OfKind k) (hw : w.main.OfKind k ∧ w.pilot.OfKind k) :
    r.Quiet r' ∧ x.main.OfKind k ∧ x.pilot.OfKind k ∧
      ∀ σ : Store, (v.main.Allows σ.point ∧ v.pilot.Allows σ.point ∨ w.main.Allows σ.point ∧ w.pilot.Allows σ.point) →
        x.main.Allows σ.point ∧ x.pilot.Allows σ.point := by
  simp only [nextPair, yields_bind] at h
  obtain ⟨b, r₁, hb, h⟩ := h
  obtain rfl := yields_isWidening hb
  cases b with
  | true =>
    simp only [if_true] at h
    split at h
    · rename_i hstable
      obtain ⟨-, hleq⟩ := Bool.and_eq_true_iff.mp hstable
      obtain ⟨rfl, rfl⟩ := yields_pure.mp h
      refine ⟨.refl _, hv.2, hv.2, fun σ hσ => ?_⟩
      have hpilot : v.pilot.Allows σ.point := by
        rcases hσ with hσ | hσ
        · exact hσ.2
        · exact Value.allows_of_leq hw.2 hv.2 hleq hσ.2
      exact ⟨hpilot, hpilot⟩
    · simp only [yields_bind, yields_ofFault, yields_pure] at h
      obtain ⟨main, r₂, ⟨hjoin, rfl⟩, pilot, r₃, hpilot, rfl, rfl⟩ := h
      obtain ⟨⟨ths, hwiden⟩, hq⟩ := yields_widen hpilot
      exact ⟨hq, hv.1.join hw.1 hjoin, hv.2.widenTo hw.2 hwiden, fun σ hσ =>
        ⟨Value.allows_join hv.1 hw.1 hjoin (hσ.imp And.left And.left),
          Value.allows_widenTo hv.2 hw.2 hwiden (hσ.imp And.right And.right)⟩⟩
  | false =>
    simp only [Bool.false_eq_true, if_false, yields_bind, yields_ofFault, yields_pure] at h
    obtain ⟨main, r₂, ⟨hjoin, rfl⟩, pilot, r₃, ⟨hjoin', rfl⟩, rfl, rfl⟩ := h
    exact ⟨.refl _, hv.1.join hw.1 hjoin, hv.2.join hw.2 hjoin', fun σ hσ =>
      ⟨Value.allows_join hv.1 hw.1 hjoin (hσ.imp And.left And.left),
        Value.allows_join hv.2 hw.2 hjoin' (hσ.imp And.right And.right)⟩⟩

theorem yields_storePair {n : ℕ} {v w : Pair} {r r' : Run Ω Unit} {u : Unit} (h : Yields (storePair su n v w) r u r') :
    ∃ s i, r.slots? su.key n = some s ∧ (i = s.initial ∨ v.main.isBottom = true ∧ i = s.initial.set 0 w.main) ∧
      Stores su.key n { s with stable := (s.stable.set mainIndex w.main).set pilotIndex w.pilot, initial := i } r r' := by
  have hpair : ∀ {x : Run Ω Unit} {s : Slots Disjunction}, x.slots? su.key n = some s → Yields (do
      setDisjunct su n .stable mainIndex w.main
      setDisjunct su n .stable pilotIndex w.pilot
      push n
      setComputed n false) x u r' →
      Stores su.key n { s with stable := (s.stable.set mainIndex w.main).set pilotIndex w.pilot } x r' := by
    intro x s hs hx
    simp only [yields_bind] at hx
    obtain ⟨u₁, x₁, hmain, u₂, x₂, hpilot, u₃, x₃, hpush, hset⟩ := hx
    obtain ⟨s₁, hs₁, rfl⟩ := yields_setDisjunct hmain
    obtain rfl : s = s₁ := Option.some.inj (hs.symm.trans hs₁)
    obtain ⟨s₂, hs₂, rfl⟩ := yields_setDisjunct hpilot
    rw [x.slots?_put _ _ _ _ (by rw [hs]; rfl), if_pos rfl] at hs₂
    obtain rfl := Option.some.inj hs₂
    exact stores_put hs (x.put_put ..) hpush hset
  simp only [storePair] at h
  split at h
  · rename_i hb
    obtain ⟨u₁, r₁, hi, h⟩ := yields_bind.mp h
    obtain ⟨s, hs, rfl⟩ := yields_setDisjunct hi
    have hput := r.slots?_put su.key n (s.set .initial (s.initial.set 0 w.main))
    have hsome : (r.slots? su.key n).isSome = true := by rw [hs]; rfl
    have hstores := hpair (by rw [Slots.get, hput n hsome, if_pos rfl]) h
    refine ⟨s, _, hs, .inr ⟨hb, rfl⟩, hstores.arena, hstores.blocks.trans (r.blocks_put _ _ _), fun m => ?_,
      hstores.waits, hstores.computed, hstores.oracle, hstores.memory⟩
    rw [hstores.slots]
    split
    · rfl
    · rename_i hm
      rw [Slots.get, hput m hsome, if_neg hm]
  · simp only [yields_bind] at h
    have h' := h
    obtain ⟨u₁, r₁, hmain, -⟩ := h
    obtain ⟨s, hs, -⟩ := yields_setDisjunct hmain
    exact ⟨s, _, hs, .inl rfl, hpair hs (by simpa only [yields_bind] using h')⟩

theorem SlotsLawful.raise {n : ℕ} {s : Slots Disjunction} {x : Pair} {i : Disjunction} (h : SlotsLawful k K n s)
    (hK : ∀ σ, K 0 σ) (hx : x.main.OfKind k ∧ x.pilot.OfKind k)
    (hg : ∀ σ, K n σ → Held s σ → x.main.Allows σ.point ∧ x.pilot.Allows σ.point)
    (hi : i = s.initial ∨ s.stable.first.isBottom = true ∧ i = s.initial.set 0 x.main) :
    SlotsLawful k K n { s with stable := (s.stable.set mainIndex x.main).set pilotIndex x.pilot, initial := i } := by
  have hentry : n = 0 → ∀ σ : Store, x.main.Allows σ.point ∧ x.pilot.Allows σ.point := by
    rintro rfl σ
    exact hg σ (hK σ) (h.pair.entry rfl σ)
  have hinitial : i.first.OfKind k ∧ (n = 0 → ∀ σ : Store, i.first.Allows σ.point) := by
    rcases hi with rfl | ⟨-, rfl⟩
    · exact ⟨h.initial, fun h0 σ => (h.entry h0 σ).2.2⟩
    · exact ⟨hx.1, fun h0 σ => (hentry h0 σ).1⟩
  obtain ⟨-, hget⟩ := get?_set_pilot s.stable x.main x.pilot
  refine ⟨⟨hx.1, h.descending, hinitial.1, h.known, fun h0 σ =>
    ⟨(hentry h0 σ).1, (h.entry h0 σ).2.1, hinitial.2 h0 σ⟩⟩, fun w hw => ?_, fun h0 σ => ?_⟩
  · obtain rfl := Option.some.inj (hget.symm.trans hw)
    exact hx.2
  · exact ⟨(hentry h0 σ).1, x.pilot, hget, (hentry h0 σ).2⟩

/-- Propagation along an edge keeps what a node holds, and its target then holds the images of what both values of
the source hold. -/
theorem ascendPair_spec {n p : ℕ} {v : Pair} {r r' : Run Ω Unit} {u : Unit} (ht : su.options.technique = .lookahead)
    (hD : k.domain = su.options.domain) (hf : su.transfer.Follows k step) (h0 : ∀ σ, K 0 σ)
    (h : Yields (ascendPair su n v p) r u r') (hr : r.Regular su.key A (SlotsLawful k K))
    (hv : v.main.OfKind k ∧ v.pilot.OfKind k) :
    r'.Regular su.key A (SlotsLawful k K) ∧ Gains (fun r => r.Within su.key Held) K (fun _ => True) r r' ∧
      ∀ σ σ', K p σ' → v.main.Allows σ.point ∧ v.pilot.Allows σ.point → A.EdgeStep step n σ p σ' →
        r'.Within su.key Held p σ' := by
  have hlaw : SlotLaw su.options.technique k K (SlotsLawful k K) := by
    rw [ht]
    exact slotLaw
  simp only [ascendPair, yields_bind] at h
  obtain ⟨u₁, r₁, hstats, main, r₂, hedge, h⟩ := h
  have hq₁ := yields_modifyStats hstats
  obtain ⟨hq₂, hmain, himage⟩ := transformEdge_spec hf hedge (hr.quiet hq₁) hv.1
  split at h
  · rename_i hb
    obtain ⟨-, rfl⟩ := yields_pure.mp h
    have hq := hq₁.trans hq₂
    refine ⟨hr.quiet hq, hq.alike.gains, fun σ σ' _ hσ hstep => ?_⟩
    exact absurd (himage σ σ' hσ.1 hstep) (Value.not_allows_of_isBottom hb _)
  · simp only [yields_bind] at h
    obtain ⟨pilot, r₃, hedge', old, r₄, hold, next, r₅, hnext, x, r₆, hx, y, r₇, hy, h⟩ := h
    obtain ⟨hq₃, hpilot, himage'⟩ := transformEdge_spec hf hedge' (hr.quiet (hq₁.trans hq₂)) hv.2
    have hr₃ := hr.quiet ((hq₁.trans hq₂).trans hq₃)
    obtain ⟨s, hs, rfl, holdmain, hkm, hkp, hheld⟩ := pairAt_spec hD hold hr₃
    obtain ⟨hq₅, hnm, hnp, hgrow⟩ := nextPair_spec hnext ⟨hkm, hkp⟩ ⟨hmain, hpilot⟩
    obtain ⟨rfl, hxk, hxg⟩ := meetKnown_spec hx hlaw (hr₃.quiet hq₅) hnm
    obtain ⟨rfl, hyk, hyg⟩ := meetKnown_spec hy hlaw (hr₃.quiet hq₅) hnp
    have hq := ((hq₁.trans hq₂).trans hq₃).trans hq₅
    have hs' : r.slots? su.key p = some s := by rw [← (((hq₁.trans hq₂).trans hq₃).slots? su.key p), hs]
    -- The pair before the meets holds old stores and images alike, and the meets keep those of `K`.
    have hall : ∀ σ, K p σ → (Held s σ ∨ main.Allows σ.point ∧ pilot.Allows σ.point) →
        x.Allows σ.point ∧ y.Allows σ.point := by
      intro σ hσ hor
      rw [hheld σ] at hor
      obtain ⟨hm, hp⟩ := hgrow σ hor
      exact ⟨hxg σ hσ hm, hyg σ hσ hp⟩
    have himages : ∀ σ σ', v.main.Allows σ.point ∧ v.pilot.Allows σ.point → A.EdgeStep step n σ p σ' →
        main.Allows σ'.point ∧ pilot.Allows σ'.point :=
      fun σ σ' hσ hstep => ⟨himage σ σ' hσ.1 hstep, himage' σ σ' hσ.2 hstep⟩
    split at h
    · rename_i hleq
      obtain ⟨hlm, hlp⟩ := Bool.and_eq_true_iff.mp hleq
      obtain ⟨-, rfl⟩ := yields_pure.mp h
      refine ⟨hr.quiet hq, hq.alike.gains, fun σ σ' hσ' hσ hstep => ⟨s, by rw [hq.slots?, hs'], (hheld σ').mpr ?_⟩⟩
      obtain ⟨hxσ, hyσ⟩ := hall σ' hσ' (.inr (himages σ σ' hσ hstep))
      exact ⟨Value.allows_of_leq hxk hkm hlm hxσ, Value.allows_of_leq hyk hkp hlp hyσ⟩
    · obtain ⟨s₁, i, hs₁, hi, hstores⟩ := yields_storePair h
      rw [hq.slots?, hs'] at hs₁
      obtain rfl := Option.some.inj hs₁
      rw [holdmain] at hi
      have hset := get?_set_pilot s.stable x y
      have hgains := hstores.gains (K := K) (P := fun _ => True) (Q := Held) (by rw [hq.slots?, hs']) fun σ hσ hheldσ =>
        ⟨(hall σ hσ (.inl hheldσ)).1, y, hset.2, (hall σ hσ (.inl hheldσ)).2⟩
      refine ⟨hstores.regular (hr.quiet hq) ?_, hq.alike.gains.trans hgains, fun σ σ' hσ' hσ hstep =>
        ⟨_, by rw [hstores.slots, if_pos rfl], ?_⟩⟩
      · exact (hr.slots p s hs').raise h0 (x := ⟨x, y⟩) ⟨hxk, hyk⟩ (fun σ hσ hheldσ => hall σ hσ (.inl hheldσ)) hi
      · obtain ⟨hxσ, hyσ⟩ := hall σ' hσ' (.inr (himages σ σ' hσ hstep))
        exact ⟨hxσ, y, hset.2, hyσ⟩

theorem computeNode_spec {n : ℕ} {r r' : Run Ω Unit} {u : Unit} (ht : su.options.technique = .lookahead)
    (hD : k.domain = su.options.domain) (hf : su.transfer.Follows k step) (h0 : ∀ σ, K 0 σ)
    (hK : ∀ n σ p σ', K n σ → A.EdgeStep step n σ p σ' → K p σ') (h : Yields (computeNode su n) r u r')
    (hr : r.Regular su.key A (SlotsLawful k K)) :
    r'.Regular su.key A (SlotsLawful k K) ∧ Gains (fun r => r.Within su.key Held) K (· ≠ n) r r' ∧
      (Closed (r'.Within su.key Held) K (A.EdgeStep step) n ∨ r'.Owed n) := by
  simp only [computeNode, yields_bind] at h
  obtain ⟨u₁, r₁, hset, v, r₂, hpair, h⟩ := h
  have hgains : Gains (fun r => r.Within su.key Held) K (· ≠ n) r r₁ := gains_setComputed hset
  have hr₁ : r₁.Regular su.key A (SlotsLawful k K) := by
    obtain ⟨-, rfl⟩ := yields_setComputed hset
    exact ⟨hr.arena, hr.blocks, hr.slots⟩
  obtain ⟨s, hs, rfl, -, hmain, hpilot, hheld⟩ := pairAt_spec hD hpair hr₁
  have hstart : ∀ σ, r₂.Within su.key Held n σ → v.main.Allows σ.point ∧ v.pilot.Allows σ.point := by
    rintro σ ⟨t, ht, hσ⟩
    obtain rfl : s = t := Option.some.inj (hs.symm.trans ht)
    exact (hheld σ).mp hσ
  split at h
  · rename_i hb
    obtain ⟨-, rfl⟩ := yields_pure.mp h
    exact ⟨hr₁, hgains, .inl fun σ p σ' _ hσ _ => absurd (hstart σ hσ).1 (Value.not_allows_of_isBottom hb _)⟩
  · simp only [yields_bind, yields_arena] at h
    obtain ⟨a, r₃, ⟨rfl, rfl⟩, h⟩ := h
    rw [hr₁.arena] at h
    obtain ⟨hr', hgains', hn⟩ := forM_closed (I := fun x => x.Regular su.key A (SlotsLawful k K)) hK
      (fun _ _ _ _ h => h.1)
      (fun p x x' hx hp => ascendPair_spec ht hD hf h0 hp hx ⟨hmain, hpilot⟩) h hr₁ hstart
    exact ⟨hr', hgains.trans ⟨hgains'.grows, fun m _ => hgains'.keeps m trivial⟩, hn⟩

theorem narrowNode_spec {n : ℕ} {r r' : Run Ω Unit} {u : Unit} (ht : su.options.technique = .lookahead)
    (hf : su.transfer.Follows k step) (h : Yields (narrowNode su n) r u r')
    (hr : r.Regular su.key A (SlotsLawful k K)) :
    r'.Regular su.key A (SlotsLawful k K) ∧ r'.memory = r.memory ∧ r'.engine.oracle = r.engine.oracle ∧
      Lowers su.key (· ≠ n) r r' ∧ r'.Lowered su.key K (A.EdgeStep step) n := by
  rw [narrowNode, disjunct_main] at h
  refine visit_lowered (fun _ _ _ _ h => h.1) ?_ h hr
  intro s hs p x x' hx _ hp
  exact descendEdge_spec hf (by rw [ht]; exact slotLaw) hp hx (hr.slots n s hs).stable

/-- Lawful slots, with main values that hold all stores in reach. -/
structure Sound (su : Setup) (k : ValueKind) (A : Arena) (step : Block → Store → Block → Store → Prop)
    (r : Run Ω Unit) : Prop where
  regular : r.Regular su.key A (SlotsLawful k (Reached (A.EdgeStep step)))
  reached : ∀ n σ, Reached (A.EdgeStep step) n σ → r.Stable su.key n σ

section Passes

variable (ht : su.options.technique = .lookahead) (hD : k.domain = su.options.domain)
  (hf : su.transfer.Follows k step)

include ht hD hf

/-- Every node either holds nothing yet or is scheduled, so the pass takes all stores in reach along. -/
theorem ascend_sound {fromEntry : Bool} {r r' : Run Ω Unit} {u : Unit}
    (h : Yields (ascend su (computeNode su) fromEntry) r u r')
    (hr : r.Regular su.key A (SlotsLawful k (Reached (A.EdgeStep step)))) (hentry : ∃ s, r.slots? su.key 0 = some s)
    (hcomputed : ∀ n, r.computed? n ≠ some true)
    (hlive : ∀ n, (∀ σ, ¬ r.Stable su.key n σ) ∨ r.Waits n ∨ fromEntry = true ∧ n = 0) : Sound su k A step r' := by
  have hK : ∀ n σ p σ', Reached (A.EdgeStep step) n σ → A.EdgeStep step n σ p σ' → Reached (A.EdgeStep step) p σ' :=
    fun _ _ _ _ h h' => h.step h'
  obtain ⟨hr', hgrows, hall⟩ := ascend_closed hK (fun _ _ hx => ⟨hx.arena, hx.blocks, hx.slots⟩)
    (fun x n x' hx hv => computeNode_spec ht hD hf Reached.entry hK hv hx) h hr hcomputed fun n =>
      (hlive n).imp_left fun hnone σ _ _ _ ⟨s, hs, hσ⟩ _ => absurd ⟨s, hs, hσ.1⟩ (hnone σ)
  obtain ⟨s, hs⟩ := hentry
  refine ⟨hr', fun n σ hσ => ?_⟩
  obtain ⟨t, ht, hheld⟩ := holds_of_closed hall
    (fun σ => hgrows 0 σ (.entry σ) ⟨s, hs, (hr.slots 0 s hs).pair.entry rfl σ⟩) hσ
  exact ⟨t, ht, hheld.1⟩

theorem descendRounds_sound {rounds : ℕ} {r r' : Run Ω Unit} {u : Unit}
    (h : Yields (descendRounds su (narrowNode su) rounds) r u r') (hr : Sound su k A step r) : Sound su k A step r' := by
  have hcov : ∀ n, r.Covered su.key (Reached (A.EdgeStep step)) (A.EdgeStep step) n :=
    fun n σ p σ' hσ _ hstep => hr.reached p σ' (.step hσ hstep)
  obtain ⟨hr', -, hn⟩ := descendRounds_spec (J := fun _ _ => True) hD (by simp [ht]) (by rw [ht]; exact slotLaw)
    (fun x n x' hx _ hv => by
      obtain ⟨hx', -, -, hlow, hn⟩ := narrowNode_spec ht hf hv hx
      exact ⟨hx', trivial, hlow, hn⟩) h hr.regular trivial hcov
  exact ⟨hr', fun n σ hσ => stable_of_covered hn.covered (fun σ => hn.entry σ (hr.reached 0 σ (.entry σ))) hσ⟩

theorem restartFromSeeds_sound {rounds : ℕ} {r r' : Run Ω Unit} {u : Unit}
    (h : Yields (restartFromSeeds su (computeNode su) (narrowNode su) rounds) r u r') (hr : Sound su k A step r) :
    Sound su k A step r' := by
  rcases Classic.restartFromSeeds_cases hD (by simp [ht]) (by rw [ht]; exact slotLaw) (fun _ _ hz => hz.toSlotsLawful)
    (fun _ _ _ hz hz' heq => ⟨hz', hz.pair.of_stable heq⟩) h hr.regular hr.reached with
    ⟨hr', hsame⟩ | ⟨r₁, r₂, hr₁, hentry, hcomputed, hlive, hascend, hdescend⟩
  · exact ⟨hr', fun n σ hσ => (hsame n σ).mpr (hr.reached n σ hσ)⟩
  · obtain ⟨s, hs, -⟩ := hentry _ (hr.reached 0 (fun _ => 0) (.entry _))
    exact descendRounds_sound ht hD hf hdescend
      (ascend_sound ht hD hf hascend hr₁ ⟨s, hs⟩ hcomputed fun n => (hlive n).imp_right .inl)

theorem computeFunction_sound {r r' : Run Ω Unit} {u : Unit} (h : Yields (computeFunction su) r u r')
    (hr : r.Regular su.key A (Classic.SlotsLawful k (Reached (A.EdgeStep step))))
    (hsingle : ∀ n s, r.slots? su.key n = some s → s.stable.others = [])
    (hothers : ∀ n σ, n ≠ 0 → ¬ r.Stable su.key n σ) (hcomputed : ∀ n, r.computed? n ≠ some true) :
    Sound su k A step r' := by
  simp only [computeFunction, yields_bind] at h
  obtain ⟨v, r₁, htop, u₁, r₂, hset, u₂, r₃, hascend, u₃, r₄, hdescend, h⟩ := h
  obtain ⟨⟨env, rfl⟩, rfl⟩ := yields_top htop
  obtain ⟨s, hs, rfl⟩ := yields_setDisjunct hset
  have hput := r₁.slots?_put su.key 0 (s.set .stable (s.stable.set pilotIndex (.top su.options.domain env)))
  have hsome : (r₁.slots? su.key 0).isSome = true := by rw [hs]; rfl
  have hget : (s.stable.set pilotIndex (.top su.options.domain env)).get? pilotIndex =
      some (.top su.options.domain env) := Disjunction.get?_set _ _ _
  -- The entry gets its pilot, and the other nodes have none yet.
  have hr₂ : (r₁.put su.key 0 (s.set .stable (s.stable.set pilotIndex (.top su.options.domain env)))).Regular su.key A
      (SlotsLawful k (Reached (A.EdgeStep step))) := by
    refine ⟨hr.arena, (r₁.blocks_put _ _ _).trans hr.blocks, fun n t hn => ?_⟩
    rw [hput n hsome] at hn
    split at hn
    · rename_i h0
      obtain rfl := Option.some.inj hn
      have hz := hr.slots 0 s hs
      rw [h0]
      refine ⟨⟨hz.stable, hz.descending, hz.initial, hz.known, hz.entry⟩, fun w hw => ?_, fun _ σ => ?_⟩
      · obtain rfl := Option.some.inj (hget.symm.trans hw)
        exact hD ▸ Value.ofKind_top env
      · exact ⟨(hz.entry rfl σ).1, _, hget, Value.allows_top _ _ _⟩
    · rename_i h0
      refine ⟨hr.slots n t hn, fun w hw => ?_, fun hn0 => absurd hn0 h0⟩
      rw [Disjunction.get?, Disjunction.toList, hsingle n t hn] at hw
      cases hw
  have hr₃ := ascend_sound ht hD hf hascend hr₂ ⟨_, by rw [Slots.get, hput 0 hsome, if_pos rfl]⟩ hcomputed fun n => by
    by_cases hn : n = 0
    · exact .inr (.inr ⟨rfl, hn⟩)
    · refine .inl ?_
      rintro σ ⟨t, hn', hσ⟩
      refine hothers n σ hn ⟨t, ?_, hσ⟩
      rwa [Slots.get, hput n hsome, if_neg hn] at hn'
  have hr₄ := descendRounds_sound ht hD hf hdescend hr₃
  split at h
  · exact restartFromSeeds_sound ht hD hf h hr₄
  · obtain ⟨-, rfl⟩ := yields_pure.mp h
    exact hr₄

end Passes

variable [PathOracle Ω] {p : Program} {options : Options} {resources : Resources} {name : String} {oracle : Ω}
  {ctx c : Context} {o : Outcome}

/-- Without known properties, a completed run of lookahead widening covers every store with which an execution
reaches a block: the main value that is reported for the block contains it. So a site reported as proved is never
reached. -/
theorem lookahead_sound (hp : p.graph.WellFormed) (ht : options.technique = .lookahead) (hknown : options.known = none)
    (hctx : ctx.OfGraph p.graph.control) (h : analyzeWith (p.setup options resources) name oracle ctx = (.ok o, c))
    (hc : o.isCompleted = true) :
    (∀ b σ, p.Reaches b σ → o.Covers b σ) ∧
      ∀ site ∈ o.sites, site.isProved = true → ∀ σ, ¬ p.Reaches site.block σ := by
  obtain ⟨r₁, r, -, hstart, -, -, hcompute, -, hreports⟩ := exists_run_of_completed strategy hctx
    (fun e => by simp only [runTechnique, Program.setup, ht]) h hc
  let k : ValueKind := ⟨options.domain, options.domain == .intervals, by simp⟩
  have hregular : r₁.Regular (p.setup options resources).key (.build p.graph.control)
      (Classic.SlotsLawful k (Reached ((Arena.build p.graph.control).EdgeStep p.Step))) := by
    exact ⟨hstart.arena, hstart.blocks, fun n s hs => .of_fresh (hstart.slots n s hs) (.inl (hstart.unknown hknown n s hs))⟩
  have hr : Sound (p.setup options resources) k (.build p.graph.control) p.Step r :=
    computeFunction_sound ht rfl (p.transfer_follows k) hcompute hregular (fun n s hs => by
      obtain ⟨env, hstable, -⟩ := (hstart.slots n s hs).start
      rw [hstable]
      rfl) (fun n σ hn => hstart.not_stable hn σ) hstart.computed
  have hrep := hreports hr.regular.arena hr.regular.blocks
  have hcovers : ∀ b σ, p.Reaches b σ → o.Covers b σ := by
    intro b σ hσ
    obtain ⟨n, hn, hreached⟩ := Program.reached_of_reaches hp hσ
    refine (hrep.covers_iff_stable (k := k) hp.bounded (by simp [Program.setup, ht]) (fun hd => by simpa [k] using hd)
      fun n s hs => (hr.regular.slots n s hs).stable).mpr ⟨n, ?_, hr.reached n σ hreached⟩
    rw [hr.regular.blocks]
    exact hn
  exact ⟨hcovers, fun site hsite hproved σ hσ =>
    hrep.not_covers_of_proved hp.bounded hsite hproved σ (hcovers _ σ hσ)⟩

/-- A run on the counter that starts again from widening seeds. -/
theorem lookahead_sound_counter : ∃ o c,
    analyze (Program.counter.setup { technique := .lookahead, seeded := true } .ample) "f"
        (.build Program.counter.graph.control) = (.ok o, c) ∧
      o.isCompleted = true ∧ (∀ b σ, Program.counter.Reaches b σ → o.Covers b σ) ∧ ∀ σ, ¬ Program.counter.Reaches 3 σ := by
  obtain ⟨o, c, h, hc, hproves⟩ := exists_of_completes
    (Program.counter.setup { technique := .lookahead, seeded := true } .ample) (.build Program.counter.graph.control)
    (fun o _ => o.proves 3) (by decide +kernel)
  obtain ⟨hcovers, hproved⟩ := lookahead_sound Program.counter_wellFormed rfl rfl (Context.ofGraph_build _) h hc
  obtain ⟨site, hmem, hblock, hp⟩ := Outcome.exists_of_proves hproves
  exact ⟨o, c, h, hc, hcovers, fun σ => hblock ▸ hproved site hmem hp σ⟩

end Lookahead

end PathInvariants
