import PathInvariants.Proofs.EngineTermination

/-!
# Passes without end

A meet with what is known can give a widened bound back, so the heights of the stable values need not
come down in a pass. Each turn of a classic pass brings it down all the same unless it gives a bound
back, so a pass ends unless this goes on forever. The fuel decides only whether the end is reached.
-/
namespace PathInvariants

variable {Ω S α β : Type}

namespace Run

variable {key : Key} {candidates : Symbol → Finset ℤ} {t : ℕ} {r r' x x' : Run Ω S}

theorem Regains.congr (h : Regains key candidates t r r') (harena : x.arena = r.arena)
    (hs : x.slots? key t = r.slots? key t) (hs' : x'.slots? key t = r'.slots? key t) : Regains key candidates t x x' := by
  rwa [Regains, harena, hs, hs']

end Run

namespace Analysis

open Run

variable {visit : ℕ → Analysis Ω S Unit} {r r₁ r' : Run Ω S}

/-- One turn of a loop over the worklist; tells whether there was a node to take. -/
def turn (visit : ℕ → Analysis Ω S Unit) : Analysis Ω S Bool := do
  match ← pop? with
  | none => return false
  | some n =>
    unless ← isComputed n do visit n
    return true

/-- A turn that takes a node leaves the rest of the loop. -/
theorem run_drain_of_turn (h : Yields (turn visit) r true r₁) (fuel : ℕ) :
    (drain visit (fuel + 1)).run.run r = (drain visit fuel).run.run r₁ := by
  simp only [turn, yields_bind] at h
  obtain ⟨a, r₂, hpop, h⟩ := h
  rw [drain, hpop.run_bind]
  cases a with
  | none => cases (yields_pure.mp h).1
  | some n =>
    obtain ⟨b, r₃, hcomputed, h⟩ := yields_bind.mp h
    dsimp only
    rw [hcomputed.run_bind]
    cases b with
    | true =>
      obtain ⟨-, rfl⟩ := yields_pure.mp h
      rfl
    | false =>
      obtain ⟨u, r₄, hvisit, hpure⟩ := yields_bind.mp h
      obtain ⟨-, rfl⟩ := yields_pure.mp hpure
      simp only [Bool.false_eq_true, if_false]
      rw [hvisit.run_bind]

theorem yields_drain_of_turn (h : Yields (turn visit) r false r') (fuel : ℕ) : Yields (drain visit (fuel + 1)) r () r' := by
  simp only [turn, yields_bind] at h
  obtain ⟨a, r₂, hpop, h⟩ := h
  cases a with
  | none =>
    obtain ⟨-, rfl⟩ := yields_pure.mp h
    exact yields_bind.mpr ⟨none, _, hpop, yields_pure.mpr ⟨rfl, rfl⟩⟩
  | some n =>
    obtain ⟨b, r₃, -, h⟩ := yields_bind.mp h
    cases b with
    | true => cases (yields_pure.mp h).1
    | false =>
      obtain ⟨u, r₄, -, hpure⟩ := yields_bind.mp h
      cases (yields_pure.mp hpure).1

/-- So many turns; tells whether there was a node to take each time. -/
def turns (visit : ℕ → Analysis Ω S Unit) : (count : ℕ) → Analysis Ω S Bool
  | 0 => pure true
  | count + 1 => do if ← turn visit then turns visit count else return false

theorem run_drain_of_turns {count : ℕ} (h : Yields (turns visit count) r true r') (fuel : ℕ) :
    (drain visit (fuel + count)).run.run r = (drain visit fuel).run.run r' := by
  induction count generalizing r with
  | zero =>
    obtain ⟨-, rfl⟩ := yields_pure.mp h
    rfl
  | succ count ih =>
    obtain ⟨b, r₁, hturn, h⟩ := yields_bind.mp h
    cases b with
    | false => cases (yields_pure.mp h).1
    | true => rw [← Nat.add_assoc, run_drain_of_turn hturn, ih h]

/-- After finitely many turns the loop returns, if it may make more of them. -/
theorem yields_drain_of_sequence {x : ℕ → Run Ω S} {count : ℕ} (h : ∀ i < count, Yields (turn visit) (x i) true (x (i + 1)))
    (hlast : Yields (turn visit) (x count) false r') {fuel : ℕ} (hfuel : count < fuel) :
    Yields (drain visit fuel) (x 0) () r' := by
  induction count generalizing x fuel with
  | zero =>
    obtain ⟨fuel, rfl⟩ := Nat.exists_eq_add_of_lt hfuel
    exact yields_drain_of_turn hlast _
  | succ count ih =>
    obtain ⟨fuel, rfl⟩ := Nat.exists_eq_add_of_le' (Nat.one_le_of_lt hfuel)
    rw [Yields, run_drain_of_turn (h 0 (Nat.succ_pos count))]
    exact ih (x := fun i => x (i + 1)) (fun i hi => h (i + 1) (Nat.succ_lt_succ hi)) hlast (Nat.lt_of_succ_lt_succ hfuel)

/-- Turns without end come to the end of any fuel. -/
theorem exhausts_drain_of_sequence {x : ℕ → Run Ω S} (h : ∀ i, Yields (turn visit) (x i) true (x (i + 1))) (i fuel : ℕ) :
    Exhausts (drain visit fuel) (x i) := by
  induction fuel generalizing i with
  | zero => exact exhausts_throw _
  | succ fuel ih =>
    rw [Exhausts, run_drain_of_turn (h i)]
    exact ih (i + 1)

end Analysis

namespace Classic

open Analysis Run

variable {su : Setup} {L : Layout} {rank : ℕ → ℕ} {n : ℕ} {r r' : Run Ω Unit}

/-- Along distinct edges a node comes down, or one of its successors regains a bound. -/
theorem ensures_edges (hsu : Workable su L rank) (hn : n < L.arena.size) (v : Value) {l : List ℕ}
    (hl : ∀ p ∈ l, p ∈ L.arena.successors n) (hnodup : l.Nodup) (hr : r.Operable su.key L) :
    Ensures (l.forM fun p => do
      let _ ← ascendEdge su n v p) r fun _ r' => r'.Operable su.key L ∧
        (∀ m, m ∉ l → r'.slots? su.key m = r.slots? su.key m) ∧
        (Ascends su.key L rank n r r' ∨ ∃ t ∈ l, Regains su.key (Value.candidates L.thresholds) t r r') := by
  induction l generalizing r with
  | nil => exact ensures_pure.mpr ⟨hr, fun _ _ => rfl, .inl (Quiet.refl r).alike.ascends⟩
  | cons p l ih =>
    obtain ⟨hp, hl'⟩ := List.forall_mem_cons.mp hl
    obtain ⟨hnew, hnodup'⟩ := List.nodup_cons.mp hnodup
    have hlt := hsu.successors n hn p hp
    refine ensures_bind.mpr (ensures_bind.mpr ((ensures_ascendEdge_regains hsu.timeout hsu.lists hr hn hlt
      (hsu.rank n hn p hp) v).mono fun _ r₁ ⟨hr₁, _, hsame, hfirst⟩ => ensures_pure.mpr ?_))
    refine (ih hl' hnodup' hr₁).mono fun _ r' ⟨hr', hsame', hrest⟩ => ⟨hr', fun m hm => ?_, ?_⟩
    · rw [List.mem_cons, not_or] at hm
      exact (hsame' m hm.2).trans (hsame m hm.1)
    -- The edges lead to different nodes, so what one of them has regained is still there in the end.
    · rcases hfirst with hasc | hregain
      · rcases hrest with hasc' | ⟨t, ht, hregain⟩
        · exact .inl (hasc.trans hasc')
        · have htp : t ≠ p := fun h => hnew (h ▸ ht)
          exact .inr ⟨t, List.mem_cons_of_mem _ ht, hregain.congr (hr.arena.trans hr₁.arena.symm) (hsame t htp).symm rfl⟩
      · exact .inr ⟨p, List.mem_cons_self, hregain.congr rfl rfl (hsame' p hnew)⟩

/-- The state after so many turns of a pass. -/
def afterTurns (su : Setup) (r : Run Ω Unit) (i : ℕ) : Run Ω Unit :=
  (fun x => ((turn (computeNode su)).run.run x).2)^[i] r

section Turns

variable (hsu : Workable su L rank) (hnodup : ∀ n < L.arena.size, (L.arena.successors n).Nodup)
  (hr : r.Operable su.key L)

include hsu hnodup hr

theorem ensures_computeNode_regains (hn : n < L.arena.size) : Ensures (computeNode su n) r fun _ r' =>
    r'.Operable su.key L ∧ (Ascends su.key L rank n (r.mark n true) r' ∨
      ∃ t, Regains su.key (Value.candidates L.thresholds) t r r') := by
  have hmark := hr.mark n true
  obtain ⟨s, hs, -⟩ := hmark.slots n hn
  rw [computeNode, ensures_bind, ensures_setComputed (hr.computed.symm ▸ hn), ensures_bind, ensures_value hs]
  split
  · exact ensures_pure.mpr ⟨hmark, .inl (Quiet.refl _).alike.ascends⟩
  · rw [ensures_bind, ensures_arena, hmark.arena]
    refine (ensures_edges hsu hn _ (fun p hp => hp) (hnodup n hn) hmark).mono ?_
    rintro _ r' ⟨hr', -, hcase⟩
    refine ⟨hr', hcase.imp_right ?_⟩
    rintro ⟨t, -, hregain⟩
    exact ⟨t, hregain.congr rfl rfl rfl⟩

/-- A turn brings the pass down unless a widening point regains a bound. -/
theorem ensures_turn {weight : ℕ → ℕ} (hweight : ∀ n < L.arena.size,
      ∑ t ∈ (Finset.range L.arena.size).filter (rank n < rank ·), weight t < weight n) :
    Ensures (turn (computeNode su)) r fun b r' => r'.Operable su.key L ∧
      (b = true → Sinks su.key L weight r' r ∨ ∃ t, Regains su.key (Value.candidates L.thresholds) t r r') := by
  cases hw : r.engine.worklist with
  | mk queue =>
    cases queue with
    | nil =>
      exact ⟨false, r, yields_bind.mpr ⟨none, r, yields_pop?_empty hw, yields_pure.mpr ⟨rfl, rfl⟩⟩, hr,
        fun h => absurd h Bool.false_ne_true⟩
    | cons a queue =>
      obtain ⟨n, label⟩ := a
      have hq : r.engine.worklist.queue = (n, label) :: queue := by rw [hw]
      have hn := hr.waiting n (by simp [Waits, Worklist.nodes, hq])
      obtain ⟨b, hb⟩ := hr.exists_computed hn
      refine ensures_bind.mpr ⟨some n, _, yields_pop?_cons hq, ?_⟩
      dsimp only
      rw [ensures_bind, ensures_isComputed (show (r.pop queue).computed? n = some b from hb)]
      cases b with
      | true => exact ensures_pure.mpr ⟨hr.pop hq, fun _ => .inl (sinks_pop hq hb weight)⟩
      | false =>
        rw [if_neg Bool.false_ne_true, ensures_bind]
        refine (ensures_computeNode_regains hsu hnodup (hr.pop hq) hn).mono ?_
        rintro _ r' ⟨hr', hcase⟩
        refine ensures_pure.mpr ⟨hr', fun _ => hcase.imp (fun hasc => hasc.sinks hweight hr hq hb) ?_⟩
        rintro ⟨t, hregain⟩
        exact ⟨t, hregain.congr rfl rfl rfl⟩

theorem afterTurns_spec {weight : ℕ → ℕ} (hweight : ∀ n < L.arena.size,
      ∑ t ∈ (Finset.range L.arena.size).filter (rank n < rank ·), weight t < weight n) (i : ℕ) :
    (afterTurns su r i).Operable su.key L ∧ ∃ b, Yields (turn (computeNode su)) (afterTurns su r i) b (afterTurns su r (i + 1)) ∧
      (b = true → Sinks su.key L weight (afterTurns su r (i + 1)) (afterTurns su r i) ∨
        ∃ t, Regains su.key (Value.candidates L.thresholds) t (afterTurns su r i) (afterTurns su r (i + 1))) := by
  have hstep : ∀ i, (afterTurns su r i).Operable su.key L →
      Ensures (turn (computeNode su)) (afterTurns su r i) fun b x => x = afterTurns su r (i + 1) ∧ x.Operable su.key L ∧
        (b = true → Sinks su.key L weight x (afterTurns su r i) ∨
          ∃ t, Regains su.key (Value.candidates L.thresholds) t (afterTurns su r i) x) := by
    intro i hi
    obtain ⟨b, x, hturn, hx⟩ := ensures_turn hsu hnodup hi hweight
    refine ⟨b, x, hturn, ?_, hx⟩
    rw [afterTurns, Function.iterate_succ_apply', ← afterTurns, show (turn (computeNode su)).run.run _ = _ from hturn]
  have hi : (afterTurns su r i).Operable su.key L := by
    induction i with
    | zero => exact hr
    | succ i ih =>
      obtain ⟨b, x, -, rfl, hx, -⟩ := hstep i ih
      exact hx
  obtain ⟨b, x, hturn, rfl, -, hcase⟩ := hstep i hi
  exact ⟨hi, b, hturn, hcase⟩

theorem operable_of_turns {count : ℕ} {b : Bool} (h : Yields (turns (computeNode su) count) r b r') :
    r'.Operable su.key L := by
  obtain ⟨weight, hweight⟩ := exists_weight rank L.arena.size
  induction count generalizing r with
  | zero =>
    obtain ⟨-, rfl⟩ := yields_pure.mp h
    exact hr
  | succ count ih =>
    obtain ⟨found, r₁, hturn, h⟩ := yields_bind.mp h
    have hr₁ := ((ensures_turn hsu hnodup hr hweight).of_yields hturn).1
    cases found with
    | false =>
      obtain ⟨-, rfl⟩ := yields_pure.mp h
      exact hr₁
    | true => exact ih hr₁ h

end Turns

/-- A pass goes on without end, and again and again a widening point regains a bound. -/
def RegainsForever (su : Setup) (r : Run Ω Unit) : Prop :=
  ∃ x : ℕ → Run Ω Unit, x 0 = r ∧ (∀ i, Yields (turn (computeNode su)) (x i) true (x (i + 1))) ∧ ∀ i, ∃ j ≥ i, ∃ t,
    Regains su.key (Value.candidates (r.engine.thresholds ++ r.arena.guards su.transfer)) t (x j) (x (j + 1))

/-- A pass that regains bounds forever comes to the end of any fuel. -/
theorem RegainsForever.exhausts (h : RegainsForever su r) (fuel : ℕ) : Exhausts (drain (computeNode su) fuel) r := by
  obtain ⟨x, rfl, hturn, -⟩ := h
  exact exhausts_drain_of_sequence hturn 0 fuel

/-- A pass comes to an end or regains bounds forever. -/
theorem halts_or_regainsForever (hsu : Workable su L rank)
    (hnodup : ∀ n < L.arena.size, (L.arena.successors n).Nodup) (hr : r.Operable su.key L)
    (hL : L.thresholds = r.engine.thresholds ++ r.arena.guards su.transfer) :
    Halts (fun ρ => drain (computeNode su) ρ.fuel) r (fun _ r' => r'.Operable su.key L) ∨ RegainsForever su r := by
  obtain ⟨weight, hweight⟩ := exists_weight rank L.arena.size
  have hturns := afterTurns_spec hsu hnodup hr hweight
  by_cases hend : ∃ i, Yields (turn (computeNode su)) (afterTurns su r i) false (afterTurns su r (i + 1))
  · classical
    refine .inl ⟨Nat.find hend + 1, (), afterTurns su r (Nat.find hend + 1), fun ρ hρ => ?_, (hturns _).1⟩
    refine yields_drain_of_sequence (x := afterTurns su r) (fun i hi => ?_) (Nat.find_spec hend) hρ
    obtain ⟨-, b, hb, -⟩ := hturns i
    cases b with
    | true => exact hb
    | false => exact absurd hb (Nat.find_min hend hi)
  · have htrue : ∀ i, Yields (turn (computeNode su)) (afterTurns su r i) true (afterTurns su r (i + 1)) := by
      intro i
      obtain ⟨-, b, hb, -⟩ := hturns i
      cases b with
      | true => exact hb
      | false => exact absurd ⟨i, hb⟩ hend
    refine .inr ⟨afterTurns su r, rfl, htrue, fun i => ?_⟩
    -- The heights do not come down at every turn from the `i`th on.
    have : IsWellFounded (Run Ω Unit) (Sinks su.key L weight) := ⟨wellFounded_sinks su.key L weight⟩
    obtain ⟨j, hj⟩ := WellFounded.not_rel_apply_succ (r := Sinks su.key L weight) fun j => afterTurns su r (i + j)
    obtain ⟨-, b, hb, hcase⟩ := hturns (i + j)
    obtain rfl : b = true := Except.ok.inj (Prod.mk.inj (hb.symm.trans (htrue (i + j)))).1
    rw [← hL]
    exact ⟨i + j, Nat.le_add_right i j, (hcase rfl).resolve_left hj⟩

end Classic

/-- What a computation yields, it yields with any other fuel, unless that is less and comes to an end. -/
def Persists (m : Resources → Analysis Ω S α) : Prop :=
  ∀ ⦃ρ r a r'⦄, Yields (m ρ) r a r' → ∀ ρ' : Resources, Yields (m ρ') r a r' ∨ ρ'.fuel < ρ.fuel ∧ Exhausts (m ρ') r

theorem Persists.const (m : Analysis Ω S α) : Persists fun _ => m := fun _ _ _ _ h _ => .inl h

theorem Persists.bind {m : Resources → Analysis Ω S α} {f : Resources → α → Analysis Ω S β} (hm : Persists m)
    (hf : ∀ a, Persists fun ρ => f ρ a) : Persists fun ρ => m ρ >>= f ρ := by
  intro ρ r b r' h ρ'
  obtain ⟨a, r₁, hyields, hrest⟩ := yields_bind.mp h
  rcases hm hyields ρ' with hyields' | ⟨hless, hends⟩
  · rcases hf a hrest ρ' with hrest' | ⟨hless, hends⟩
    · exact .inl (yields_bind.mpr ⟨a, r₁, hyields', hrest'⟩)
    · exact .inr ⟨hless, hyields'.exhausts_bind hends⟩
  · exact .inr ⟨hless, hends.bind _⟩

theorem Persists.eq_of_yields {m : Resources → Analysis Ω S α} (hm : Persists m) {ρ ρ' : Resources} {r r₁ r₂ : Run Ω S}
    {a b : α} (h : Yields (m ρ) r a r₁) (h' : Yields (m ρ') r b r₂) : a = b ∧ r₁ = r₂ := by
  rcases hm h ρ' with hyields | ⟨-, hends⟩
  · obtain ⟨hab, hr⟩ := Prod.mk.inj (hyields.symm.trans h')
    exact ⟨Except.ok.inj hab, hr⟩
  · exact absurd h' hends.not_yields

namespace Analysis

open Run

variable {su : Setup}

theorem yields_drain_or_exhausts {visit : ℕ → Analysis Ω S Unit} {fuel : ℕ} {r r' : Run Ω S} {u : Unit}
    (h : Yields (drain visit fuel) r u r') (fuel' : ℕ) :
    Yields (drain visit fuel') r u r' ∨ fuel' < fuel ∧ Exhausts (drain visit fuel') r := by
  induction fuel generalizing fuel' r with
  | zero => exact absurd h not_yields_throw
  | succ fuel ih =>
    cases fuel' with
    | zero => exact .inr ⟨Nat.succ_pos fuel, exhausts_throw r⟩
    | succ fuel' =>
      obtain ⟨a, r₁, hpop, h⟩ := yields_bind.mp h
      rw [drain, Yields, Exhausts, hpop.run_bind]
      cases a with
      | none => exact .inl h
      | some n =>
        obtain ⟨b, r₂, hcomputed, h⟩ := yields_bind.mp h
        dsimp only
        rw [hcomputed.run_bind]
        cases b with
        | true => exact (ih h fuel').imp_right fun hends => ⟨Nat.succ_lt_succ hends.1, hends.2⟩
        | false =>
          obtain ⟨v, r₃, hvisit, h⟩ := yields_bind.mp h
          simp only [Bool.false_eq_true, if_false]
          rw [hvisit.run_bind]
          exact (ih h fuel').imp_right fun hends => ⟨Nat.succ_lt_succ hends.1, hends.2⟩

theorem persists_drain (visit : ℕ → Analysis Ω S Unit) : Persists fun ρ => drain visit ρ.fuel :=
  fun _ _ _ _ h ρ' => yields_drain_or_exhausts h ρ'.fuel

theorem persists_descend (narrow : ℕ → Analysis Ω S Unit) : Persists fun ρ => descend (su.under ρ) narrow :=
  (Persists.const resetComputed).bind fun _ => (Persists.const clearWorklist).bind fun _ =>
    (Persists.const nodeCount).bind fun count =>
      (Persists.const ((List.range count).forM (resetDescending su))).bind fun _ => (Persists.const (push 0)).bind fun _ =>
        persists_drain narrow

theorem persists_descendRounds (ht : su.options.timeout = none) (narrow : ℕ → Analysis Ω S Unit) (rounds : ℕ) :
    Persists fun ρ => descendRounds (su.under ρ) narrow rounds := by
  have hagain : ∀ count, Persists fun ρ => descendAgain (su.under ρ) narrow count := by
    intro count
    induction count with
    | zero => exact Persists.const (descendAgain su narrow 0)
    | succ count ih =>
      refine (Persists.const (settle su)).bind fun changed => ?_
      cases changed with
      | false => exact Persists.const (pure ())
      | true =>
        simp only [checkDeadline_under ht]
        exact (persists_descend narrow).bind fun _ => (Persists.const (checkDeadline su)).bind fun _ => ih
  exact (persists_descend narrow).bind fun _ => hagain (rounds + 1)

end Analysis

end PathInvariants
