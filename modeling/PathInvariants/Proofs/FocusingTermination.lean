import PathInvariants.Proofs.FocusingSteps
import PathInvariants.Proofs.SymbolRanges

/-!
# Termination of path focusing

A step of a call lowers a widening point, makes the call join only, or covers one more path, unless
the call joins only and the path leads back to its node. So a call ends unless it joins forever along
such paths, and the ascending pass ends if and only if no call does. Two loops that raise each other's
bounds, beside a third one that makes the call join only, keep a call going forever.
-/
namespace PathInvariants

namespace Focusing

open Run Analysis

variable {su : Setup} {k : ValueKind} {step : Block → Store → Block → Store → Prop} {L : Layout} {rank : ℕ → ℕ}
  {r r₁ r' : Run SearchOracle Memory} {n m : ℕ} {p : Path} {b b' : Bool}

open Classical in
/-- The number of novel paths out of a node. -/
noncomputable def novelCount (su : Setup) (L : Layout) (r : Run SearchOracle Memory) (n : ℕ) : ℕ :=
  ((su.graph.pathsAt n).toFinset.filter (Novel su L r n)).card

/-- A widening point has come down in height, or the call has begun to join only, or there are fewer novel paths. -/
def Drops (su : Setup) (L : Layout) (n : ℕ) (c' c : Bool × Run SearchOracle Memory) : Prop :=
  c'.2.heights su.key L < c.2.heights su.key L ∨ c'.2.heights su.key L = c.2.heights su.key L ∧
    (c.1 = false ∧ c'.1 = true ∨ c'.1 = c.1 ∧ novelCount su L c'.2 n < novelCount su L c.2 n)

theorem wellFounded_drops (su : Setup) (L : Layout) (n : ℕ) : WellFounded (Drops su L n) := by
  have hwf : WellFounded (Prod.Lex (· < ·) (Prod.Lex (· < ·) (· < ·)) :
      (Fin L.arena.size → WithTop ℕ ×ₗ WithTop ℕ) × ℕ × ℕ → _ → Prop) :=
    wellFounded_lt.prod_lex (wellFounded_lt.prod_lex wellFounded_lt)
  refine Subrelation.wf ?_ (InvImage.wf (fun c : Bool × Run SearchOracle Memory =>
    (c.2.heights su.key L, if c.1 then 0 else 1, novelCount su L c.2 n)) hwf)
  intro c' c h
  simp only [InvImage, Prod.lex_def]
  rcases h with hlt | ⟨heq, ⟨hb, hb'⟩ | ⟨hb, hlt⟩⟩
  · exact .inl hlt
  · exact .inr ⟨heq, .inl (by simp [hb, hb'])⟩
  · exact .inr ⟨heq, .inr ⟨by rw [hb], hlt⟩⟩

theorem novel_congr (h : ∀ m, r'.slots? su.key m = r.slots? su.key m) : Novel su L r' n p ↔ Novel su L r n p := by
  simp only [Novel, h]

theorem novelCount_congr (h : ∀ m, r'.slots? su.key m = r.slots? su.key m) :
    novelCount su L r' n = novelCount su L r n := by
  have hsame : Novel su L r' n = Novel su L r n := funext fun p => propext (novel_congr h)
  rw [novelCount, novelCount, hsame]

/-- A larger value at the end of a novel path covers it, and uncovers none as long as the start keeps its value. -/
theorem novelCount_lt {s t t' : Slots Disjunction} (hsu : Searchable su k step L rank) (hr : Working su k L r)
    (hp : p ∈ su.graph.pathsAt n) (hnovel : Novel su L r n p) (hends : L.EndsAt p m) (hmn : m ≠ n)
    (hs : r.slots? su.key n = some s) (ht : r.slots? su.key m = some t)
    (hslots : ∀ q, r'.slots? su.key q = if q = m then some t' else r.slots? su.key q)
    (hgrows : t.stable.first.leq t'.stable.first = true)
    (hcovers : (L.image su.transfer p m s.stable.first).leq t'.stable.first = true) :
    novelCount su L r' n < novelCount su L r n := by
  classical
  have hsame : r'.slots? su.key n = some s := by rw [hslots, if_neg fun h => hmn h.symm, hs]
  refine Finset.card_lt_card (Finset.ssubset_iff_of_subset ?_ |>.mpr ⟨p, ?_, ?_⟩)
  · refine Finset.monotone_filter_right _ fun q _ hq => ?_
    obtain ⟨m', s', u, hends', hs', hu, hleq⟩ := hq
    obtain rfl : s = s' := Option.some.inj (hsame.symm.trans hs')
    rw [hslots] at hu
    split at hu
    · rename_i hm
      obtain rfl := Option.some.inj hu
      subst hm
      refine ⟨m', s, t, hends', hs, ht, Bool.eq_false_iff.mpr fun hle => ?_⟩
      have himage : (L.image su.transfer q m' s.stable.first).eqs.Canonical :=
        Value.canonical_withEnv (hsu.canonical q _ (hr.canonical n s hs)) _
      rw [Value.leq_trans himage (hr.canonical m' t ht) hle hgrows] at hleq
      cases hleq
    · exact ⟨m', s, u, hends', hs, hu, hleq⟩
  · exact Finset.mem_filter.mpr ⟨List.mem_toFinset.mpr hp, hnovel⟩
  · rw [Finset.mem_filter]
    rintro ⟨-, m', s', u, hends', hs', hu, hleq⟩
    obtain rfl := hsu.node_unique hends hends'
    obtain rfl : s = s' := Option.some.inj (hsame.symm.trans hs')
    rw [hslots, if_pos rfl] at hu
    obtain rfl := Option.some.inj hu
    rw [hcovers] at hleq
    cases hleq

/-- Following a novel path comes down, unless the call joins only and the path leads back to its node. -/
theorem Propagates.drops (hsu : Searchable su k step L rank) (hr : Working su k L r) (hp : p ∈ su.graph.pathsAt n)
    (hnovel : Novel su L r n p) (h : Propagates su L n p b b' r r') :
    Ascends su.key L rank n r (r'.mark n true) ∧
      (Drops su L n (b', r') (b, r) ∨ b = true ∧ b' = true ∧ p.isCycle = true) := by
  obtain ⟨m, s, t, y, x, i, mem, hends, hm, hs, ht, hands, hmerges, hstores⟩ := h
  obtain ⟨m', s', t', hends', hs', ht', hleq⟩ := id hnovel
  obtain rfl := hsu.node_unique hends hends'
  obtain rfl : s = s' := Option.some.inj (hs.symm.trans hs')
  obtain rfl : t = t' := Option.some.inj (ht.symm.trans ht')
  obtain ⟨-, m', hends', -, hrank⟩ := hsu.exists_end hp
  obtain rfl := hsu.node_unique hends hends'
  have hkind := (hr.asking.regular.slots m t ht).stable.1
  have hw := hr.canonical m t ht
  have hy := hands.canonical hsu (hr.canonical n s hs)
  -- Wherever the image comes in by a widening, the value comes down in height.
  have hwiden : ∀ thresholds, (∀ c ∈ thresholds, c ∈ L.thresholds) → y = L.image su.transfer p m s.stable.first →
      x = Value.widenAligned thresholds t.stable.first (t.stable.first.joinAligned y) →
      x.height (Value.candidates L.thresholds) < t.stable.first.height (Value.candidates L.thresholds) := by
    rintro thresholds hsub rfl rfl
    exact Value.height_widenAligned hsub (Value.not_leq_of_widenAligned hsu.kind hkind hw hy hleq thresholds)
  by_cases hmn : m = n
  · subst hmn
    have hwidening : L.arena.cuts.isWidening m = true := by
      by_contra hnot
      exact lt_irrefl _ (hrank (by simpa using hnot))
    cases b' with
    | false =>
      obtain ⟨rfl, rfl⟩ := hands.resolve_right (by simp)
      rw [Merges, if_pos (by simp [hwidening])] at hmerges
      obtain ⟨thresholds, hsub, hx⟩ := hmerges
      have hlt := hwiden thresholds hsub rfl hx
      exact ⟨hstores.ascends_self ht hlt.le, .inl (.inl (hstores.heights_lt ht hm hwidening hlt))⟩
    | true =>
      rw [Merges, if_neg (by simp)] at hmerges
      subst hmerges
      have hle := Value.height_joinAligned (w := y) hsu.kind hkind hw (Value.candidates L.thresholds)
      refine ⟨hstores.ascends_self ht hle, ?_⟩
      cases b with
      | true => exact .inr ⟨rfl, rfl, hsu.isCycle hp hends⟩
      | false =>
        have hheights : r'.heights su.key L ≤ r.heights su.key L := hstores.heights_le ht hle
        rcases hheights.lt_or_eq with hlt | heq
        · exact .inl (.inl hlt)
        · exact .inl (.inr ⟨heq, .inl ⟨rfl, rfl⟩⟩)
  · obtain ⟨rfl, rfl⟩ := hands.resolve_right fun h => hmn h.1
    cases hwidening : L.arena.cuts.isWidening m with
    | true =>
      rw [Merges, if_pos (by simp [hwidening, hmn])] at hmerges
      obtain ⟨thresholds, hsub, hx⟩ := hmerges
      have hlt := hwiden thresholds hsub rfl hx
      have hasc : Ascends su.key L rank n r r' := hstores.ascends ht hm (fun _ => hlt) (by simp [hwidening])
      exact ⟨hasc.trans (ascends_mark r' n), .inl (.inl (hstores.heights_lt ht hm hwidening hlt))⟩
    | false =>
      rw [Merges, if_neg (by simp [hwidening])] at hmerges
      have hasc : Ascends su.key L rank n r r' := hstores.ascends ht hm (by simp [hwidening]) hrank
      refine ⟨hasc.trans (ascends_mark r' n), .inl (.inr ⟨hstores.heights_eq hwidening, .inr ⟨rfl, ?_⟩⟩)⟩
      refine novelCount_lt hsu hr hp hnovel hends hmn hs ht hstores.slots ?_ ?_
      · subst hmerges
        exact Value.leq_joinAligned_left hsu.kind hkind hw
      · subst hmerges
        exact Value.leq_joinAligned_right hsu.kind hkind hy

/-- A call stands between two steps: whether it joins only, and the state of its run. -/
abbrev CallState := Bool × Run SearchOracle Memory

/-- The state in which a call begins. -/
def opening (r : Run SearchOracle Memory) : CallState := (false, { r with memory := ⟨[]⟩ })

/-- A step of a call follows a path. -/
def Follows (su : Setup) (n : ℕ) (p : Path) (c c' : CallState) : Prop :=
  1 < p.length ∧ Yields (follow su n c.1) c.2 (some (p, c'.1)) c'.2

/-- A call follows a number of paths, and then the oracle answers that there is none. -/
inductive Saturates (su : Setup) (n : ℕ) : ℕ → CallState → Run SearchOracle Memory → Prop
  | unsat {c : CallState} {r' : Run SearchOracle Memory} : Yields (follow su n c.1) c.2 none r' → Saturates su n 0 c r'
  | sat {count : ℕ} {p : Path} {c c' : CallState} {r' : Run SearchOracle Memory} :
      Follows su n p c c' → Saturates su n count c' r' → Saturates su n (count + 1) c r'

/-- A call follows paths without end, and again and again it joins only along a path back to its node. -/
def JoinsForever (su : Setup) (n : ℕ) (r : Run SearchOracle Memory) : Prop :=
  ∃ (c : ℕ → CallState) (path : ℕ → Path), c 0 = opening r ∧ (∀ i, Follows su n (path i) (c i) (c (i + 1))) ∧
    ∀ i, ∃ j ≥ i, (c j).1 = true ∧ (path j).isCycle = true

section Calls

variable {c c' : CallState} (hsu : Searchable su k step L rank) (hn : n < L.arena.size) (hc : Working su k L c.2)

include hsu hn hc

/-- The oracle has no path left, or a step follows one. -/
theorem exists_follow : (∃ r', Yields (follow su n c.1) c.2 none r') ∨ ∃ p c', Follows su n p c c' := by
  obtain ⟨a, r', hyields, -, ⟨rfl, -⟩ | ⟨p, b', r₁, rfl, hp, -⟩⟩ := ensures_follow hsu hc hn
  · exact .inl ⟨r', hyields⟩
  · exact .inr ⟨p, (b', r'), length_of_mem_pathsAt hp, hyields⟩

theorem Follows.drops (h : Follows su n p c c') : Working su k L c'.2 ∧
    Ascends su.key L rank n (c.2.mark n true) (c'.2.mark n true) ∧
      (Drops su L n c' c ∨ c.1 = true ∧ c'.1 = true ∧ p.isCycle = true) := by
  obtain ⟨hc', ⟨hnone, -⟩ | ⟨q, b', r₁, hsome, hq, hnovel, hr₁, halike, hprop⟩⟩ := (ensures_follow hsu hc hn).of_yields h.2
  · cases hnone
  · obtain ⟨rfl, rfl⟩ := Prod.mk.inj (Option.some.inj hsome)
    have hslots : ∀ m, r₁.slots? su.key m = c.2.slots? su.key m := halike.slots
    obtain ⟨hasc, hdrops⟩ := hprop.drops hsu hr₁ hq ((novel_congr hslots).mpr hnovel)
    refine ⟨hc', halike.ascends.trans hasc, hdrops.imp_left fun hd => ?_⟩
    rwa [Drops, heights_congr hslots, novelCount_congr hslots] at hd

/-- A call that comes to an end leaves a state to work on from, and its node computed. -/
theorem Saturates.ascends {count : ℕ} (h : Saturates su n count c r') : Working su k L r' ∧
    Ascends su.key L rank n (c.2.mark n true) r' := by
  induction h with
  | unsat hyields =>
    obtain ⟨hr', ⟨-, halike⟩ | ⟨p, b', r₁, hsome, -⟩⟩ := (ensures_follow hsu hc hn).of_yields hyields
    · exact ⟨hr', halike.ascends⟩
    · cases hsome
  | sat hf _ ih =>
    obtain ⟨hc', hasc, -⟩ := hf.drops hsu hn hc
    obtain ⟨hr', hasc'⟩ := ih hc'
    exact ⟨hr', hasc.trans hasc'⟩

/-- A call that does not come to an end has a step that is not its last. -/
theorem exists_follow_of_not_saturates (h : ∀ count r', ¬ Saturates su n count c r') :
    ∃ p c', Follows su n p c c' ∧ Working su k L c'.2 ∧ ∀ count r', ¬ Saturates su n count c' r' := by
  rcases exists_follow hsu hn hc with ⟨r', hunsat⟩ | ⟨p, c', hf⟩
  · exact absurd (.unsat hunsat) (h 0 r')
  · exact ⟨p, c', hf, (hf.drops hsu hn hc).1, fun count r' hs => h _ r' (.sat hf hs)⟩

end Calls

/-- Steps without end join only along cycles again and again: all other steps come down. -/
theorem exists_cycle_of_follows {c : ℕ → CallState} {path : ℕ → Path} (hsu : Searchable su k step L rank)
    (hn : n < L.arena.size) (hc : ∀ i, Working su k L (c i).2) (h : ∀ i, Follows su n (path i) (c i) (c (i + 1))) (i : ℕ) :
    ∃ j ≥ i, (c j).1 = true ∧ (path j).isCycle = true := by
  have : IsWellFounded CallState (Drops su L n) := ⟨wellFounded_drops su L n⟩
  obtain ⟨j, hj⟩ := WellFounded.not_rel_apply_succ (r := Drops su L n) fun j => c (i + j)
  obtain ⟨-, -, hdrops⟩ := (h (i + j)).drops hsu hn (hc (i + j))
  obtain ⟨hjoin, -, hcycle⟩ := hdrops.resolve_left hj
  exact ⟨i + j, Nat.le_add_right i j, hjoin, hcycle⟩

/-- A call comes to an end or joins forever. -/
theorem saturates_or_joinsForever (hsu : Searchable su k step L rank) (hn : n < L.arena.size) (hr : Working su k L r) :
    (∃ count r', Saturates su n count (opening r) r') ∨ JoinsForever su n r := by
  by_contra hnot
  obtain ⟨hends, hjoins⟩ := not_or.mp hnot
  -- From a state in which the call does not end, a step leads to another one.
  let Endless := { c : CallState // Working su k L c.2 ∧ ∀ count r', ¬ Saturates su n count c r' }
  have hnext : ∀ c : Endless, ∃ (p : Path) (c' : Endless), Follows su n p c.1 c'.1 := by
    rintro ⟨c, hc, hendless⟩
    obtain ⟨p, c', hf, hc', hendless'⟩ := exists_follow_of_not_saturates hsu hn hc hendless
    exact ⟨p, ⟨c', hc', hendless'⟩, hf⟩
  choose path next hnext using hnext
  let c : ℕ → Endless := fun i => next^[i] ⟨opening r, hr.memory ⟨[]⟩, fun count r' hs => hends ⟨count, r', hs⟩⟩
  have hc : ∀ i, Follows su n (path (c i)) (c i).1 (c (i + 1)).1 := by
    intro i
    rw [show c (i + 1) = next (c i) from Function.iterate_succ_apply' next i _]
    exact hnext (c i)
  exact hjoins ⟨fun i => (c i).1, fun i => path (c i), rfl, hc,
    exists_cycle_of_follows hsu hn (fun i => (c i).2.1) hc⟩

section Fuel

variable {c c' : CallState} {fuel count : ℕ}

/-- A step that follows a path leaves the rest of the loop. -/
theorem Follows.run_followPaths (h : Follows su n p c c') (fuel : ℕ) :
    (followPaths su n (fuel + 1) c.1).run.run c.2 = (followPaths su n fuel c'.1).run.run c'.2 := by
  obtain ⟨hlength, h⟩ := h
  simp only [follow, yields_bind] at h
  obtain ⟨u, r₁, hset, a, r₂, hquery, h⟩ := h
  cases a with
  | none => cases (yields_pure.mp h).1
  | some answer =>
    obtain ⟨q, i⟩ := answer
    obtain ⟨b', r₃, hpropagate, hpure⟩ := yields_bind.mp h
    obtain ⟨hanswer, rfl⟩ := yields_pure.mp hpure
    obtain ⟨rfl, rfl⟩ := Prod.mk.inj (Option.some.inj hanswer)
    rw [followPaths, hset.run_bind, hquery.run_bind]
    dsimp only
    rw [if_pos hlength, hpropagate.run_bind]

/-- A call that comes to an end returns, if it may follow more paths than it does. -/
theorem Saturates.yields (h : Saturates su n count c r') (hfuel : count < fuel) :
    Yields (followPaths su n fuel c.1) c.2 () r' := by
  induction h generalizing fuel with
  | unsat hyields =>
    obtain ⟨fuel, rfl⟩ := Nat.exists_eq_add_of_lt hfuel
    simp only [follow, yields_bind] at hyields
    obtain ⟨u, r₁, hset, a, r₂, hquery, h⟩ := hyields
    cases a with
    | none =>
      obtain ⟨-, rfl⟩ := yields_pure.mp h
      rw [Nat.zero_add, Yields, followPaths, hset.run_bind, hquery.run_bind]
      rfl
    | some answer =>
      obtain ⟨b', r₃, -, hpure⟩ := yields_bind.mp h
      cases (yields_pure.mp hpure).1
  | sat hf _ ih =>
    obtain ⟨fuel, rfl⟩ := Nat.exists_eq_add_of_le' (Nat.one_le_of_lt hfuel)
    rw [Yields, hf.run_followPaths]
    exact ih (Nat.lt_of_succ_lt_succ hfuel)

/-- A call that follows paths without end comes to the end of any fuel. -/
theorem exhausts_followPaths {c : ℕ → CallState} {path : ℕ → Path} (h : ∀ i, Follows su n (path i) (c i) (c (i + 1)))
    (i fuel : ℕ) : Exhausts (followPaths su n fuel (c i).1) (c i).2 := by
  induction fuel generalizing i with
  | zero => exact exhausts_throw _
  | succ fuel ih =>
    rw [Exhausts, (h i).run_followPaths]
    exact ih (i + 1)

/-- A call that may not follow as many paths as it does comes to the end of its fuel. -/
theorem Saturates.exhausts (h : Saturates su n count c r') (hfuel : fuel ≤ count) :
    Exhausts (followPaths su n fuel c.1) c.2 := by
  induction h generalizing fuel with
  | unsat _ =>
    obtain rfl := Nat.le_zero.mp hfuel
    exact exhausts_throw _
  | sat hf _ ih =>
    cases fuel with
    | zero => exact exhausts_throw _
    | succ fuel =>
      rw [Exhausts, hf.run_followPaths]
      exact ih (Nat.le_of_succ_le_succ hfuel)

theorem exists_saturates (hsu : Searchable su k step L rank) (hn : n < L.arena.size) (hc : Working su k L c.2)
    (h : Yields (followPaths su n fuel c.1) c.2 () r') : ∃ count, Saturates su n count c r' := by
  induction fuel generalizing c with
  | zero => exact absurd h not_yields_throw
  | succ fuel ih =>
    rcases exists_follow hsu hn hc with ⟨r₁, hunsat⟩ | ⟨p, c', hf⟩
    · have hends := Saturates.yields (.unsat hunsat) (Nat.succ_pos fuel)
      obtain rfl := (Prod.mk.inj (h.symm.trans hends)).2
      exact ⟨0, .unsat hunsat⟩
    · rw [Yields, hf.run_followPaths] at h
      obtain ⟨count, hs⟩ := ih (hf.drops hsu hn hc).1 h
      exact ⟨count + 1, .sat hf hs⟩

section Resources

variable (ht : su.options.timeout = none) (ρ : Resources)

include ht

theorem followPaths_under :
    (followPaths (su.under ρ) : _ → _ → _ → Analysis SearchOracle Memory Unit) = followPaths su := by
  have hquery : ∀ n descending filter, (query (su.under ρ) n descending filter : Analysis SearchOracle Memory _) =
      query su n descending filter := by
    intro n descending filter
    simp only [query, checkDeadline_under ht]
    rfl
  have hpropagate : (propagate (su.under ρ) : _ → _ → _ → Analysis SearchOracle Memory Bool) = propagate su := by
    funext n p b
    simp only [propagate, transform, widen, loopStep, widenToThresholds, checkDeadline_under ht]
    rfl
  funext n fuel b
  induction fuel generalizing b with
  | zero => rfl
  | succ fuel ih => simp only [followPaths, hquery, hpropagate, ih]

/-- A call follows paths if some start at its node. -/
theorem run_computeNode (h : Yields (startsPaths n) r b r) : (computeNode (su.under ρ) n).run.run r =
    if b then (followPaths su n ρ.fuel (opening r).1).run.run (opening r).2 else (setComputed n true).run.run r := by
  rw [computeNode, followPaths_under ht, h.run_bind]
  cases b <;> rfl

end Resources

end Fuel

/-- The states between two visits of the ascending pass that begins in `r₀`. -/
inductive Reaches (su : Setup) (r₀ : Run SearchOracle Memory) : Run SearchOracle Memory → Prop
  | start : Reaches su r₀ r₀
  | skip {r : Run SearchOracle Memory} {n label : ℕ} {queue : List (ℕ × ℕ)} : Reaches su r₀ r →
      r.engine.worklist.queue = (n, label) :: queue → r.computed? n = some true → Reaches su r₀ (r.pop queue)
  | visit {r r' : Run SearchOracle Memory} {n label : ℕ} {queue : List (ℕ × ℕ)} {ρ : Resources} : Reaches su r₀ r →
      r.engine.worklist.queue = (n, label) :: queue → r.computed? n = some false →
      Yields (computeNode (su.under ρ) n) (r.pop queue) () r' → Reaches su r₀ r'

/-- The pass calls in the state `r` for a node from which paths start. -/
def Calls (su : Setup) (r₀ : Run SearchOracle Memory) (n : ℕ) (r : Run SearchOracle Memory) : Prop :=
  ∃ r₁ label queue, Reaches su r₀ r₁ ∧ r₁.engine.worklist.queue = (n, label) :: queue ∧ r₁.computed? n = some false ∧
    r = r₁.pop queue ∧ Yields (startsPaths n) r true r

section Passes

variable {r₀ : Run SearchOracle Memory} (hsu : Searchable su k step L rank)

include hsu

/-- A visit leads to the same state or comes to the end of its fuel. -/
theorem visit_spec {ρ : Resources} (hn : n < L.arena.size) (hr : Working su k L r)
    (h : Yields (computeNode (su.under ρ) n) r () r') : Working su k L r' ∧
      ∀ ρ', Yields (computeNode (su.under ρ') n) r () r' ∨ Exhausts (computeNode (su.under ρ') n) r := by
  obtain ⟨b, r₁, hb, -⟩ := (ensures_startsPaths (r := r) (n := n) (Q := fun _ _ => True)).mpr trivial
  obtain ⟨-, rfl⟩ := yields_startsPaths hb
  rw [Yields, run_computeNode hsu.timeout ρ hb] at h
  simp only [Yields, Exhausts, run_computeNode hsu.timeout _ hb]
  cases b with
  | false =>
    refine ⟨?_, fun ρ' => .inl h⟩
    obtain ⟨-, rfl⟩ := yields_setComputed h
    exact hr.mark n true
  | true =>
    obtain ⟨count, hs⟩ := exists_saturates (c := opening r₁) hsu hn (hr.memory _) h
    refine ⟨(hs.ascends hsu hn (hr.memory _)).1, fun ρ' => ?_⟩
    rcases Nat.lt_or_ge count ρ'.fuel with hlt | hge
    · exact .inl (hs.yields hlt)
    · exact .inr (hs.exhausts hge)

variable (h₀ : Working su k L r₀)

include h₀

theorem Reaches.working (h : Reaches su r₀ r) : Working su k L r := by
  induction h with
  | start => exact h₀
  | skip _ hq _ ih => exact ih.pop hq
  | visit _ hq _ hv ih =>
    exact (visit_spec hsu (ih.operable.waiting _ (by simp [Waits, Worklist.nodes, hq])) (ih.pop hq) hv).1

/-- The pass comes to the end of any fuel if it does so from a state that it may come to. -/
theorem Reaches.exhausts (h : Reaches su r₀ r)
    (hr : ∀ ρ fuel, Exhausts (drain (computeNode (su.under ρ)) fuel) r) (ρ : Resources) (fuel : ℕ) :
    Exhausts (drain (computeNode (su.under ρ)) fuel) r₀ := by
  induction h generalizing ρ fuel with
  | start => exact hr ρ fuel
  | @skip r n label queue hreach hq hc ih =>
    refine ih (fun ρ fuel => ?_) ρ fuel
    cases fuel with
    | zero => exact exhausts_throw _
    | succ fuel =>
      rw [Exhausts, run_drain_cons hq hc, if_pos rfl]
      exact hr ρ fuel
  | @visit r r' n label queue ρ₀ hreach hq hc hv ih =>
    have hworking := hreach.working hsu h₀
    have hn := hworking.operable.waiting n (by simp [Waits, Worklist.nodes, hq])
    refine ih (fun ρ fuel => ?_) ρ fuel
    cases fuel with
    | zero => exact exhausts_throw _
    | succ fuel =>
      rw [Exhausts, run_drain_cons hq hc, if_neg Bool.false_ne_true]
      rcases (visit_spec hsu hn (hworking.pop hq) hv).2 ρ with hyields | hexhausts
      · exact hyields.exhausts_bind (hr ρ fuel)
      · exact hexhausts.bind _

theorem Calls.working (h : Calls su r₀ n r) : n < L.arena.size ∧ Working su k L r := by
  obtain ⟨r₁, label, queue, hreach, hq, -, rfl, -⟩ := h
  have hr₁ := hreach.working hsu h₀
  exact ⟨hr₁.operable.waiting n (by simp [Waits, Worklist.nodes, hq]), hr₁.pop hq⟩

/-- The pass comes to the end of any fuel if a call joins forever. -/
theorem Calls.exhausts (h : Calls su r₀ n r) (hjoins : JoinsForever su n r) (ρ : Resources) (fuel : ℕ) :
    Exhausts (drain (computeNode (su.under ρ)) fuel) r₀ := by
  obtain ⟨r₁, label, queue, hreach, hq, hc, rfl, hstarts⟩ := h
  obtain ⟨c, path, hopening, hfollows, -⟩ := hjoins
  refine hreach.exhausts hsu h₀ (fun ρ fuel => ?_) ρ fuel
  cases fuel with
  | zero => exact exhausts_throw _
  | succ fuel =>
    rw [Exhausts, run_drain_cons hq hc, if_neg Bool.false_ne_true]
    refine Exhausts.bind ?_ _
    rw [Exhausts, run_computeNode hsu.timeout ρ hstarts, if_pos rfl, ← hopening]
    exact exhausts_followPaths hfollows 0 ρ.fuel

/-- The calls of a pass come to an end, or join forever. -/
theorem Calls.saturates_iff (h : Calls su r₀ n r) :
    (∃ count r', Saturates su n count (opening r) r' ∧
      ∀ ρ : Resources, count < ρ.fuel → Yields (computeNode (su.under ρ) n) r () r') ↔ ¬ JoinsForever su n r := by
  obtain ⟨hn, hr⟩ := h.working hsu h₀
  constructor
  · rintro ⟨count, r', hs, -⟩ ⟨c, path, hopening, hfollows, -⟩
    have hexhausts := exhausts_followPaths hfollows 0 (count + 1)
    rw [hopening] at hexhausts
    exact hexhausts.not_yields (hs.yields count.lt_succ_self)
  · intro hjoins
    obtain ⟨count, r', hs⟩ := (saturates_or_joinsForever hsu hn hr).resolve_right hjoins
    refine ⟨count, r', hs, fun ρ hρ => ?_⟩
    obtain ⟨-, -, -, -, -, -, -, hstarts⟩ := h
    rw [Yields, run_computeNode hsu.timeout ρ hstarts, if_pos rfl]
    exact hs.yields hρ

/-- The pass halts if and only if no call joins forever. -/
theorem halts_iff : Halts (fun ρ => drain (computeNode (su.under ρ)) ρ.fuel) r₀ (fun _ r' => r'.engine.worklist = .empty) ↔
    ∀ n r, Calls su r₀ n r → ¬ JoinsForever su n r := by
  constructor
  · rintro ⟨N, u, r', hyields, -⟩ n r hcalls hjoins
    exact (hcalls.exhausts hsu h₀ hjoins ⟨fun _ => 0, N⟩ N).not_yields (hyields ⟨fun _ => 0, N⟩ le_rfl)
  · intro hnone
    have hvisit : ∀ r n label queue, Working su k L r ∧ Reaches su r₀ r → r.engine.worklist.queue = (n, label) :: queue →
        r.computed? n = some false → Halts (fun ρ => computeNode (su.under ρ) n) (r.pop queue) fun _ r' =>
          (Working su k L r' ∧ Reaches su r₀ r') ∧ Ascends su.key L rank n ((r.pop queue).mark n true) r' := by
      rintro r n label queue ⟨hr, hreach⟩ hq hc
      have hn := hr.operable.waiting n (by simp [Waits, Worklist.nodes, hq])
      have hpop := hr.pop hq
      obtain ⟨b, _, hb, -⟩ := (ensures_startsPaths (r := r.pop queue) (n := n) (Q := fun _ _ => True)).mpr trivial
      obtain ⟨-, rfl⟩ := yields_startsPaths hb
      cases b with
      | false =>
        have hmark : ∀ ρ : Resources, Yields (computeNode (su.under ρ) n) (r.pop queue) () ((r.pop queue).mark n true) := by
          intro ρ
          rw [Yields, run_computeNode hsu.timeout ρ hb, if_neg Bool.false_ne_true]
          obtain ⟨u, x, hset, rfl⟩ := (ensures_setComputed (b := true) (Q := fun _ x => x = (r.pop queue).mark n true)
            (hpop.operable.computed.symm ▸ hn)).mpr rfl
          exact hset
        exact ⟨0, (), _, fun ρ _ => hmark ρ, ⟨hpop.mark n true, .visit hreach hq hc (hmark ⟨fun _ => 0, 0⟩)⟩,
          (Quiet.refl _).alike.ascends⟩
      | true =>
        have hcalls : Calls su r₀ n (r.pop queue) := ⟨r, label, queue, hreach, hq, hc, rfl, hb⟩
        obtain ⟨count, r', hs, hyields⟩ := (hcalls.saturates_iff hsu h₀).mpr (hnone n _ hcalls)
        obtain ⟨hr', hasc⟩ := hs.ascends hsu hn (hpop.memory _)
        exact ⟨count + 1, (), r', fun ρ hρ => hyields ρ hρ,
          ⟨hr', .visit hreach hq hc (hyields ⟨fun _ => 0, count + 1⟩ count.lt_succ_self)⟩, hasc⟩
    exact (halts_ascending (fun ρ => computeNode (su.under ρ)) (fun x hx => hx.1.operable)
      (fun x n label queue hx hq hc => ⟨hx.1.pop hq, .skip hx.2 hq hc⟩) hvisit ⟨h₀, .start⟩).mono fun _ r' h => h.2

end Passes

/-- The state in which path focusing of a program begins. -/
def firstRun (p : Program) (options : Options) (ctx : Context) : Run SearchOracle Memory :=
  ⟨.new options ctx (.new p.graph.control p.transfer), ⟨[]⟩⟩

section Programs

variable {p : Program} {options : Options} {ctx : Context} (resources : Resources)

/-- The analysis gives up if its ascending pass comes to the end of any fuel. -/
theorem analyze_eq_outOfFuel {r₀ : Run SearchOracle Memory} (ht : options.technique = .focusing)
    (hstart : Yields (do prepare (p.setup options resources); push 0) (firstRun p options ctx) () r₀)
    (h : ∀ ρ fuel, Exhausts (drain (computeNode (p.setup options ρ)) fuel) r₀) (name : String) (ρ : Resources) :
    (analyze (p.setup options ρ) name ctx).1 = .error .outOfFuel := by
  obtain ⟨u, r, hprepare, hpush⟩ := yields_bind.mp hstart
  have hpass : Exhausts (ascend (p.setup options ρ) (computeNode (p.setup options ρ)) true) r :=
    hpush.exhausts_bind (h ρ ρ.fuel)
  have hrun : Exhausts (strategy.run (p.setup options ρ)) (firstRun p options ctx) :=
    Yields.exhausts_bind (m := prepare (p.setup options ρ)) hprepare (hpass.bind _)
  exact analyzeWith_of_exhausts strategy name (fun e => by simp only [runTechnique, Program.setup, ht]) hrun

variable (hp : p.graph.WellFormed) (hknown : options.known = none) (htimeout : options.timeout = none)
  (hctx : ctx.OfGraph p.graph.control) (hkinds : ctx.Respects p.transfer)

include hp hknown htimeout hctx hkinds

/-- The ascending pass begins in a state that path focusing can work on from. -/
theorem exists_start : ∃ k L rank r₀, k.domain = options.domain ∧ Searchable (p.setup options resources) k p.Step L rank ∧
    Yields (do prepare (p.setup options resources); push 0) (firstRun p options ctx) () r₀ ∧
    Working (p.setup options resources) k L r₀ := by
  have hg := hp.bounded
  let su := p.setup options resources
  let k : ValueKind := ⟨options.domain, options.domain == .intervals, by simp⟩
  obtain ⟨rank, hrank⟩ := Arena.exists_rank hg
  have hentry : 0 < (Arena.build p.graph.control).size := (List.getElem?_eq_some_iff.mp (Arena.blocks_zero hg)).1
  have hblocks : ctx.nodes.map (·.block) = (Arena.build p.graph.control).blocks :=
    hctx.blocks.trans (by rw [hctx.arena])
  obtain ⟨envs, hprepared⟩ : ∃ envs, Ensures (prepare su) (firstRun p options ctx) fun _ r' => _ :=
    ensures_prepare ((Arena.build p.graph.control).guards p.transfer) hknown hentry hctx.arena hblocks hkinds rfl rfl
  obtain ⟨u, r, hprepare, hr, -⟩ := hprepared
  have hstarted : Started su r ∧ _ := started_of_prepare hctx hprepare
  obtain ⟨hstart, -, horacle⟩ := hstarted
  have hasking : Asking su k r := asking_of_started rfl hstart hknown horacle
  have hunaided : Unaided su ⟨.build p.graph.control, envs, (Arena.build p.graph.control).guards p.transfer, 0, false⟩ rank :=
    ⟨⟨htimeout, fun a ha b hb c hc => List.mem_flatMap.mpr ⟨a, ha, List.mem_flatMap.mpr ⟨b, hb, hc⟩⟩, hentry,
      fun n hn t ht => Arena.successors_lt hg hn ht, fun n hn t ht => hrank n t hn ht⟩, rfl⟩
  refine ⟨k, _, rank, _, rfl, ⟨hunaided, hg, rfl, fun hd => by simpa [k] using hd, p.transfer_follows k, p.step_edge,
    p.keepsCanonical⟩, yields_bind.mpr ⟨u, r, hprepare, yields_push.mpr rfl⟩,
    ⟨⟨hasking.regular.arena, hasking.regular.blocks, hasking.regular.slots⟩, hasking.oracle⟩, hr.push hentry,
    fun n s hs => ?_⟩
  obtain ⟨⟨env, hstable, -⟩, -⟩ := hstart.slots n s hs
  rw [hstable, Disjunction.single, startValue]
  split <;> exact Equalities.canonical_empty

/-- Path focusing with the searching oracle, without known properties and a deadline. A call for a node comes to an end
after finitely many paths, when the oracle answers that there is none, if and only if it does not join forever along
paths back to its node. The ascending pass ends if and only if no call joins forever, and otherwise the analysis comes to
the end of any fuel. -/
theorem focusing_terminates_iff (ht : options.technique = .focusing) (name : String) :
    ∃ r₀, Yields (do prepare (p.setup options resources); push 0) (firstRun p options ctx) () r₀ ∧
      (∀ n r, Calls (p.setup options resources) r₀ n r →
        ((∃ count r', Saturates (p.setup options resources) n count (opening r) r' ∧
            ∀ ρ : Resources, count < ρ.fuel → Yields (computeNode (p.setup options ρ) n) r () r') ↔
          ¬ JoinsForever (p.setup options resources) n r)) ∧
      (Halts (fun ρ => drain (computeNode (p.setup options ρ)) ρ.fuel) r₀ (fun _ r' => r'.engine.worklist = .empty) ↔
        ∀ n r, Calls (p.setup options resources) r₀ n r → ¬ JoinsForever (p.setup options resources) n r) ∧
      ∀ n r, Calls (p.setup options resources) r₀ n r → JoinsForever (p.setup options resources) n r →
        ∀ ρ, (analyze (p.setup options ρ) name ctx).1 = .error .outOfFuel := by
  obtain ⟨k, L, rank, r₀, -, hsu, hstart, h₀⟩ := exists_start resources hp hknown htimeout hctx hkinds
  exact ⟨r₀, hstart, fun n r hcalls => hcalls.saturates_iff hsu h₀, halts_iff hsu h₀, fun n r hcalls hjoins =>
    analyze_eq_outOfFuel resources ht hstart (hcalls.exhausts hsu h₀ hjoins) name⟩

end Programs

/-- Path focusing over intervals without a deadline. -/
def unhurried : Options where
  technique := .focusing
  domain := .intervals
  timeout := none

theorem focusing_terminates_iff_counter : ∃ r₀,
    Yields (do prepare (Program.counter.setup unhurried .ample); push 0)
        (firstRun Program.counter unhurried (.build Program.counter.graph.control)) () r₀ ∧
      Halts (fun ρ => drain (computeNode (Program.counter.setup unhurried ρ)) ρ.fuel) r₀
        fun _ r' => r'.engine.worklist = .empty := by
  obtain ⟨o, c, h, -⟩ := exists_of_completes (Program.counter.setup unhurried .ample)
    (.build Program.counter.graph.control) (fun _ _ => true) (by decide +kernel)
  obtain ⟨r₀, hstart, -, hhalts, hout⟩ := focusing_terminates_iff .ample Program.counter_wellFormed
    (show unhurried.known = none from rfl) rfl (Context.ofGraph_build _) (Context.respects_build _ _) rfl "f"
  refine ⟨r₀, hstart, hhalts.mpr fun n r hcalls hjoins => ?_⟩
  have hfuel := hout n r hcalls hjoins .ample
  rw [h] at hfuel
  cases hfuel

/-- Two numbers overtake each other in turn. A path beside them is taken first and soon makes its node join only. -/
def leapfrog : Program where
  name := "leapfrog"
  declared := [("v", some .int), ("x", some .int), ("y", some .int)]
  graph :=
    { payloads := [⟨[.assign "v" (.const 0), .assign "x" (.const 0), .assign "y" (.const 0)], none⟩, ⟨[], none⟩,
        ⟨[.assign "v" (.const 1 - .var "v")], none⟩, ⟨[.assign "x" (.var "y" + .const 1)], none⟩,
        ⟨[.assign "y" (.var "x" + .const 1)], none⟩]
      roles := []
      edges := [(0, 1, []), (1, 2, []), (2, 1, []), (1, 3, []), (3, 1, []), (1, 4, []), (4, 1, [])] }

/-- The ranges of both numbers end at the bound. -/
def Below (v : Value) (c : ℤ) : Prop := ∀ s ∈ ["x", "y"], (v.box.get s).leq (.atMost c) = true

/-- What a path does to the two numbers: it does not let go of some of them, and the others come to at most one more than
these. -/
structure Leaps (f : Value → Value) (kept : List Symbol) : Prop where
  subset : kept ⊆ ["x", "y"]
  keeps : ∀ v : Value, ∀ s ∈ kept, ((f v).box.get s).leq (v.box.get s) = true
  raises : ∀ (v : Value) (c : ℤ), (∀ s ∈ kept, (v.box.get s).leq (.atMost c) = true) → Below (f v) (c + 1)

section Leapfrog

variable {k : ValueKind} {L : Layout} {rank : ℕ → ℕ} {s t : CallState} {r r' : Run SearchOracle Memory} {p : Path}
  {b b' : Bool} {c : ℤ} {v y : Value} {env : Environment} {kept : List Symbol} {ρ : Resources} {count : ℕ}

theorem atMost_succ {i : Interval} (h : i.leq (.atMost c) = true) : i.leq (.atMost (c + 1)) = true := by
  refine Interval.leq_trans h (Interval.leq_iff.mpr fun n hn => ?_)
  rw [Interval.mem_atMost] at hn ⊢
  omega

/-- One number is set to one more than the other. -/
theorem leaps_assign {s t : Symbol} {e : LinearExpr} (hpair : ∀ u ∈ ["x", "y"], u = s ∨ u = t)
    (hs : s ∈ ["x", "y"]) (ht : t ∈ ["x", "y"]) (hne : t ≠ s)
    (he : ∀ box : Box, box.rangeOf e = (Interval.point 1).add ((box.get t).scale 1))
    (henv : ∀ s ∈ ["x", "y"], env.contains s = true) : Leaps (fun v => (v.assign s e).withEnv env) [t] := by
  have hkeeps : ∀ v : Value, (((v.assign s e).withEnv env).box.get t).leq (v.box.get t) = true :=
    fun v => Interval.leq_trans (Value.get_withEnv_leq (henv t ht)) (v.get_assign_of_ne_leq hne e)
  refine ⟨by simpa using ht, by simpa using hkeeps, fun v c hc u hu => ?_⟩
  have hct := hc t (by simp)
  rcases hpair u hu with rfl | rfl
  · refine Interval.leq_trans (Value.get_withEnv_leq (henv u hs)) (Interval.leq_trans (v.get_assign_self_leq u e) ?_)
    rw [he]
    exact Interval.add_point_leq hct 1
  · exact atMost_succ (Interval.leq_trans (hkeeps v) hct)

theorem leaps_of_mem_pathsAt (henv : ∀ s ∈ ["x", "y"], (L.envs 1).contains s = true)
    (hp : p ∈ leapfrog.graph.control.pathsAt 1) : ∃ kept, Leaps (L.image leapfrog.transfer p 1) kept := by
  have hpaths : leapfrog.graph.control.pathsAt 1 = [⟨[1, 2, 1]⟩, ⟨[1, 3, 1]⟩, ⟨[1, 4, 1]⟩] := by decide +kernel
  rw [hpaths] at hp
  simp only [List.mem_cons, List.not_mem_nil, or_false] at hp
  rcases hp with rfl | rfl | rfl
  · have himage : L.image leapfrog.transfer ⟨[1, 2, 1]⟩ 1 =
        fun v => (v.assign "v" (.const 1 - .var "v")).withEnv (L.envs 1) := rfl
    have hkeeps : ∀ v : Value, ∀ s ∈ ["x", "y"],
        (((v.assign "v" (.const 1 - .var "v")).withEnv (L.envs 1)).box.get s).leq (v.box.get s) = true := by
      intro v s hs
      exact Interval.leq_trans (Value.get_withEnv_leq (henv s hs))
        (v.get_assign_of_ne_leq (by rintro rfl; simp at hs) _)
    rw [himage]
    exact ⟨["x", "y"], List.Subset.refl _, hkeeps, fun v c hc s hs =>
      atMost_succ (Interval.leq_trans (hkeeps v s hs) (hc s hs))⟩
  · have himage : L.image leapfrog.transfer ⟨[1, 3, 1]⟩ 1 =
        fun v => (v.assign "x" (.var "y" + .const 1)).withEnv (L.envs 1) := rfl
    rw [himage]
    exact ⟨["y"], leaps_assign (by simp) (by simp) (by simp) (by simp) (fun _ => rfl) henv⟩
  · have himage : L.image leapfrog.transfer ⟨[1, 4, 1]⟩ 1 =
        fun v => (v.assign "y" (.var "x" + .const 1)).withEnv (L.envs 1) := rfl
    rw [himage]
    exact ⟨["x"], leaps_assign (by simp [or_comm]) (by simp) (by simp) (by simp) (fun _ => rfl) henv⟩

/-- The image that is handed on stays below, since a widening beforehand does not reach what the path keeps. -/
theorem Leaps.below_of_hands {su : Setup} (hf : Leaps (L.image su.transfer p 1) kept) (hv : Below v c)
    (h : Hands su L 1 1 p b b' v y) : Below y (c + 1) := by
  rcases h with ⟨rfl, -⟩ | ⟨-, -, thresholds, -, rfl⟩
  · exact hf.raises v c fun s hs => hv s (hf.subset hs)
  · refine hf.raises _ c fun s hs => ?_
    exact Interval.leq_trans (Value.get_widenAligned_leq
      (Value.get_joinAligned_leq (Interval.leq_refl _) (hf.keeps v s hs))) (hv s (hf.subset hs))

/-- The bound at the node of block 1. -/
def BoundedBy (r : Run SearchOracle Memory) (c : ℤ) : Prop := ∃ s, r.slots? unhurried.key 1 = some s ∧ Below s.stable.first c

section Steps

variable (hsu : Searchable (leapfrog.setup unhurried ρ) k leapfrog.Step L rank)
  (henv : ∀ s ∈ ["x", "y"], (L.envs 1).contains s = true)

include hsu

theorem one_lt_size : 1 < L.arena.size := by
  have hsize : 1 < (Arena.build leapfrog.graph.control).size := by decide +kernel
  rw [hsu.arena]
  exact hsize

include henv

/-- A call that joins only raises the bound by at most one in a step. -/
theorem Follows.bounded (hs : Working (leapfrog.setup unhurried ρ) k L s.2) (hjoins : s.1 = true) (hc : BoundedBy s.2 c)
    (h : Follows (leapfrog.setup unhurried ρ) 1 p s t) : t.1 = true ∧ BoundedBy t.2 (c + 1) := by
  obtain ⟨-, ⟨hnone, -⟩ | ⟨q, b', r₁, hsome, hq, -, -, halike, m, u, u', y, x, i, mem, hends, -, hu, hu', hands, hmerges,
    hstores⟩⟩ := (ensures_follow hsu hs (one_lt_size hsu)).of_yields h.2
  · cases hnone
  obtain ⟨rfl, hb'⟩ := Prod.mk.inj (Option.some.inj hsome)
  have hone : L.EndsAt p 1 := by
    have hall : ∀ p ∈ leapfrog.graph.control.pathsAt 1, p.destination? = some 1 := by decide +kernel
    have hblock : (Arena.build leapfrog.graph.control).blocks[1]? = some 1 := by decide +kernel
    exact ⟨1, hall p hq, by rw [hsu.arena]; exact hblock⟩
  obtain rfl := hsu.node_unique hends hone
  obtain rfl : u = u' := Option.some.inj (hu.symm.trans hu')
  obtain ⟨w, hw, hbelow⟩ := hc
  obtain rfl : u = w := Option.some.inj (hu.symm.trans ((halike.slots 1).trans hw))
  have hjoins' : b' = true := by
    rcases hands with ⟨-, rfl⟩ | ⟨-, rfl, -⟩
    · exact hjoins
    · rfl
  subst hjoins'
  refine ⟨hb', _, (hstores.slots 1).trans (if_pos rfl), fun a ha => ?_⟩
  rw [Merges, if_neg (by simp)] at hmerges
  subst hmerges
  obtain ⟨kept, hf⟩ := leaps_of_mem_pathsAt henv hq
  exact Value.get_joinAligned_leq (atMost_succ (hbelow a ha)) (hf.below_of_hands hbelow hands a ha)

/-- The bound is finite still when the call comes to an end. -/
theorem Saturates.bounded (hs : Working (leapfrog.setup unhurried ρ) k L s.2) (hjoins : s.1 = true) (hc : BoundedBy s.2 c)
    (h : Saturates (leapfrog.setup unhurried ρ) 1 count s r') : ∃ c, BoundedBy r' c := by
  induction h generalizing c with
  | unsat hyields =>
    obtain ⟨-, ⟨-, halike⟩ | ⟨q, b', r₁, hsome, -⟩⟩ := (ensures_follow hsu hs (one_lt_size hsu)).of_yields hyields
    · obtain ⟨w, hw, hbelow⟩ := hc
      exact ⟨c, w, (halike.slots 1).trans hw, hbelow⟩
    · cases hsome
  | sat hf _ ih =>
    obtain ⟨hjoins', hc'⟩ := hf.bounded hsu henv hs hjoins hc
    exact ih (hf.drops hsu (one_lt_size hsu) hs).1 hjoins' hc'

end Steps

/-- The paths over blocks 3 and 4. -/
theorem leapfrog_pathStep (σ : Store) :
    (Arena.build leapfrog.graph.control).PathStep leapfrog.Step 1 σ 1 (Function.update σ "x" (σ "y" + 1)) ∧
      (Arena.build leapfrog.graph.control).PathStep leapfrog.Step 1 σ 1 (Function.update σ "y" (σ "x" + 1)) := by
  have hcut : (Arena.build leapfrog.graph.control).cuts.isCut 1 = true ∧
      (Arena.build leapfrog.graph.control).cuts.isErrorSite 1 = false := by decide +kernel
  have hblock : (Arena.build leapfrog.graph.control).blocks[1]? = some 1 := by decide +kernel
  have hinner : ∀ b ∈ [3, 4], (Arena.build leapfrog.graph.control).isCutBlock b = false := by decide +kernel
  have hstep : ∀ {a b σ'}, b ∈ leapfrog.graph.successors a → Statement.Runs (leapfrog.statements a) σ σ' →
      leapfrog.guards a b = [] → leapfrog.Step a σ b σ' := fun {a b σ'} hedge hbody hguards =>
    ⟨hedge, hbody, by simp [hguards]⟩
  have hround : ∀ {b σ'}, b ∈ [3, 4] → leapfrog.Step 1 σ b σ → leapfrog.Step b σ 1 σ' →
      (Arena.build leapfrog.graph.control).PathStep leapfrog.Step 1 σ 1 σ' := fun hb hout hback =>
    ⟨hcut.1, hcut.2, hcut.1, 1, 1, _, hblock, hblock, .next (.start hout) (hinner _ hb) hback⟩
  constructor
  · refine hround (b := 3) (by simp) (hstep (by decide +kernel) (.nil σ) (by decide)) ?_
    have hrun := Statement.Step.assign "x" (.var "y" + .const 1) σ
    simp only [LinearExpr.eval_add, LinearExpr.eval_var, LinearExpr.eval_const] at hrun
    exact hstep (by decide +kernel) (.cons hrun (.nil _)) (by decide)
  · refine hround (b := 4) (by simp) (hstep (by decide +kernel) (.nil σ) (by decide)) ?_
    have hrun := Statement.Step.assign "y" (.var "x" + .const 1) σ
    simp only [LinearExpr.eval_add, LinearExpr.eval_var, LinearExpr.eval_const] at hrun
    exact hstep (by decide +kernel) (.cons hrun (.nil _)) (by decide)

/-- A value that the paths do not leave has no bound. -/
theorem exists_above_of_covered {σ₀ : Store}
    (hcov : r.Covered unhurried.key (fun _ _ => True) ((Arena.build leapfrog.graph.control).PathStep leapfrog.Step) 1)
    (h₀ : r.Stable unhurried.key 1 σ₀) (n : ℕ) : ∃ σ, r.Stable unhurried.key 1 σ ∧ σ₀ "x" + n ≤ σ "x" := by
  induction n with
  | zero => exact ⟨σ₀, h₀, by simp⟩
  | succ n ih =>
    obtain ⟨σ, hσ, hn⟩ := ih
    have hy := hcov _ _ _ trivial hσ (leapfrog_pathStep σ).2
    have hx := hcov _ _ _ trivial hy (leapfrog_pathStep _).1
    refine ⟨_, hx, ?_⟩
    simp
    omega

/-- The value holds the zero store, and no larger numbers. -/
def isOpen (s : Slots Disjunction) : Bool :=
  (["x", "y"].all fun u => s.stable.first.env.contains u && (s.stable.first.box.get u).leq (.atMost 0)) &&
    !s.stable.first.isBottom && s.stable.first.box.bindings.all fun b => b.2.contains 0

theorem of_isOpen {u : Slots Disjunction} (h : isOpen u = true) (hd : u.stable.first.domain = .intervals) :
    (∀ s ∈ ["x", "y"], u.stable.first.env.contains s = true) ∧ Below u.stable.first 0 ∧
      u.stable.first.Allows (Store.point fun _ => 0) := by
  simp only [isOpen, Bool.and_eq_true, List.all_eq_true, Bool.not_eq_true'] at h
  obtain ⟨⟨hnumbers, hlive⟩, hzero⟩ := h
  refine ⟨fun s hs => (hnumbers s hs).1, fun s hs => (hnumbers s hs).2, fun s => Interval.admits_intCast.mpr ?_,
    fun hr => by simp [Value.isRelational, hd] at hr⟩
  by_cases htop : u.stable.first.box.get s = .top
  · rw [htop]
    exact Interval.mem_top
  · refine hzero (s, _) (Box.mem_bindings.mpr ⟨rfl, htop, fun hb => ?_⟩)
    simp [Value.isBottom, hb, Box.isBottom] at hlive

/-- A call that joins only does not return: the value that it would leave has a bound, but the paths lead out of it. -/
theorem not_yields_followPaths (hsu : Searchable (leapfrog.setup unhurried ρ) k leapfrog.Step L rank)
    (hd : k.domain = .intervals) {u : Slots Disjunction} (hr : Working (leapfrog.setup unhurried ρ) k L r)
    (hu : r.slots? unhurried.key 1 = some u) (hopen : isOpen u = true) (fuel : ℕ) :
    ¬ Yields (followPaths (leapfrog.setup unhurried ρ) 1 fuel true) r () r' := by
  intro h
  obtain ⟨henv, hbelow, hzero⟩ := of_isOpen hopen ((hr.asking.regular.slots 1 u hu).stable.1.1.trans hd)
  obtain ⟨u', hu', hover⟩ := hr.operable.slots 1 (one_lt_size hsu)
  obtain rfl : u = u' := Option.some.inj (hu.symm.trans hu')
  rw [hover.stable] at henv
  obtain ⟨-, hadv, hcov⟩ := followPaths_spec hsu.bounded hsu.follows hsu.edges h hr.asking
  obtain ⟨count, hsaturates⟩ := exists_saturates (c := (true, r)) hsu (one_lt_size hsu) hr h
  obtain ⟨c, w, hw, hbound⟩ := hsaturates.bounded hsu henv hr rfl ⟨u, hu, hbelow⟩
  obtain ⟨σ, ⟨w', hw', hall⟩, hlarge⟩ := exists_above_of_covered hcov (hadv.grows 1 _ trivial ⟨u, hu, hzero⟩) (c + 1).toNat
  obtain rfl : w = w' := Option.some.inj (hw.symm.trans hw')
  have hle := Interval.leq_iff.mp (hbound "x" (by simp)) _ (Interval.admits_intCast.mp (hall.1 "x"))
  rw [Interval.mem_atMost] at hle
  omega

end Leapfrog

/-- The state in which the ascending pass begins. -/
def leapfrogStart : Run SearchOracle Memory :=
  ((do prepare (leapfrog.setup unhurried .ample); push 0 : Analysis SearchOracle Memory Unit).run.run
    (firstRun leapfrog unhurried (.build leapfrog.graph.control))).2

/-- The state after the visit of the entry. -/
def leapfrogNext : Run SearchOracle Memory :=
  ((computeNode (leapfrog.setup unhurried .ample) 0).run.run (leapfrogStart.pop [])).2

/-- The first two steps of the call for block 1. -/
def firstSteps : Analysis SearchOracle Memory (List (Option (Path × Bool))) := do
  let first ← follow (leapfrog.setup unhurried .ample) 1 false
  let second ← follow (leapfrog.setup unhurried .ample) 1 false
  return [first, second]

theorem leapfrog_opens :
    leapfrogStart.engine.worklist.queue = [(0, 1)] ∧ leapfrogStart.computed? 0 = some false ∧
      leapfrogNext.engine.worklist.queue = [(1, 2)] ∧ leapfrogNext.computed? 1 = some false ∧
      ((computeNode (leapfrog.setup unhurried .ample) 0).run.run (leapfrogStart.pop [])).1.toOption = some () ∧
      ((startsPaths 1 : Analysis SearchOracle Memory Bool).run.run (leapfrogNext.pop [])).1.toOption = some true ∧
      (firstSteps.run.run (opening (leapfrogNext.pop [])).2).1.toOption =
        some [some (⟨[1, 2, 1]⟩, false), some (⟨[1, 2, 1]⟩, true)] ∧
      ((firstSteps.run.run (opening (leapfrogNext.pop [])).2).2.slots? unhurried.key 1).any isOpen = true := by
  decide +kernel

/-- The call for block 1 raises the two numbers by joins without end, and the analysis comes to the end of any fuel. -/
theorem leapfrog_joins_forever : ∃ r₀ r,
    Yields (do prepare (leapfrog.setup unhurried .ample); push 0)
        (firstRun leapfrog unhurried (.build leapfrog.graph.control)) () r₀ ∧
      Calls (leapfrog.setup unhurried .ample) r₀ 1 r ∧
      (∀ count r', ¬ Saturates (leapfrog.setup unhurried .ample) 1 count (opening r) r') ∧
      ∀ ρ, (analyze (leapfrog.setup unhurried ρ) "f" (.build leapfrog.graph.control)).1 = .error .outOfFuel := by
  have hp : leapfrog.graph.WellFormed := ⟨by decide, by decide⟩
  obtain ⟨k, L, rank, r₀, hd, hsu, hstart, h₀⟩ := exists_start .ample hp
    (show unhurried.known = none from rfl) rfl (Context.ofGraph_build leapfrog.graph.control) (Context.respects_build _ _)
  obtain rfl : r₀ = leapfrogStart := (congrArg Prod.snd hstart).symm
  have hn := one_lt_size hsu
  obtain ⟨hqueue, hcomputed, hqueue', hcomputed', hvisit, hstarts, hsteps, hopen⟩ := leapfrog_opens
  have hstarts := yields_of_toOption hstarts
  rw [(yields_startsPaths hstarts).2] at hstarts
  have hcalls : Calls (leapfrog.setup unhurried .ample) leapfrogStart 1 (leapfrogNext.pop []) :=
    ⟨leapfrogNext, 2, [], .visit .start hqueue hcomputed (yields_of_toOption hvisit), hqueue', hcomputed', rfl, hstarts⟩
  have hr := (hcalls.working hsu h₀).2
  have hends : ∀ count r', ¬ Saturates (leapfrog.setup unhurried .ample) 1 count (opening (leapfrogNext.pop [])) r' := by
    intro count r' h
    -- After two steps the call joins only.
    obtain ⟨first, r₁, hfirst, second, r₂, hsecond, hpure⟩ := by
      simpa only [firstSteps, yields_bind] using yields_of_toOption hsteps
    obtain ⟨hanswers, rfl⟩ := yields_pure.mp hpure
    simp only [List.cons.injEq, and_true] at hanswers
    obtain ⟨rfl, rfl⟩ := hanswers
    have hfollows : Follows (leapfrog.setup unhurried .ample) 1 ⟨[1, 2, 1]⟩ (opening (leapfrogNext.pop [])) (false, r₁) :=
      ⟨by decide, hfirst⟩
    have hfollows' : Follows (leapfrog.setup unhurried .ample) 1 ⟨[1, 2, 1]⟩ (false, r₁)
        (true, (firstSteps.run.run (opening (leapfrogNext.pop [])).2).2) := ⟨by decide, hsecond⟩
    obtain ⟨u, hu, hopen⟩ := (Option.any_eq_true _ _).mp hopen
    have hr₁ := (hfollows.drops hsu hn (hr.memory _)).1
    have hr₂ := (hfollows'.drops hsu hn hr₁).1
    have hyields : Yields (followPaths _ 1 (count + 1 + 1 + 1) (opening (leapfrogNext.pop [])).1) _ () r' := h.yields (by omega)
    rw [Yields, hfollows.run_followPaths, hfollows'.run_followPaths] at hyields
    exact not_yields_followPaths hsu hd hr₂ hu hopen _ hyields
  have hnone : ¬ ∃ count r', Saturates (leapfrog.setup unhurried .ample) 1 count (opening (leapfrogNext.pop [])) r' := by
    rintro ⟨count, r', h⟩
    exact hends count r' h
  have hjoins := (saturates_or_joinsForever hsu hn hr).resolve_left hnone
  exact ⟨_, _, hstart, hcalls, hends, analyze_eq_outOfFuel .ample rfl hstart (hcalls.exhausts hsu h₀ hjoins) "f"⟩

end Focusing

end PathInvariants
