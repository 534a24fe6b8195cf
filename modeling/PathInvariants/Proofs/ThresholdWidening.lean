import PathInvariants.Proofs.SymbolRanges
import PathInvariants.Proofs.DomainSoundness

/-!
# Widening with thresholds

A threshold on one integer variable confines it to an interval, found by dividing its strongest form by the
coefficient. So the threshold holds of a range exactly if the range lies in that interval, whose ends are
among the candidates for the bounds that widening moves. A bound that leaves the range before it has not yet
passed the end of the interval, and the closest candidate beyond it does not pass that end either.
-/
namespace PathInvariants

namespace Interval

variable {i j k : Interval} {lower upper candidates : List ℤ} {bound c l h : ℤ}

/-- The choice among candidates is at least as close as any other at or below the bound. -/
theorem le_greatestBelow (hc : c ∈ candidates) (hle : c ≤ bound) :
    ∃ n, greatestBelow (some bound) candidates = some n ∧ c ≤ n := by
  induction candidates with
  | nil => cases hc
  | cons x xs ih =>
    simp only [greatestBelow]
    split
    · rename_i hchosen
      rw [Bool.and_eq_true] at hchosen
      refine ⟨x, rfl, ?_⟩
      rcases List.mem_cons.mp hc with rfl | hc
      · exact le_rfl
      · obtain ⟨n, hn, hcn⟩ := ih hc
        have hnx : n ≤ x := by simpa [hn] using hchosen.2
        exact hcn.trans hnx
    · rename_i hchosen
      rcases List.mem_cons.mp hc with rfl | hc
      · -- The candidate was passed over for a closer one.
        cases hbest : greatestBelow (some bound) xs with
        | none => simp [hbest, hle] at hchosen
        | some n => exact ⟨n, rfl, by simp [hbest, hle] at hchosen; omega⟩
      · exact ih hc

theorem leastAbove_le (hc : c ∈ candidates) (hle : bound ≤ c) :
    ∃ n, leastAbove (some bound) candidates = some n ∧ n ≤ c := by
  induction candidates with
  | nil => cases hc
  | cons x xs ih =>
    simp only [leastAbove]
    split
    · rename_i hchosen
      rw [Bool.and_eq_true] at hchosen
      refine ⟨x, rfl, ?_⟩
      rcases List.mem_cons.mp hc with rfl | hc
      · exact le_rfl
      · obtain ⟨n, hn, hcn⟩ := ih hc
        have hnx : x ≤ n := by simpa [hn] using hchosen.2
        exact hnx.trans hcn
    · rename_i hchosen
      rcases List.mem_cons.mp hc with rfl | hc
      · cases hbest : leastAbove (some bound) xs with
        | none => simp [hbest, hle] at hchosen
        | some n => exact ⟨n, rfl, by simp [hbest, hle] at hchosen; omega⟩
      · exact ih hc

/-- Widening stays in an interval that holds both operands and whose ends are candidates. -/
theorem widenTo_leq_of_candidates (hi : i.leq k = true) (hj : j.leq k = true) (hlower : ∀ l, k.lo = some l → l ∈ lower)
    (hupper : ∀ h, k.hi = some h → h ∈ upper) : (widenTo lower upper i j).leq k = true := by
  cases i with
  | bottom => exact hj
  | range l₁ h₁ o₁ =>
    cases j with
    | bottom => exact hi
    | range l₂ h₂ o₂ =>
      cases k with
      | bottom => cases hi
      | range l h o =>
        simp only [leq, Bool.and_eq_true] at hi hj
        apply make_leq
        · split
          · exact hi.1
          · cases l with
            | none => rfl
            | some l =>
              obtain ⟨n, rfl⟩ : ∃ n, l₂ = some n := Option.ne_none_iff_exists'.mp fun hnone => by
                simp [hnone, lowerLe] at hj
              obtain ⟨m, hm, hlm⟩ := le_greatestBelow (hlower l rfl) (by simpa [lowerLe] using hj.1)
              simpa [hm, lowerLe] using hlm
        · split
          · exact hi.2
          · cases h with
            | none => exact rfl
            | some h =>
              obtain ⟨n, rfl⟩ : ∃ n, h₂ = some n := Option.ne_none_iff_exists'.mp fun hnone => by
                simp [hnone, upperLe] at hj
              obtain ⟨m, hm, hmh⟩ := leastAbove_le (hupper h rfl) (by simpa [upperLe] using hj.2)
              simpa [hm, upperLe] using hmh

theorem lo_of_make {lo hi : Option ℤ} (h : (make lo hi).lo = some l) : lo = some l := by
  unfold make at h
  split at h
  · exact h
  · cases h

theorem hi_of_make {lo hi : Option ℤ} (hhi : (make lo hi).hi = some h) : hi = some h := by
  unfold make at hhi
  split at hhi
  · exact hhi
  · cases hhi

/-- A finite bound after widening is the one before or a candidate. -/
theorem lo_of_widenTo (hi : i ≠ bottom) (h : (widenTo lower upper i j).lo = some l) : i.lo = some l ∨ l ∈ lower := by
  cases i with
  | bottom => exact absurd rfl hi
  | range l₁ h₁ o₁ =>
    cases j with
    | bottom => exact .inl h
    | range l₂ h₂ o₂ =>
      have hlo := lo_of_make h
      split at hlo
      · exact .inl hlo
      · exact .inr (greatestBelow_spec hlo).1

theorem hi_of_widenTo (hi : i ≠ bottom) (hhi : (widenTo lower upper i j).hi = some h) : i.hi = some h ∨ h ∈ upper := by
  cases i with
  | bottom => exact absurd rfl hi
  | range l₁ h₁ o₁ =>
    cases j with
    | bottom => exact .inl hhi
    | range l₂ h₂ o₂ =>
      have hup := hi_of_make hhi
      split at hup
      · exact .inl hup
      · exact .inr (leastAbove_spec hup).1

theorem isLeast_lo (h : i.lo = some l) : IsLeast {n | n ∈ i} l := by
  cases i with
  | bottom => cases h
  | range lo hi o =>
    obtain rfl : lo = some l := h
    exact ⟨mem_range_lower, fun n hn => (mem_range.mp hn).1⟩

theorem isGreatest_hi (hhi : i.hi = some h) : IsGreatest {n | n ∈ i} h := by
  cases i with
  | bottom => cases hhi
  | range lo hi o =>
    obtain rfl : hi = some h := hhi
    exact ⟨mem_range_upper, fun n hn => (mem_range.mp hn).2⟩

end Interval

namespace Box

variable {a b : Box} {s : Symbol} {i : Interval} {lower upper : Symbol → List ℤ}

theorem get_widenTo_leq_of_candidates (ha : (a.get s).leq i = true) (hb : (b.get s).leq i = true)
    (hlower : ∀ l, i.lo = some l → l ∈ lower s) (hupper : ∀ h, i.hi = some h → h ∈ upper s) :
    ((widenTo lower upper a b).get s).leq i = true := by
  cases a with
  | bottom => exact hb
  | ranges f hf =>
    cases b with
    | bottom => exact ha
    | ranges g hg =>
      refine Interval.leq_trans (get_make_leq _ s) ?_
      rw [Sparse.get_ofFn]
      split
      · exact Interval.widenTo_leq_of_candidates ha hb hlower hupper
      · rename_i hs
        rwa [← Sparse.get_eq_default hs]

theorem get_make_cases (f : Sparse Interval.top) (s : Symbol) : (make f).get s = f.get s ∨ (make f).get s = .bottom := by
  unfold make
  split
  · exact .inl rfl
  · exact .inr rfl

/-- The range of a symbol after widening: its own widening, or unbounded like before. -/
theorem get_widenTo_cases (lower upper : Symbol → List ℤ) (b : Box) (s : Symbol) (ha : a ≠ bottom) :
    (widenTo lower upper a b).get s = a.get s ∨
    (widenTo lower upper a b).get s = .bottom ∨ (widenTo lower upper a b).get s = .top ∨
      (widenTo lower upper a b).get s = Interval.widenTo (lower s) (upper s) (a.get s) (b.get s) := by
  cases a with
  | bottom => exact absurd rfl ha
  | ranges f hf =>
    cases b with
    | bottom => exact .inl rfl
    | ranges g hg =>
      refine .inr ((get_make_cases _ s).symm.imp_right fun hmake => ?_)
      rw [Sparse.get_ofFn] at hmake
      change (widenTo lower upper (ranges f hf) (ranges g hg)).get s = _ at hmake
      split at hmake
      · exact .inr hmake
      · exact .inl hmake

end Box

namespace LinearConstraint

variable {c : LinearConstraint} {s x : Symbol} {m : Valuation} {n : ℤ}

/-- The integer satisfies a constraint on one variable. -/
def SatisfiedBy (c : LinearConstraint) (n : ℤ) : Prop := c.holds (fun _ => n) = true

theorem satisfiedBy_iff : c.SatisfiedBy n ↔ c.HoldsAt fun _ => n := (holdsAt_intCast c fun _ => n).symm

theorem satisfiedBy_tightened : c.tightened.SatisfiedBy n ↔ c.SatisfiedBy n := by
  rw [satisfiedBy_iff, satisfiedBy_iff]
  exact holdsAt_tightened fun _ _ => ⟨n, rfl⟩

/-- The strongest form is an equation or a non-strict inequality, reduced by its content. -/
theorem tightened_eq (c : LinearConstraint) : ∃ e comparison, c.tightened = reduced e comparison ∧ comparison ≠ .gt ∧
    ∀ s, e.coeff s = c.expr.coeff s := by
  obtain ⟨e, comparison⟩ := c
  cases comparison with
  | ge => exact ⟨e, .ge, rfl, nofun, fun _ => rfl⟩
  | eq => exact ⟨e, .eq, rfl, nofun, fun _ => rfl⟩
  | gt =>
    refine ⟨e - .const 1, .ge, rfl, nofun, fun s => ?_⟩
    rw [LinearExpr.coeff_sub, LinearExpr.coeff_const, sub_zero]

theorem comparison_tightened_ne_gt (c : LinearConstraint) : c.tightened.comparison ≠ .gt := by
  obtain ⟨e, comparison, hreduced, hne, -⟩ := c.tightened_eq
  rw [hreduced]
  unfold reduced
  dsimp only
  split
  · exact hne
  · split
    · exact hne
    · exact nofun

theorem coeff_tightened (h : c.expr.coeff s = 0) : c.tightened.expr.coeff s = 0 := by
  obtain ⟨e, comparison, hreduced, -, hcoeff⟩ := c.tightened_eq
  rw [hreduced]
  exact Value.coeff_reduced ((hcoeff s).trans h)

/-- The strongest form keeps the symbols of a constraint that something satisfies. -/
theorem coeff_ne_zero_of_holdsAt_tightened (hs : c.expr.coeff s ≠ 0) (h : c.tightened.HoldsAt m) :
    c.tightened.expr.coeff s ≠ 0 := by
  obtain ⟨e, comparison, hreduced, -, hcoeff⟩ := c.tightened_eq
  rw [← hcoeff] at hs
  rw [hreduced] at h ⊢
  unfold reduced at h ⊢
  dsimp only at h ⊢
  split
  · exact hs
  · rename_i hcontent
    rw [if_neg hcontent] at h
    split
    · intro hzero
      rw [LinearExpr.coeff_divide] at hzero
      have hexact := Int.ediv_mul_cancel (e.content_dvd_coeff s)
      rw [hzero, zero_mul] at hexact
      exact hs hexact.symm
    · rename_i hdivides
      rw [if_neg hdivides] at h
      exact absurd h (not_holdsAt_never m)

/-- The values of `x` that a constraint on it alone allows. -/
theorem mem_divide_iff {target : Interval} (hc : c.comparison ≠ .gt) (hfree : ∀ s, s ≠ x → c.expr.coeff s = 0)
    (hx : c.expr.coeff x ≠ 0) (htarget : target = match c.comparison with
      | .eq => Interval.point (-c.expr.constant)
      | .ge | .gt => Interval.atLeast (-c.expr.constant)) :
    n ∈ target.divide (c.expr.coeff x) true ↔ c.SatisfiedBy n := by
  have hvalue : c.expr.value (fun _ => (n : ℚ)) = (c.expr.coeff x * n + c.expr.constant : ℤ) := by
    rw [LinearExpr.value_eq_sum (S := {x}) fun s hs => Finset.mem_singleton.mpr (by_contra fun hne => hs (hfree s hne))]
    rw [Finset.sum_singleton]
    push_cast
    rfl
  rw [Interval.mem_divide hx, satisfiedBy_iff, HoldsAt, hvalue, htarget]
  cases hcomparison : c.comparison with
  | gt => exact absurd hcomparison hc
  | ge =>
    rw [Interval.mem_atLeast]
    simp only [Comparison.HoldsAt, Int.cast_nonneg_iff]
    omega
  | eq =>
    rw [Interval.mem_point]
    simp only [Comparison.HoldsAt, Int.cast_eq_zero]
    omega

end LinearConstraint

namespace Value

variable {v w : Value} {thresholds : List LinearConstraint} {t : LinearConstraint} {x : Symbol} {i : Interval} {l h n : ℤ}

theorem symbols_of_thresholdRange (hrange : v.thresholdRange? x t = some i) : t.expr.symbols = [x] := by
  unfold thresholdRange? at hrange
  split at hrange
  · assumption
  · cases hrange

theorem coeff_eq_zero_of_symbols (ht : t.expr.symbols = [x]) {s : Symbol} (hs : s ≠ x) : t.expr.coeff s = 0 := by
  by_contra hne
  have hmem := LinearExpr.mem_symbols.mpr hne
  rw [ht, List.mem_singleton] at hmem
  exact hs hmem

/-- The range that a threshold gives an integer variable holds the integers that satisfy the threshold. -/
theorem mem_thresholdRange_iff (hint : v.isIntegral x = true) (hrange : v.thresholdRange? x t = some i) :
    n ∈ i ↔ t.SatisfiedBy n := by
  have ht := symbols_of_thresholdRange hrange
  unfold thresholdRange? at hrange
  dsimp only at hrange
  rw [if_pos ht, hint, if_pos rfl] at hrange
  split at hrange
  · rename_i hmentions
    obtain rfl := Option.some.inj hrange
    rw [← LinearConstraint.satisfiedBy_tightened]
    exact LinearConstraint.mem_divide_iff t.comparison_tightened_ne_gt
      (fun s hs => LinearConstraint.coeff_tightened (coeff_eq_zero_of_symbols ht hs))
      (LinearExpr.mentions_iff.mp hmentions) rfl
  · cases hrange

/-- A threshold that some integer satisfies gives a range. -/
theorem exists_thresholdRange (hint : v.isIntegral x = true) (ht : t.expr.symbols = [x]) (hn : t.SatisfiedBy n) :
    ∃ i, v.thresholdRange? x t = some i := by
  have hx : t.expr.coeff x ≠ 0 := LinearExpr.mem_symbols.mp (by rw [ht]; exact List.mem_singleton_self x)
  have hholds := LinearConstraint.satisfiedBy_iff.mp (LinearConstraint.satisfiedBy_tightened.mpr hn)
  have hmentions := LinearExpr.mentions_iff.mpr (LinearConstraint.coeff_ne_zero_of_holdsAt_tightened hx hholds)
  unfold thresholdRange?
  dsimp only
  rw [if_pos ht, hint, if_pos rfl, if_pos hmentions]
  exact ⟨_, rfl⟩

/-- A threshold that holds of both operands holds of the widening. -/
theorem satisfiedBy_widenAligned (hint : v.isIntegral x = true) (hmem : t ∈ thresholds) (ht : t.expr.symbols = [x])
    (hv : ∀ n ∈ v.rangeOf x, t.SatisfiedBy n) (hw : ∀ n ∈ w.rangeOf x, t.SatisfiedBy n) :
    ∀ n ∈ (widenAligned thresholds v w).rangeOf x, t.SatisfiedBy n := by
  unfold widenAligned
  split
  · exact hv
  · split
    · exact hw
    · rename_i hb
      -- The first operand has an integer, so the threshold is satisfiable and has a range.
      obtain ⟨k, hk⟩ := Interval.exists_mem (Box.get_ne_bottom (isBottom_eq_false.mp (by simpa using hb)) x)
      obtain ⟨i, hi⟩ := exists_thresholdRange hint ht (hv k hk)
      have hranges : i ∈ v.thresholdRanges thresholds x := List.mem_filterMap.mpr ⟨t, hmem, hi⟩
      have hbelow : ∀ j : Interval, (∀ n ∈ j, t.SatisfiedBy n) → j.leq i = true := fun j hj =>
        Interval.leq_iff.mpr fun n hn => (mem_thresholdRange_iff hint hi).mpr (hj n hn)
      intro n hn
      refine (mem_thresholdRange_iff hint hi).mp (Interval.leq_iff.mp ?_ n hn)
      refine Box.get_widenTo_leq_of_candidates (hbelow _ hv) (Box.get_join_leq (hbelow _ hv) (hbelow _ hw)) ?_ ?_
      · exact fun l hl => List.mem_filterMap.mpr ⟨i, hranges, hl⟩
      · exact fun h hh => List.mem_filterMap.mpr ⟨i, hranges, hh⟩

theorem isLeast_of_mem_thresholdRanges (hint : v.isIntegral x = true)
    (hl : l ∈ (v.thresholdRanges thresholds x).filterMap Interval.lo) :
    ∃ t ∈ thresholds, t.expr.symbols = [x] ∧ IsLeast {n | t.SatisfiedBy n} l := by
  obtain ⟨i, hi, hlo⟩ := List.mem_filterMap.mp hl
  obtain ⟨t, ht, hrange⟩ := List.mem_filterMap.mp hi
  have hexact : {n | t.SatisfiedBy n} = {n | n ∈ i} := Set.ext fun n => (mem_thresholdRange_iff hint hrange).symm
  exact ⟨t, ht, symbols_of_thresholdRange hrange, hexact ▸ Interval.isLeast_lo hlo⟩

theorem isGreatest_of_mem_thresholdRanges (hint : v.isIntegral x = true)
    (hh : h ∈ (v.thresholdRanges thresholds x).filterMap Interval.hi) :
    ∃ t ∈ thresholds, t.expr.symbols = [x] ∧ IsGreatest {n | t.SatisfiedBy n} h := by
  obtain ⟨i, hi, hhi⟩ := List.mem_filterMap.mp hh
  obtain ⟨t, ht, hrange⟩ := List.mem_filterMap.mp hi
  have hexact : {n | t.SatisfiedBy n} = {n | n ∈ i} := Set.ext fun n => (mem_thresholdRange_iff hint hrange).symm
  exact ⟨t, ht, symbols_of_thresholdRange hrange, hexact ▸ Interval.isGreatest_hi hhi⟩

/-- Where the bounds of a widened range come from. -/
theorem rangeOf_widenAligned_cases (thresholds : List LinearConstraint) (v w : Value) (x : Symbol) :
    let ranges := v.thresholdRanges thresholds x
    let r := (widenAligned thresholds v w).rangeOf x
    r = v.rangeOf x ∨ v.isBottom = true ∧ r = w.rangeOf x ∨ r = .bottom ∨ r = .top ∨ v.isBottom = false ∧
      ∃ j, r = Interval.widenTo (ranges.filterMap Interval.lo) (ranges.filterMap Interval.hi) (v.rangeOf x) j := by
  intro ranges r
  simp only [r]
  unfold widenAligned
  split
  · exact .inl rfl
  · split
    · rename_i hb
      exact .inr (.inl ⟨hb, rfl⟩)
    · rename_i hb
      have hb : v.isBottom = false := by simpa using hb
      rcases Box.get_widenTo_cases (fun s => (v.thresholdRanges thresholds s).filterMap Interval.lo)
        (fun s => (v.thresholdRanges thresholds s).filterMap Interval.hi) (v.box.join w.box) x
        (isBottom_eq_false.mp hb) with hsame | hbottom | htop | hwiden
      · exact .inl hsame
      · exact .inr (.inr (.inl hbottom))
      · exact .inr (.inr (.inr (.inl htop)))
      · exact .inr (.inr (.inr (.inr ⟨hb, _, hwiden⟩)))

theorem lo_widenAligned (hint : v.isIntegral x = true) (hl : ((widenAligned thresholds v w).rangeOf x).lo = some l) :
    (v.rangeOf x).lo = some l ∨ (v.isBottom = true ∧ (w.rangeOf x).lo = some l) ∨
      ∃ t ∈ thresholds, t.expr.symbols = [x] ∧ IsLeast {n | t.SatisfiedBy n} l := by
  rcases rangeOf_widenAligned_cases thresholds v w x with hr | ⟨hb, hr⟩ | hr | hr | ⟨hb, j, hr⟩ <;> rw [hr] at hl
  · exact .inl hl
  · exact .inr (.inl ⟨hb, hl⟩)
  · cases hl
  · cases hl
  · rcases Interval.lo_of_widenTo (Box.get_ne_bottom (isBottom_eq_false.mp hb) x) hl with hl | hl
    · exact .inl hl
    · exact .inr (.inr (isLeast_of_mem_thresholdRanges hint hl))

theorem hi_widenAligned (hint : v.isIntegral x = true) (hh : ((widenAligned thresholds v w).rangeOf x).hi = some h) :
    (v.rangeOf x).hi = some h ∨ (v.isBottom = true ∧ (w.rangeOf x).hi = some h) ∨
      ∃ t ∈ thresholds, t.expr.symbols = [x] ∧ IsGreatest {n | t.SatisfiedBy n} h := by
  rcases rangeOf_widenAligned_cases thresholds v w x with hr | ⟨hb, hr⟩ | hr | hr | ⟨hb, j, hr⟩ <;> rw [hr] at hh
  · exact .inl hh
  · exact .inr (.inl ⟨hb, hh⟩)
  · cases hh
  · cases hh
  · rcases Interval.hi_of_widenTo (Box.get_ne_bottom (isBottom_eq_false.mp hb) x) hh with hh | hh
    · exact .inl hh
    · exact .inr (.inr (isGreatest_of_mem_thresholdRanges hint hh))

/-- Widening gives up no threshold on an integer variable that holds of both operands. A finite bound of the widened
range is the one before, that of the second operand if the first has no states, or the last value on its side that
some threshold allows. -/
theorem widenTo_keeps_thresholds (henv : v.env = w.env) (hx : v.env.kindOf x = some .int)
    (thresholds : List LinearConstraint) : ∃ u, v.widenTo thresholds w = .ok u ∧
      (∀ t ∈ thresholds, t.expr.symbols = [x] → (∀ n ∈ v.rangeOf x, t.SatisfiedBy n) →
        (∀ n ∈ w.rangeOf x, t.SatisfiedBy n) → ∀ n ∈ u.rangeOf x, t.SatisfiedBy n) ∧
      (∀ l, (u.rangeOf x).lo = some l → (v.rangeOf x).lo = some l ∨ (v.isBottom = true ∧ (w.rangeOf x).lo = some l) ∨
        ∃ t ∈ thresholds, t.expr.symbols = [x] ∧ IsLeast {n | t.SatisfiedBy n} l) ∧
      ∀ h, (u.rangeOf x).hi = some h → (v.rangeOf x).hi = some h ∨ (v.isBottom = true ∧ (w.rangeOf x).hi = some h) ∨
        ∃ t ∈ thresholds, t.expr.symbols = [x] ∧ IsGreatest {n | t.SatisfiedBy n} h := by
  have hint : v.isIntegral x = true := by simp [isIntegral, hx]
  refine ⟨_, widenTo_of_env henv thresholds, fun t ht hs hv hw => ?_, fun l => lo_widenAligned hint,
    fun h => hi_widenAligned hint⟩
  exact satisfiedBy_widenAligned hint ht hs hv hw

/-- From zero to at most three, with `x ≤ 2` and `2 x < 9` as thresholds: the first is violated, and the bound moves to
the last integer that the second allows. -/
theorem widenTo_keeps_thresholds_past_two :
    let v := (top .intervals mixedEnv).constrain (.eq (.var "x"))
    let w := ((top .intervals mixedEnv).constrain (.ge (.var "x"))).constrain (.ge (.const 3 - .var "x"))
    let t := LinearConstraint.gt (.const 9 - .term 2 "x")
    let thresholds := [.ge (.const 2 - .var "x"), t]
    v.env = w.env ∧ v.env.kindOf "x" = some .int ∧ t.expr.symbols = ["x"] ∧ (∀ n ∈ v.rangeOf "x", t.SatisfiedBy n) ∧
      (∀ n ∈ w.rangeOf "x", t.SatisfiedBy n) ∧ ∃ u, v.widenTo thresholds w = .ok u ∧ u.rangeOf "x" = .closed 0 4 ∧
        (∀ n ∈ u.rangeOf "x", t.SatisfiedBy n) ∧
          ∃ t ∈ thresholds, t.expr.symbols = ["x"] ∧ IsGreatest {n | t.SatisfiedBy n} 4 := by
  intro v w t thresholds
  have henv : v.env = w.env := by decide +kernel
  have hx : v.env.kindOf "x" = some .int := by decide +kernel
  have ht : t.expr.symbols = ["x"] := by decide +kernel
  have hv : ∀ n ∈ v.rangeOf "x", t.SatisfiedBy n := by
    rw [show v.rangeOf "x" = .point 0 by decide +kernel]
    intro n hn
    obtain rfl := Interval.mem_point.mp hn
    change t.holds _ = true
    decide +kernel
  have hw : ∀ n ∈ w.rangeOf "x", t.SatisfiedBy n := by
    rw [show w.rangeOf "x" = .closed 0 3 by decide +kernel]
    intro n hn
    obtain ⟨hlo, hhi⟩ := Interval.mem_closed.mp hn
    change t.holds _ = true
    interval_cases n <;> decide +kernel
  obtain ⟨u, hu, hkeeps, -, hhi⟩ := widenTo_keeps_thresholds henv hx thresholds
  have hrange : u.rangeOf "x" = .closed 0 4 := by
    obtain rfl := Except.ok.inj (hu.symm.trans (widenTo_of_env henv thresholds))
    decide +kernel
  have hnew := hhi 4 (by rw [hrange]; decide)
  have hbound : ∃ t ∈ thresholds, t.expr.symbols = ["x"] ∧ IsGreatest {n | t.SatisfiedBy n} 4 := by
    rcases hnew with hsame | ⟨hb, -⟩ | hthreshold
    · exact absurd hsame (by decide +kernel)
    · exact absurd hb (by decide +kernel)
    · exact hthreshold
  exact ⟨henv, hx, ht, hv, hw, u, hu, hrange, hkeeps t (by simp [thresholds]) ht hv hw, hbound⟩

end Value

end PathInvariants
