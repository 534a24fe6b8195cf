import PathInvariants.Proofs.EqualityRank
import PathInvariants.Proofs.ValueStates

/-!
# Heights of abstract values

A measure that every widening lowers unless it stays put. Each finite bound of the box counts one,
and one more for each threshold beyond it, at which a widening may still stop. Where the box does not
move, the rank of the equalities falls. No property of the values is needed, so the transfer
functions may return what they like.
-/
namespace PathInvariants

namespace Interval

/-- How often a lower bound can move down: to each candidate below it and to infinity. -/
def lowerSlack (candidates : Finset ℤ) (lo : Option ℤ) : ℕ :=
  lo.elim 0 fun l => 1 + (candidates.filter (· < l)).card

/-- How often an upper bound can move up. -/
def upperSlack (candidates : Finset ℤ) (hi : Option ℤ) : ℕ :=
  hi.elim 0 fun h => 1 + (candidates.filter (h < ·)).card

def slack (candidates : Finset ℤ) (i : Interval) : ℕ := lowerSlack candidates i.lo + upperSlack candidates i.hi

variable {candidates : Finset ℤ} {lower upper : List ℤ} {i j : Interval}

theorem slack_make_le (candidates : Finset ℤ) (lo hi : Option ℤ) :
    slack candidates (make lo hi) ≤ lowerSlack candidates lo + upperSlack candidates hi := by
  unfold make
  split
  · exact le_rfl
  · exact Nat.zero_le _

theorem lowerSlack_greatestBelow {l₁ l₂ : Option ℤ} (hc : ∀ c ∈ lower, c ∈ candidates) (h : ¬ lowerLe l₁ l₂ = true) :
    lowerSlack candidates (greatestBelow l₂ lower) < lowerSlack candidates l₁ := by
  cases l₁ with
  | none => exact absurd rfl h
  | some a =>
    cases hg : greatestBelow l₂ lower with
    | none =>
      change 0 < 1 + _
      omega
    | some c =>
      obtain ⟨hmem, b, rfl, hcb⟩ := greatestBelow_spec hg
      have hba : b < a := by simpa [lowerLe] using h
      have hss : candidates.filter (· < c) ⊂ candidates.filter (· < a) := by
        refine Finset.ssubset_iff_of_subset (fun x hx => ?_) |>.mpr ⟨c, ?_, by simp⟩
        · rw [Finset.mem_filter] at hx ⊢
          exact ⟨hx.1, by omega⟩
        · exact Finset.mem_filter.mpr ⟨hc c hmem, by omega⟩
      exact Nat.add_lt_add_left (Finset.card_lt_card hss) 1

theorem upperSlack_leastAbove {h₁ h₂ : Option ℤ} (hc : ∀ c ∈ upper, c ∈ candidates) (h : ¬ upperLe h₂ h₁ = true) :
    upperSlack candidates (leastAbove h₂ upper) < upperSlack candidates h₁ := by
  cases h₁ with
  | none => exact absurd (by cases h₂ <;> rfl) h
  | some a =>
    cases hg : leastAbove h₂ upper with
    | none =>
      change 0 < 1 + _
      omega
    | some c =>
      obtain ⟨hmem, b, rfl, hbc⟩ := leastAbove_spec hg
      have hab : a < b := by simpa [upperLe] using h
      have hss : candidates.filter (c < ·) ⊂ candidates.filter (a < ·) := by
        refine Finset.ssubset_iff_of_subset (fun x hx => ?_) |>.mpr ⟨c, ?_, by simp⟩
        · rw [Finset.mem_filter] at hx ⊢
          exact ⟨hx.1, by omega⟩
        · exact Finset.mem_filter.mpr ⟨hc c hmem, by omega⟩
      exact Nat.add_lt_add_left (Finset.card_lt_card hss) 1

/-- Widening stays put or has less slack left. -/
theorem slack_widenTo (hl : ∀ c ∈ lower, c ∈ candidates) (hu : ∀ c ∈ upper, c ∈ candidates) (hi : i ≠ bottom) :
    widenTo lower upper i j = i ∨ slack candidates (widenTo lower upper i j) < slack candidates i := by
  cases i with
  | bottom => exact absurd rfl hi
  | range l₁ h₁ ordered =>
    cases j with
    | bottom => exact .inl rfl
    | range l₂ h₂ _ =>
      simp only [widenTo]
      have hle := slack_make_le candidates (if lowerLe l₁ l₂ then l₁ else greatestBelow l₂ lower)
        (if upperLe h₂ h₁ then h₁ else leastAbove h₂ upper)
      have hslack : slack candidates (range l₁ h₁ ordered) = lowerSlack candidates l₁ + upperSlack candidates h₁ := rfl
      rw [hslack]
      by_cases hlo : lowerLe l₁ l₂ = true
      · by_cases hhi : upperLe h₂ h₁ = true
        · rw [if_pos hlo, if_pos hhi]
          exact .inl (dif_pos ordered)
        · rw [if_pos hlo, if_neg hhi] at hle ⊢
          have := upperSlack_leastAbove hu hhi
          exact .inr (by omega)
      · have hlower := lowerSlack_greatestBelow hl hlo
        by_cases hhi : upperLe h₂ h₁ = true
        · rw [if_neg hlo, if_pos hhi] at hle ⊢
          exact .inr (by omega)
        · rw [if_neg hlo, if_neg hhi] at hle ⊢
          have := upperSlack_leastAbove hu hhi
          exact .inr (by omega)

end Interval

namespace Box

variable {candidates : Symbol → Finset ℤ} {lower upper : Symbol → List ℤ} {a b : Box}

def slack (candidates : Symbol → Finset ℤ) : Box → ℕ
  | bottom => 0
  | ranges f _ => ∑ s ∈ f.support.toFinset, (f.get s).slack (candidates s)

theorem slack_make_le {f : Sparse Interval.top} {S : Finset Symbol} (hS : ∀ s, f.get s ≠ .top → s ∈ S) :
    (make f).slack candidates ≤ ∑ s ∈ S, (f.get s).slack (candidates s) := by
  unfold make
  split
  · refine Finset.sum_le_sum_of_subset fun s hs => hS s ?_
    exact Sparse.mem_support.mp (List.mem_toFinset.mp hs)
  · exact Nat.zero_le _

theorem leq_refl (b : Box) : b.leq b = true := by
  cases b with
  | bottom => rfl
  | ranges f _ =>
    refine List.all_eq_true.mpr fun ⟨s, i⟩ he => ?_
    rw [(Sparse.mem_entries.mp he).1]
    exact Interval.leq_iff.mpr fun n hn => hn

/-- Widening stays put or has less slack left. -/
theorem slack_widenTo (hl : ∀ s, ∀ c ∈ lower s, c ∈ candidates s) (hu : ∀ s, ∀ c ∈ upper s, c ∈ candidates s)
    (ha : a ≠ bottom) : widenTo lower upper a b = a ∨ (widenTo lower upper a b).slack candidates < a.slack candidates := by
  cases a with
  | bottom => exact absurd rfl ha
  | ranges f hf =>
    cases b with
    | bottom => exact .inl rfl
    | ranges g hg =>
      let w := Sparse.ofFn Interval.top f.support fun s => Interval.widenTo (lower s) (upper s) (f.get s) (g.get s)
      have hget : ∀ s ∈ f.support, w.get s = Interval.widenTo (lower s) (upper s) (f.get s) (g.get s) := fun s hs => by
        rw [Sparse.get_ofFn, if_pos hs]
      have houtside : ∀ s, s ∉ f.support → w.get s = .top := fun s hs => by rw [Sparse.get_ofFn, if_neg hs]
      have hrange : ∀ s ∈ f.support, f.get s ≠ .bottom := fun s hs =>
        hf (s, f.get s) (Sparse.mem_entries.mpr ⟨rfl, Sparse.mem_support.mp hs⟩)
      have hstep : ∀ s ∈ f.support, w.get s = f.get s ∨
          (w.get s).slack (candidates s) < (f.get s).slack (candidates s) := fun s hs => by
        rw [hget s hs]
        exact Interval.slack_widenTo (hl s) (hu s) (hrange s hs)
      by_cases hall : ∀ s ∈ f.support, w.get s = f.get s
      · have hw : w = f := Sparse.ext fun s => by
          by_cases hs : s ∈ f.support
          · exact hall s hs
          · rw [houtside s hs, Sparse.get_eq_default hs]
        refine .inl ?_
        change make w = _
        rw [hw]
        exact dif_pos hf
      · push Not at hall
        obtain ⟨s, hs, hne⟩ := hall
        refine .inr (lt_of_le_of_lt (slack_make_le (S := f.support.toFinset) fun t ht => ?_) ?_)
        · by_contra hmem
          exact ht (houtside t fun h => hmem (List.mem_toFinset.mpr h))
        · refine Finset.sum_lt_sum (fun t ht => ?_) ⟨s, List.mem_toFinset.mpr hs, (hstep s hs).resolve_left hne⟩
          rcases hstep t (List.mem_toFinset.mp ht) with heq | hlt
          · rw [show w.get t = f.get t from heq]
          · exact hlt.le

end Box

namespace Value

variable {v w : Value} {x : Valuation × ℚ}

/-- A satisfiable system with what the box fixes vanishes where both parts do. -/
theorem vanishAt_allEqualities (h : v.allEqualities.isUnsatisfiable = false) :
    v.allEqualities.VanishAt x ↔ v.eqs.VanishAt x ∧ ∀ e ∈ v.fixedSymbols, e.functional x = 0 := by
  unfold allEqualities at h ⊢
  split at h
  · rename_i hnil
    rw [hnil]
    simp
  · rename_i fixed hne
    exact Equalities.vanishAt_extend h x

/-- With an unsatisfiable system the whole is unsatisfiable. -/
theorem isUnsatisfiable_eqs (h : v.allEqualities.isUnsatisfiable = false) : v.eqs.isUnsatisfiable = false := by
  by_contra hu
  have hu : v.eqs.isUnsatisfiable = true := by simpa using hu
  unfold allEqualities at h
  split at h
  · rw [hu] at h
    cases h
  · obtain ⟨x, hx, hne⟩ := Equalities.exists_vanishAt h
    exact hne (((Equalities.vanishAt_extend h x).mp hx).1.snd_eq_zero hu)

theorem leq_refl (v : Value) : v.leq v = true := by
  unfold leq
  split
  · rfl
  · rw [Bool.and_eq_true, Bool.or_eq_true]
    refine ⟨v.box.leq_refl, .inr (List.all_eq_true.mpr fun e he => ?_)⟩
    by_contra hne
    obtain ⟨hsat, x, hx, hval⟩ := Equalities.exists_of_not_implies (by simpa using hne)
    exact hval (((vanishAt_allEqualities hsat).mp hx).1 e he)

/-- The bounds that thresholds give a symbol, as an integer or as a real. -/
def candidates (thresholds : List LinearConstraint) (s : Symbol) : Finset ℤ :=
  ([top .intervals Environment.empty, top .intervals (Sparse.set Environment.empty s (some .real))].flatMap fun v =>
    (v.thresholdRanges thresholds s).flatMap fun i => i.lo.toList ++ i.hi.toList).toFinset

theorem thresholdRanges_congr {thresholds : List LinearConstraint} {s : Symbol} (h : v.isIntegral s = w.isIntegral s) :
    v.thresholdRanges thresholds s = w.thresholdRanges thresholds s := by
  have hrange : v.thresholdRange? s = w.thresholdRange? s := by
    funext c
    simp only [thresholdRange?, h]
  rw [thresholdRanges, thresholdRanges, hrange]

theorem mem_candidates {all thresholds : List LinearConstraint} (hsub : ∀ c ∈ thresholds, c ∈ all) {s : Symbol}
    {i : Interval} (hi : i ∈ v.thresholdRanges thresholds s) {n : ℤ} (hn : i.lo = some n ∨ i.hi = some n) :
    n ∈ candidates all s := by
  have hall : i ∈ v.thresholdRanges all s := by
    obtain ⟨c, hc, hr⟩ := List.mem_filterMap.mp hi
    exact List.mem_filterMap.mpr ⟨c, hsub c hc, hr⟩
  have hmem : n ∈ i.lo.toList ++ i.hi.toList := by
    rcases hn with hn | hn <;> simp [hn]
  rw [candidates, List.mem_toFinset, List.mem_flatMap]
  cases hint : v.isIntegral s with
  | true =>
    refine ⟨top .intervals Environment.empty, by simp, List.mem_flatMap.mpr ⟨i, ?_, hmem⟩⟩
    rwa [thresholdRanges_congr (w := v)]
    rw [hint]
    rfl
  | false =>
    refine ⟨top .intervals (Sparse.set Environment.empty s (some .real)), by simp, List.mem_flatMap.mpr ⟨i, ?_, hmem⟩⟩
    rwa [thresholdRanges_congr (w := v)]
    rw [hint]
    simp [isIntegral, top, Environment.kindOf, Sparse.get_set]

/-- The slack of the box and the rank of the equalities, where bottom and unsatisfiable are highest. -/
noncomputable def height (candidates : Symbol → Finset ℤ) (v : Value) : WithTop ℕ ×ₗ WithTop ℕ :=
  toLex (if v.isBottom then ⊤ else (v.box.slack candidates : WithTop ℕ),
    if v.allEqualities.isUnsatisfiable then ⊤ else (v.allEqualities.rank : WithTop ℕ))

/-- Bottom is higher than what is not. -/
theorem height_lt_of_isBottom {candidates : Symbol → Finset ℤ} (hw : w.isBottom = false) (hv : v.isBottom = true) :
    w.height candidates < v.height candidates := by
  refine Prod.Lex.lt_iff.mpr (.inl ?_)
  simp only [height, ofLex_toLex]
  rw [if_pos hv, if_neg (by simp [hw])]
  exact WithTop.coe_lt_top _

/-- Values with one box and satisfiable equalities, when the equations of one lose something of the other's. -/
theorem rank_lt_of_join (hbox : w.box = v.box) (hv : v.allEqualities.isUnsatisfiable = false)
    (hw : w.allEqualities.isUnsatisfiable = false) (heqs : ∀ y, v.allEqualities.VanishAt y → w.eqs.VanishAt y)
    {e : LinearExpr} (he : e ∈ v.eqs.rows) (hx : w.allEqualities.VanishAt x) (hne : e.functional x ≠ 0) :
    w.allEqualities.rank < v.allEqualities.rank := by
  have hfixed : w.fixedSymbols = v.fixedSymbols := by rw [fixedSymbols, fixedSymbols, hbox]
  refine Equalities.rank_lt_rank (fun y hy => ?_) (fun y hy => ((vanishAt_allEqualities hv).mp hy).1 e he) hx hne
  refine (vanishAt_allEqualities hw).mpr ⟨heqs y hy, ?_⟩
  rw [hfixed]
  exact ((vanishAt_allEqualities hv).mp hy).2

/-- A widening that is not below its first operand is lower in height. -/
theorem height_widenAligned {all thresholds : List LinearConstraint} (hsub : ∀ c ∈ thresholds, c ∈ all)
    (h : (widenAligned thresholds v w).leq v = false) :
    (widenAligned thresholds v w).height (candidates all) < v.height (candidates all) := by
  unfold widenAligned at h ⊢
  split at h
  · rw [v.leq_refl] at h
    cases h
  · rename_i hw
    rw [if_neg hw]
    split at h
    · rename_i hv
      rw [if_pos hv]
      exact height_lt_of_isBottom (by simpa [isBottom] using hw) hv
    · rename_i hv
      rw [if_neg hv]
      generalize hu : ({ v with
        box := Box.widenTo (fun s => (v.thresholdRanges thresholds s).filterMap Interval.lo)
          (fun s => (v.thresholdRanges thresholds s).filterMap Interval.hi) v.box (v.box.join w.box)
        eqs := if v.isRelational then v.allEqualities.join w.allEqualities else v.eqs } : Value) = u at h ⊢
      have hvb : v.box ≠ .bottom := fun hb => hv (Box.isBottom_iff.mpr hb)
      have hub : u.isBottom = false := by
        by_contra hb
        rw [leq, if_pos (by simpa using hb)] at h
        cases h
      have hslack : u.box = v.box ∨ u.box.slack (candidates all) < v.box.slack (candidates all) := by
        rw [← hu]
        refine Box.slack_widenTo (fun s c hc => ?_) (fun s c hc => ?_) hvb
        all_goals
          obtain ⟨i, hi, hic⟩ := List.mem_filterMap.mp hc
          exact mem_candidates hsub hi (by simp [hic])
      have hvb' : v.isBottom = false := by simpa using hv
      rw [Prod.Lex.lt_iff]
      simp only [height, ofLex_toLex]
      rw [if_neg (Bool.eq_false_iff.mp hub), if_neg hv]
      rcases hslack with hbox | hlt
      · right
        refine ⟨by rw [hbox], ?_⟩
        rw [leq, if_neg (by simp [hub]), if_neg (by simp [hvb']), hbox, v.box.leq_refl, Bool.true_and,
          Bool.or_eq_false_iff] at h
        obtain ⟨e, he, hne⟩ := List.all_eq_false.mp h.2
        obtain ⟨hsat, x, hx, hval⟩ := Equalities.exists_of_not_implies (by simpa using hne)
        rw [if_neg (Bool.eq_false_iff.mp hsat)]
        cases hvsat : v.allEqualities.isUnsatisfiable with
        | true => exact WithTop.coe_lt_top _
        | false =>
          refine WithTop.coe_lt_coe.mpr (rank_lt_of_join hbox hvsat hsat (fun y hy => ?_) he hx hval)
          have hues := isUnsatisfiable_eqs hsat
          have hueqs : u.eqs = if v.isRelational then v.allEqualities.join w.allEqualities else v.eqs := by rw [← hu]
          rw [hueqs] at hues ⊢
          split at hues
          · rename_i hr
            rw [if_pos hr]
            cases hwsat : w.allEqualities.isUnsatisfiable with
            | true =>
              rw [Equalities.join, hvsat, hwsat]
              exact hy
            | false => exact Equalities.vanishAt_join hvsat hwsat hues (.inl hy)
          · rename_i hr
            rw [if_neg hr]
            exact ((vanishAt_allEqualities hvsat).mp hy).1
      · left
        exact WithTop.coe_lt_coe.mpr hlt

end Value

end PathInvariants
