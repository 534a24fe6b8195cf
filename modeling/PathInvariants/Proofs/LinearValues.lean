import PathInvariants.Linear.Constraint
import PathInvariants.Proofs.RowSolutions
import PathInvariants.Interval.Membership

/-!
# Values of linear expressions and constraints

Expressions and constraints at rational valuations of the symbols. Every operation on expressions is
the operation on their values, and the strongest form of a constraint has the same solutions among
the valuations that are integral on its symbols.
-/
namespace PathInvariants

abbrev Valuation := Symbol → ℚ

namespace LinearExpr

/-- The value at a rational valuation. -/
def value (e : LinearExpr) (m : Valuation) : ℚ := (e.terms.map fun t => (t.2 : ℚ) * m t.1).sum + e.constant

theorem ext_coeff {e f : LinearExpr} (hc : ∀ s, e.coeff s = f.coeff s) (h : e.constant = f.constant) : e = f := by
  have he : e.coeffs = f.coeffs := Sparse.ext hc
  cases e
  cases f
  simp_all

theorem coeff_of_mem_terms {e : LinearExpr} {t : Symbol × ℤ} (ht : t ∈ e.terms) : e.coeff t.1 = t.2 ∧ t.2 ≠ 0 :=
  Sparse.mem_entries.mp ht

theorem mem_symbols {e : LinearExpr} {s : Symbol} : s ∈ e.symbols ↔ e.coeff s ≠ 0 := Sparse.mem_support

theorem nodup_symbols (e : LinearExpr) : e.symbols.Nodup :=
  (Sparse.pairwise_support e.coeffs).imp fun h => String.ne_of_lt h

/-- The value as a sum over any set of symbols that holds those of the expression. -/
theorem value_eq_sum {e : LinearExpr} {S : Finset Symbol} (hS : ∀ s, e.coeff s ≠ 0 → s ∈ S) (m : Valuation) :
    e.value m = ∑ s ∈ S, (e.coeff s : ℚ) * m s + e.constant := by
  have hterms : e.terms.map (fun t => (t.2 : ℚ) * m t.1) = e.symbols.map fun s => (e.coeff s : ℚ) * m s := by
    rw [symbols, Sparse.support, List.map_map]
    refine List.map_congr_left fun t ht => ?_
    rw [Function.comp, (coeff_of_mem_terms ht).1]
  have hsub : e.symbols.toFinset ⊆ S := fun s hs => hS s (mem_symbols.mp (List.mem_toFinset.mp hs))
  have hrest : ∀ s ∈ S, s ∉ e.symbols.toFinset → (e.coeff s : ℚ) * m s = 0 := by
    intro s _ hs
    have hz : e.coeff s = 0 := by
      by_contra hne
      exact hs (List.mem_toFinset.mpr (mem_symbols.mpr hne))
    simp [hz]
  rw [value, hterms, ← List.sum_toFinset _ e.nodup_symbols, Finset.sum_subset hsub hrest]

theorem coeff_add (e f : LinearExpr) (s : Symbol) : (e + f).coeff s = e.coeff s + f.coeff s :=
  Sparse.get_zipWith (Int.add_zero 0) e.coeffs f.coeffs s

theorem coeff_neg (e : LinearExpr) (s : Symbol) : (-e).coeff s = -e.coeff s :=
  Sparse.get_map Int.neg_zero e.coeffs s

theorem coeff_sub (e f : LinearExpr) (s : Symbol) : (e - f).coeff s = e.coeff s - f.coeff s := by
  change (e + -f).coeff s = _
  rw [coeff_add, coeff_neg, Int.sub_eq_add_neg]

theorem coeff_scale (e : LinearExpr) (k : ℤ) (s : Symbol) : (e.scale k).coeff s = e.coeff s * k :=
  Sparse.get_map (g := (· * k)) (Int.zero_mul k) e.coeffs s

theorem coeff_const (c : ℤ) (s : Symbol) : (const c).coeff s = 0 := rfl

theorem coeff_term (c : ℤ) (s t : Symbol) : (term c s).coeff t = if t = s then c else 0 := by
  rw [coeff, term, Sparse.get_set]
  rfl

theorem coeff_without (e : LinearExpr) (s t : Symbol) : (e.without s).coeff t = if t = s then 0 else e.coeff t :=
  Sparse.get_erase e.coeffs s t

theorem constant_add (e f : LinearExpr) : (e + f).constant = e.constant + f.constant := rfl

theorem constant_neg (e : LinearExpr) : (-e).constant = -e.constant := rfl

theorem value_add (e f : LinearExpr) (m : Valuation) : (e + f).value m = e.value m + f.value m := by
  let S := e.symbols.toFinset ∪ f.symbols.toFinset
  have he : ∀ s, e.coeff s ≠ 0 → s ∈ S := fun s hs => by simp [S, mem_symbols, hs]
  have hf : ∀ s, f.coeff s ≠ 0 → s ∈ S := fun s hs => by simp [S, mem_symbols, hs]
  have hadd : ∀ s, (e + f).coeff s ≠ 0 → s ∈ S := by
    intro s hs
    rw [coeff_add] at hs
    by_cases h : e.coeff s = 0
    · exact hf s (by simpa [h] using hs)
    · exact he s h
  rw [value_eq_sum hadd, value_eq_sum he, value_eq_sum hf, constant_add]
  simp only [coeff_add, Int.cast_add, add_mul, Finset.sum_add_distrib]
  ring

theorem value_neg (e : LinearExpr) (m : Valuation) : (-e).value m = -e.value m := by
  have he : ∀ s, e.coeff s ≠ 0 → s ∈ e.symbols.toFinset := fun s hs => by simp [mem_symbols, hs]
  have hneg : ∀ s, (-e).coeff s ≠ 0 → s ∈ e.symbols.toFinset := fun s hs =>
    he s (by simpa [coeff_neg] using hs)
  rw [value_eq_sum hneg, value_eq_sum he, constant_neg]
  simp only [coeff_neg, Int.cast_neg, neg_mul, Finset.sum_neg_distrib]
  ring

theorem value_sub (e f : LinearExpr) (m : Valuation) : (e - f).value m = e.value m - f.value m := by
  change (e + -f).value m = _
  rw [value_add, value_neg]
  ring

theorem value_scale (e : LinearExpr) (k : ℤ) (m : Valuation) : (e.scale k).value m = e.value m * k := by
  have he : ∀ s, e.coeff s ≠ 0 → s ∈ e.symbols.toFinset := fun s hs => by simp [mem_symbols, hs]
  have hscale : ∀ s, (e.scale k).coeff s ≠ 0 → s ∈ e.symbols.toFinset := by
    intro s hs
    rw [coeff_scale] at hs
    exact he s (left_ne_zero_of_mul hs)
  have hconst : (e.scale k).constant = e.constant * k := rfl
  rw [value_eq_sum hscale, value_eq_sum he, hconst, add_mul, Finset.sum_mul]
  push_cast
  congr 1
  refine Finset.sum_congr rfl fun s _ => ?_
  rw [coeff_scale]
  push_cast
  ring

@[simp] theorem value_const (c : ℤ) (m : Valuation) : (const c).value m = c := by
  have h : ∀ s, (const c).coeff s ≠ 0 → s ∈ (∅ : Finset Symbol) := fun s hs => absurd (coeff_const c s) hs
  rw [value_eq_sum h]
  simp [const]

theorem value_term (c : ℤ) (s : Symbol) (m : Valuation) : (term c s).value m = c * m s := by
  have h : ∀ t, (term c s).coeff t ≠ 0 → t ∈ ({s} : Finset Symbol) := by
    intro t ht
    rw [coeff_term] at ht
    by_contra hne
    exact ht (if_neg (by simpa using hne))
  have hconst : (term c s).constant = 0 := rfl
  rw [value_eq_sum h, hconst]
  simp [coeff_term]

@[simp] theorem value_var (s : Symbol) (m : Valuation) : (var s).value m = m s := by
  rw [var, value_term]
  simp

theorem addTerm_eq (e : LinearExpr) (c : ℤ) (s : Symbol) : e.addTerm c s = e + term c s := by
  refine ext_coeff (fun t => ?_) (Int.add_zero _).symm
  rw [coeff_add, coeff_term]
  have h : (e.addTerm c s).coeff t = if t = s then e.coeff s + c else e.coeff t := Sparse.get_set _ _ _ _
  rw [h]
  split
  · rename_i hts
    rw [hts]
  · rw [Int.add_zero]

theorem value_addTerm (e : LinearExpr) (c : ℤ) (s : Symbol) (m : Valuation) :
    (e.addTerm c s).value m = e.value m + c * m s := by
  rw [addTerm_eq, value_add, value_term]

theorem value_without (e : LinearExpr) (s : Symbol) (m : Valuation) :
    (e.without s).value m = e.value m - e.coeff s * m s := by
  have h : e = e.without s + term (e.coeff s) s := by
    refine ext_coeff (fun t => ?_) (Int.add_zero _).symm
    rw [coeff_add, coeff_without, coeff_term]
    split
    · rename_i hts
      rw [hts, Int.zero_add]
    · rw [Int.add_zero]
  have hv := congrArg (fun e => e.value m) h
  simp only [value_add, value_term] at hv
  linarith

/-- The value depends on the symbols of the expression only. -/
theorem value_congr {e : LinearExpr} {m m' : Valuation} (h : ∀ s, e.coeff s ≠ 0 → m s = m' s) :
    e.value m = e.value m' := by
  have he : ∀ s, e.coeff s ≠ 0 → s ∈ e.symbols.toFinset := fun s hs => by simp [mem_symbols, hs]
  rw [value_eq_sum he, value_eq_sum he]
  congr 1
  refine Finset.sum_congr rfl fun s hs => ?_
  rw [h s (mem_symbols.mp (List.mem_toFinset.mp hs))]

theorem value_update {e : LinearExpr} {s : Symbol} (hs : e.coeff s = 0) (m : Valuation) (q : ℚ) :
    e.value (Function.update m s q) = e.value m := by
  refine value_congr fun t ht => Function.update_of_ne ?_ _ _
  rintro rfl
  exact ht hs

/-- What a new value of one symbol adds. -/
theorem value_update_eq (e : LinearExpr) (m : Valuation) (s : Symbol) (q : ℚ) :
    e.value (Function.update m s q) = e.value m + e.coeff s * (q - m s) := by
  have hwithout := e.value_without s (Function.update m s q)
  rw [value_update (by rw [coeff_without, if_pos rfl]), Function.update_self, value_without] at hwithout
  linarith

theorem value_zero (e : LinearExpr) : e.value 0 = e.constant := by simp [value]

theorem mentions_iff {e : LinearExpr} {s : Symbol} : e.mentions s = true ↔ e.coeff s ≠ 0 := by
  simp [mentions]

/-- At an integral valuation the value is the integer that evaluation yields. -/
theorem value_intCast (e : LinearExpr) (m : Symbol → ℤ) : e.value (fun s => (m s : ℚ)) = (e.eval m : ℚ) := by
  unfold value eval
  generalize e.terms = ts
  induction ts with
  | nil => simp
  | cons t ts ih =>
    simp only [List.map_cons, List.sum_cons, List.foldr_cons]
    push_cast
    rw [← ih]
    ring

theorem content_dvd_coeff (e : LinearExpr) (s : Symbol) : (e.content : ℤ) ∣ e.coeff s := by
  by_cases hs : e.coeff s = 0
  · simp [hs]
  · have hcontent : e.content = Row.content (e.terms.map (·.2)) := by
      rw [content, Row.content, List.foldl_map]
    have hmem : e.coeff s ∈ e.terms.map (·.2) :=
      List.mem_map.mpr ⟨(s, e.coeff s), Sparse.mem_entries.mpr ⟨rfl, hs⟩, rfl⟩
    rw [hcontent]
    exact Int.natCast_dvd.mpr ((Row.foldl_gcd_dvd _ 0).2 _ hmem)

/-- Integral on the symbols of the expression. -/
def IntegralOn (e : LinearExpr) (m : Valuation) : Prop := ∀ s, e.coeff s ≠ 0 → ∃ k : ℤ, m s = k

theorem exists_int_value {e : LinearExpr} {m : Valuation} (hm : e.IntegralOn m) : ∃ k : ℤ, e.value m = k := by
  have hsum : ∀ ts : List (Symbol × ℤ), (∀ t ∈ ts, ∃ k : ℤ, m t.1 = k) →
      ∃ k : ℤ, (ts.map fun t => (t.2 : ℚ) * m t.1).sum = k := by
    intro ts
    induction ts with
    | nil => exact fun _ => ⟨0, by simp⟩
    | cons t ts ih =>
      intro h
      obtain ⟨k, hk⟩ := ih fun u hu => h u (by simp [hu])
      obtain ⟨l, hl⟩ := h t (by simp)
      refine ⟨t.2 * l + k, ?_⟩
      simp only [List.map_cons, List.sum_cons, hk, hl]
      push_cast
      ring
  obtain ⟨k, hk⟩ := hsum e.terms fun t ht => by
    obtain ⟨hc, hne⟩ := coeff_of_mem_terms ht
    exact hm t.1 (by rwa [hc])
  exact ⟨k + e.constant, by rw [value, hk]; push_cast; ring⟩

theorem coeff_divide (e : LinearExpr) (g : ℕ) (s : Symbol) : (e.divide g).coeff s = e.coeff s / g :=
  Sparse.get_map (g := (· / (g : ℤ))) (Int.zero_ediv _) e.coeffs s

/-- Dividing by the content divides what the symbols contribute to the value. -/
theorem value_divide (e : LinearExpr) (m : Valuation) :
    e.value m = e.content * ((e.divide e.content).value m - e.constant.fdiv e.content) + e.constant := by
  have he : ∀ s, e.coeff s ≠ 0 → s ∈ e.symbols.toFinset := fun s hs => by simp [mem_symbols, hs]
  have hdivide : ∀ s, (e.divide e.content).coeff s ≠ 0 → s ∈ e.symbols.toFinset := by
    intro s hs
    refine he s fun h => hs ?_
    rw [coeff_divide, h, Int.zero_ediv]
  have hconst : (e.divide e.content).constant = e.constant.fdiv e.content := rfl
  rw [value_eq_sum he, value_eq_sum hdivide, hconst, add_sub_cancel_right, Finset.mul_sum]
  congr 1
  refine Finset.sum_congr rfl fun s _ => ?_
  have hc : (e.content : ℚ) * (e.divide e.content).coeff s = e.coeff s := by
    rw [coeff_divide]
    exact_mod_cast Int.mul_ediv_cancel' (e.content_dvd_coeff s)
  rw [← mul_assoc, hc]

theorem IntegralOn.divide {e : LinearExpr} {m : Valuation} (hm : e.IntegralOn m) (g : ℕ) :
    (e.divide g).IntegralOn m := by
  intro s hs
  refine hm s fun h => hs ?_
  rw [coeff_divide, h, Int.zero_ediv]

end LinearExpr

/-- The comparison of a rational with zero. -/
def Comparison.HoldsAt : Comparison → ℚ → Prop
  | .ge, q => 0 ≤ q
  | .eq, q => q = 0
  | .gt, q => 0 < q

namespace LinearConstraint

def HoldsAt (c : LinearConstraint) (m : Valuation) : Prop := c.comparison.HoldsAt (c.expr.value m)

theorem holdsAt_intCast (c : LinearConstraint) (m : Symbol → ℤ) :
    c.HoldsAt (fun s => (m s : ℚ)) ↔ c.holds m = true := by
  unfold HoldsAt holds
  rw [LinearExpr.value_intCast]
  cases c.comparison <;> simp [Comparison.HoldsAt, Comparison.holds]

theorem not_holdsAt_never (m : Valuation) : ¬ never.HoldsAt m := by
  simp [HoldsAt, never, ge, Comparison.HoldsAt]

/-- Division of a non-strict constraint by its content keeps its integral solutions. -/
theorem holdsAt_reduced {e : LinearExpr} {comparison : Comparison} {m : Valuation} (hm : e.IntegralOn m)
    (hc : comparison ≠ .gt) : (reduced e comparison).HoldsAt m ↔ HoldsAt ⟨e, comparison⟩ m := by
  unfold reduced
  dsimp only
  split
  · rfl
  · rename_i hg
    have hpos : (0 : ℤ) < e.content := by omega
    obtain ⟨k, hk⟩ := LinearExpr.exists_int_value (hm.divide e.content)
    have hv := e.value_divide m
    rw [hk] at hv
    have hv' : e.value m = ((e.content * (k - e.constant.fdiv e.content) + e.constant : ℤ) : ℚ) := by
      rw [hv]
      push_cast
      ring
    have hfloor := Interval.le_fdiv (a := e.constant) (n := e.constant.fdiv e.content - k) hpos
    have hmul : (e.content : ℤ) * (e.constant.fdiv e.content - k) =
        e.content * e.constant.fdiv e.content - e.content * k := by ring
    split
    · cases comparison with
      | gt => exact absurd rfl hc
      | ge =>
        change 0 ≤ (e.divide e.content).value m ↔ 0 ≤ e.value m
        rw [hk, hv', Int.cast_nonneg_iff, Int.cast_nonneg_iff]
        constructor
        · intro h
          have := hfloor.mp (by omega)
          nlinarith
        · intro h
          have := hfloor.mpr (by nlinarith)
          omega
      | eq =>
        rename_i hmod
        have hdvd : (e.content : ℤ) ∣ e.constant := by simpa using Int.dvd_of_emod_eq_zero (by simpa using hmod)
        have hexact : (e.content : ℤ) * e.constant.fdiv e.content = e.constant := by
          rw [Int.fdiv_eq_ediv_of_nonneg _ hpos.le]
          exact Int.mul_ediv_cancel' hdvd
        change (e.divide e.content).value m = 0 ↔ e.value m = 0
        have hz : (e.content : ℤ) * (k - e.constant.fdiv e.content) + e.constant = e.content * k := by
          linear_combination -hexact
        rw [hk, hv', hz, Int.cast_eq_zero, Int.cast_eq_zero, mul_eq_zero]
        exact ⟨Or.inr, fun h => h.resolve_left hpos.ne'⟩
    · rename_i hmod
      rw [not_or] at hmod
      have heq : comparison = .eq := by
        cases comparison <;> simp_all
      subst heq
      refine iff_of_false (not_holdsAt_never m) fun h => hmod.2 ?_
      have h0 : (e.content : ℤ) * (k - e.constant.fdiv e.content) + e.constant = 0 := by
        have h' : e.value m = 0 := h
        rw [hv'] at h'
        exact_mod_cast h'
      exact Int.emod_eq_zero_of_dvd ⟨-(k - e.constant.fdiv e.content), by linarith⟩

/-- The strongest form on integers has the same integral solutions. -/
theorem holdsAt_tightened {c : LinearConstraint} {m : Valuation} (hm : c.expr.IntegralOn m) :
    c.tightened.HoldsAt m ↔ c.HoldsAt m := by
  obtain ⟨e, comparison⟩ := c
  cases comparison with
  | ge => exact holdsAt_reduced hm nofun
  | eq => exact holdsAt_reduced hm nofun
  | gt =>
    have hsub : (e - LinearExpr.const 1).IntegralOn m := by
      intro s hs
      rw [LinearExpr.coeff_sub, LinearExpr.coeff_const, Int.sub_zero] at hs
      exact hm s hs
    have hge : (LinearConstraint.reduced (e - LinearExpr.const 1) .ge).HoldsAt m ↔
        LinearConstraint.HoldsAt ⟨e - LinearExpr.const 1, .ge⟩ m := holdsAt_reduced hsub nofun
    refine hge.trans ?_
    obtain ⟨k, hk⟩ := LinearExpr.exists_int_value hm
    change 0 ≤ (e - LinearExpr.const 1).value m ↔ 0 < e.value m
    have hk' : e.value m = k := hk
    rw [LinearExpr.value_sub, LinearExpr.value_const, hk']
    norm_cast
    omega

end LinearConstraint

end PathInvariants
