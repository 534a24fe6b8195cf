import PathInvariants.Proofs.CanonicalEqualities
import PathInvariants.Proofs.Concretizations

/-!
# Entailment of linear constraints

A value is asked whether it implies a constraint. The answer may come from the rows, from the range of the
expression or from the range of its reduced form. The rows of a canonical system are solved for their
leading symbols: the leading coefficients are positive and no leading symbol stands in another row. So
reduction multiplies by positive numbers only, and a symbol that it has cleared stays cleared.
-/
namespace PathInvariants

open PathInvariants.Echelon

namespace LinearExpr

variable {e : LinearExpr} {s t : Symbol}

/-- The first symbol of an expression. -/
def leading? (e : LinearExpr) : Option Symbol := e.terms.head?.map (·.1)

theorem terms_of_leading (h : e.leading? = some s) : ∃ ts, e.terms = (s, e.coeff s) :: ts := by
  obtain ⟨⟨t, a⟩, hhead, rfl⟩ := Option.map_eq_some_iff.mp h
  obtain ⟨ts, hts⟩ := List.head?_eq_some_iff.mp hhead
  have ha : e.coeff t = a := (coeff_of_mem_terms (by rw [hts]; exact List.mem_cons_self)).1
  exact ⟨ts, by rw [hts, ha]⟩

/-- No symbol of the expression stands before the leading one. -/
theorem leading_le (h : e.leading? = some s) (ht : e.coeff t ≠ 0) : s = t ∨ s < t := by
  obtain ⟨ts, hts⟩ := terms_of_leading h
  have hmem : (t, e.coeff t) ∈ e.terms := Sparse.mem_entries.mpr ⟨rfl, ht⟩
  have hascending := e.coeffs.ascending
  rw [show e.coeffs.entries = _ from hts] at hascending
  rw [hts] at hmem
  rcases List.mem_cons.mp hmem with heq | hmem
  · exact .inl (congrArg Prod.fst heq).symm
  · exact .inr ((List.pairwise_cons.mp hascending).1 _ hmem)

theorem coeff_ne_zero_of_leading (h : e.leading? = some s) : e.coeff s ≠ 0 := by
  obtain ⟨ts, hts⟩ := terms_of_leading h
  exact (coeff_of_mem_terms (t := (s, e.coeff s)) (by rw [hts]; exact List.mem_cons_self)).2

end LinearExpr

theorem Comparison.holdsAt_mul {comparison : Comparison} {k q : ℚ} (hk : 0 < k) :
    comparison.HoldsAt (k * q) ↔ comparison.HoldsAt q := by
  cases comparison with
  | ge => exact mul_nonneg_iff_of_pos_left hk
  | eq => exact mul_eq_zero_iff_left hk.ne'
  | gt => exact mul_pos_iff_of_pos_left hk

namespace Equalities

variable {q : Equalities} {row row' e : LinearExpr} {rows : List LinearExpr} {s : Symbol}

/-- Every row is solved for its leading symbol. -/
structure Solved (q : Equalities) : Prop where
  positive : ∀ row ∈ q.rows, ∀ s, row.leading? = some s → 0 < row.coeff s
  alone : ∀ row ∈ q.rows, ∀ s, row.leading? = some s → ∀ row' ∈ q.rows, row'.coeff s ≠ 0 → row' = row

theorem solved_unsatisfiable : unsatisfiable.Solved := by
  have hnone : ∀ row ∈ unsatisfiable.rows, ∀ s, row.leading? ≠ some s := by
    intro row hrow s
    rw [List.mem_singleton.mp hrow]
    exact Option.some_ne_none s ∘ Eq.symm
  exact ⟨fun row hrow s hs => absurd hs (hnone row hrow s), fun row hrow s hs => absurd hs (hnone row hrow s)⟩

/-- The pivots of a system that is not contradictory are columns of symbols. -/
theorem pivot_lt {n : ℕ} {m : Echelon} (hm : Reduced (n + 1) (n + 1) m) (hp : ¬ m.pivots.getLast? = some n) {x : Row × ℕ}
    (hx : x ∈ m.pivotRows) : x.2 < n := by
  have hpivot := (mem_pivotRows hx).2
  have hbound := hm.bounded _ hpivot
  have hne : x.2 ≠ n := fun heq => hm.not_mem_pivots hp (heq ▸ hpivot)
  omega

/-- The pivot of a row of an elimination is the leading symbol of its equation. -/
theorem pivot_of_leading {n : ℕ} {m : Echelon} {order : List Symbol} (hm : Reduced n n m)
    (hsorted : order.Pairwise (· < ·)) {x : Row × ℕ} (hx : x ∈ m.pivotRows) (hlt : x.2 < order.length)
    (hs : (LinearExpr.ofRow x.1 order).leading? = some s) : s = order[x.2] := by
  have hn : order.Nodup := hsorted.imp fun h => String.ne_of_lt h
  have hcoeff := LinearExpr.coeff_ne_zero_of_leading hs
  have hmem : s ∈ order := by
    by_contra hfree
    exact hcoeff (LinearExpr.coeff_ofRow hfree)
  obtain ⟨j, hj, rfl⟩ := List.getElem_of_mem hmem
  rw [LinearExpr.coeff_ofRow_getElem hn x.1 hj] at hcoeff
  have hpivot : (LinearExpr.ofRow x.1 order).coeff order[x.2] ≠ 0 := by
    rw [LinearExpr.coeff_ofRow_getElem hn x.1 hlt]
    exact (hm.positive x hx).ne'
  -- The columns before the pivot are zero, and the leading symbol is the first with an entry.
  rcases Nat.lt_trichotomy j x.2 with hbefore | heq | hafter
  · exact absurd (hm.leading x hx j hbefore) hcoeff
  · simp only [heq]
  · refine (LinearExpr.leading_le hs hpivot).resolve_right fun hless => ?_
    exact String.lt_irrefl _ (String.lt_trans hless (List.pairwise_iff_getElem.mp hsorted _ _ hlt hj hafter))

theorem Canonical.solved (hq : q.Canonical) : q.Solved := by
  obtain ⟨rows, rfl⟩ := hq
  let order := symbolsOf rows
  let m := Echelon.ofRows (rows.map (·.toRow order)) (order.length + 1)
  have hm : Reduced (order.length + 1) (order.length + 1) m := reduced_ofRows length_of_mem_map_toRow
  by_cases hp : m.pivots.getLast? = some order.length
  · rw [show ofRows rows = unsatisfiable from if_pos hp]
    exact solved_unsatisfiable
  · have hsorted : order.Pairwise (· < ·) := Symbol.pairwise_sort _
    have hpivots : ∀ x ∈ m.pivotRows, x.2 < order.length := fun x hx => pivot_lt hm hp hx
    rw [show ofRows rows = ⟨m.rows.map (LinearExpr.ofRow · order)⟩ from if_neg hp]
    constructor
    · intro row hrow s hs
      obtain ⟨r, hr, rfl⟩ := List.mem_map.mp hrow
      obtain ⟨x, hx, rfl⟩ := hm.mem_rows_iff.mp hr
      obtain rfl := pivot_of_leading hm hsorted hx (hpivots x hx) hs
      rw [LinearExpr.coeff_ofRow_getElem (nodup_symbolsOf rows) _ (hpivots x hx)]
      exact hm.positive x hx
    · intro row hrow s hs row' hrow' hs'
      obtain ⟨r, hr, rfl⟩ := List.mem_map.mp hrow
      obtain ⟨r', hr', rfl⟩ := List.mem_map.mp hrow'
      obtain ⟨x, hx, rfl⟩ := hm.mem_rows_iff.mp hr
      obtain ⟨y, hy, rfl⟩ := hm.mem_rows_iff.mp hr'
      obtain rfl := pivot_of_leading hm hsorted hx (hpivots x hx) hs
      rw [LinearExpr.coeff_ofRow_getElem (nodup_symbolsOf rows) _ (hpivots x hx)] at hs'
      have hsame : y.2 = x.2 := by
        by_contra hne
        exact hs' (hm.alone y hy x hx hne)
      rw [hm.pivotRows_inj hy hx hsame]

section Reduction

theorem reduce_cons (row : LinearExpr) (rows : List LinearExpr) (e : LinearExpr) :
    reduce ⟨row :: rows⟩ e = reduce ⟨rows⟩ (reduce ⟨[row]⟩ e) := rfl

/-- One row clears its leading symbol. -/
theorem reduce_row (h : row.leading? = some s) (e : LinearExpr) :
    reduce ⟨[row]⟩ e = if e.mentions s then e.scale (row.coeff s) - row.scale (e.coeff s) else e := by
  obtain ⟨ts, hts⟩ := LinearExpr.terms_of_leading h
  simp only [reduce, List.foldl_cons, List.foldl_nil, hts]

theorem reduce_row_of_none (h : row.leading? = none) (e : LinearExpr) : reduce ⟨[row]⟩ e = e := by
  have hnil : row.terms = [] := List.head?_eq_none_iff.mp (Option.map_eq_none_iff.mp h)
  simp only [reduce, List.foldl_cons, List.foldl_nil, hnil]

theorem exists_reduce_row (hpos : ∀ s, row.leading? = some s → 0 < row.coeff s) (e : LinearExpr) :
    ∃ k : ℤ, 0 < k ∧ ∀ m, row.value m = 0 → (reduce ⟨[row]⟩ e).value m = k * e.value m := by
  cases hs : row.leading? with
  | none => exact ⟨1, one_pos, fun m _ => by rw [reduce_row_of_none hs, Int.cast_one, one_mul]⟩
  | some s =>
    rw [reduce_row hs]
    split
    · refine ⟨row.coeff s, hpos s hs, fun m hm => ?_⟩
      rw [LinearExpr.value_sub, LinearExpr.value_scale, LinearExpr.value_scale, hm, zero_mul, sub_zero, mul_comm]
    · exact ⟨1, one_pos, fun m _ => by rw [Int.cast_one, one_mul]⟩

/-- At the solutions, the reduced form is a positive multiple of the expression. -/
theorem exists_reduce_value (hpos : ∀ row ∈ rows, ∀ s, row.leading? = some s → 0 < row.coeff s) (e : LinearExpr) :
    ∃ k : ℤ, 0 < k ∧ ∀ m, SolvedBy ⟨rows⟩ m → (reduce ⟨rows⟩ e).value m = k * e.value m := by
  induction rows generalizing e with
  | nil => exact ⟨1, one_pos, fun m _ => by rw [Int.cast_one, one_mul]; rfl⟩
  | cons row rows ih =>
    obtain ⟨k, hk, hrow⟩ := exists_reduce_row (hpos row (by simp)) e
    obtain ⟨l, hl, hrows⟩ := ih (fun x hx => hpos x (by simp [hx])) (reduce ⟨[row]⟩ e)
    refine ⟨l * k, mul_pos hl hk, fun m hm => ?_⟩
    obtain ⟨hhead, htail⟩ := List.forall_mem_cons.mp hm
    rw [reduce_cons, hrows m htail, hrow m hhead]
    push_cast
    ring

/-- A row brings no symbol back that leads another row. -/
theorem coeff_reduce_row (hs : row'.coeff s = 0 ∨ row'.leading? = some s) (he : e.coeff s = 0) :
    (reduce ⟨[row']⟩ e).coeff s = 0 := by
  cases ht : row'.leading? with
  | none => rwa [reduce_row_of_none ht]
  | some t =>
    rw [reduce_row ht]
    split
    · rename_i hmentions
      have hzero : row'.coeff s = 0 := by
        refine hs.resolve_right fun hlead => LinearExpr.mentions_iff.mp hmentions ?_
        rw [ht] at hlead
        rw [Option.some.inj hlead, he]
      rw [LinearExpr.coeff_sub, LinearExpr.coeff_scale, LinearExpr.coeff_scale, he, hzero, zero_mul, zero_mul, sub_zero]
    · exact he

theorem coeff_reduce_leading (h : row.leading? = some s) (e : LinearExpr) : (reduce ⟨[row]⟩ e).coeff s = 0 := by
  rw [reduce_row h]
  split
  · rw [LinearExpr.coeff_sub, LinearExpr.coeff_scale, LinearExpr.coeff_scale]
    ring
  · rename_i hfree
    simpa [LinearExpr.mentions] using hfree

/-- A symbol that one row leads, and that is in no other, is not in the reduced form once that row is done. -/
theorem coeff_reduce (h : ∀ row ∈ rows, row.coeff s = 0 ∨ row.leading? = some s)
    (hs : e.coeff s = 0 ∨ ∃ row ∈ rows, row.leading? = some s) : (reduce ⟨rows⟩ e).coeff s = 0 := by
  induction rows generalizing e with
  | nil => exact hs.resolve_right (by simp)
  | cons row rows ih =>
    rw [reduce_cons]
    obtain ⟨hrow, hrows⟩ := List.forall_mem_cons.mp h
    refine ih hrows ?_
    rcases hs with he | ⟨row', hmem, hlead⟩
    · exact .inl (coeff_reduce_row hrow he)
    · rcases List.mem_cons.mp hmem with rfl | hmem
      · exact .inl (coeff_reduce_leading hlead e)
      · exact .inr ⟨row', hmem, hlead⟩

theorem Solved.coeff_reduce (hq : q.Solved) (hrow : row ∈ q.rows) (hs : row.leading? = some s) (e : LinearExpr) :
    (q.reduce e).coeff s = 0 := by
  refine Equalities.coeff_reduce (fun row' hrow' => ?_) (.inr ⟨row, hrow, hs⟩)
  by_cases hzero : row'.coeff s = 0
  · exact .inl hzero
  · rw [hq.alone row hrow s hs row' hrow' hzero]
    exact .inr hs

end Reduction

end Equalities

namespace Value

variable {v : Value} {c : LinearConstraint} {m : Valuation}

theorem holdsAt_of_decides {comparison : Comparison} {i : Interval} {q : ℚ} (h : decides comparison i = true)
    (hq : i.Admits q) : comparison.HoldsAt q := by
  cases comparison with
  | ge =>
    obtain ⟨lo, hlo, hpos⟩ := (Option.any_eq_true _ _).mp h
    have hzero : (0 : ℚ) ≤ lo := by exact_mod_cast of_decide_eq_true hpos
    exact hzero.trans (Interval.lo_le hlo hq)
  | gt =>
    obtain ⟨lo, hlo, hpos⟩ := (Option.any_eq_true _ _).mp h
    have hzero : (0 : ℚ) < lo := by exact_mod_cast of_decide_eq_true hpos
    exact hzero.trans_le (Interval.lo_le hlo hq)
  | eq =>
    have hsingleton : i.singleton? = some 0 := by simpa [decides] using h
    exact (Interval.eq_of_singleton hsingleton hq).trans Int.cast_zero

/-- On tracked symbols the strongest form of a constraint means the same. -/
theorem holdsAt_of_sharpen (hc : ∀ s, c.expr.coeff s ≠ 0 → v.env.contains s = true) (hm : m ∈ v.concretization)
    (h : (v.sharpen c).HoldsAt m) : c.HoldsAt m := by
  unfold sharpen at h
  split at h
  · rename_i hall
    refine (LinearConstraint.holdsAt_tightened fun s hs => ?_).mp h
    exact exists_int_of_mem_concretization hm (hc s hs) (List.all_eq_true.mp hall s (LinearExpr.mem_symbols.mpr hs))
  · exact h

theorem holdsAt_of_satisfies (hv : v.eqs.Canonical) (hc : ∀ s, c.expr.coeff s ≠ 0 → v.env.contains s = true)
    (h : v.satisfies c = true) (hm : m ∈ v.concretization) : c.HoldsAt m := by
  have hbox := hm.2.1
  have heqs := (solvedBy_allEqualities hbox).mpr hm.2.2
  refine holdsAt_of_sharpen hc hm ?_
  rw [satisfies, if_neg (Bool.eq_false_iff.mp (isBottom_eq_false.mpr (Box.ne_bottom hbox)))] at h
  dsimp only at h
  rw [Bool.or_eq_true, Bool.or_eq_true, Bool.and_eq_true, beq_iff_eq] at h
  rcases h with (⟨heq, himplies⟩ | hrange) | hreduced
  · rw [LinearConstraint.HoldsAt, heq]
    exact Equalities.value_of_implies himplies heqs
  · exact holdsAt_of_decides hrange (Box.admits_rangeOf hbox _)
  · obtain ⟨k, hk, hvalue⟩ := Equalities.exists_reduce_value (canonical_allEqualities hv).solved.positive
      (v.sharpen c).expr
    have hholds := holdsAt_of_decides hreduced (Box.admits_rangeOf hbox _)
    rwa [hvalue m heqs, Comparison.holdsAt_mul (by exact_mod_cast hk)] at hholds

/-- A constraint that a value is seen to imply holds at every valuation that it describes. The reduced form of an
expression is, at the solutions, a positive multiple of it, without the leading symbol of any row. -/
theorem satisfies_entails (hv : v.Composed) (hc : ∀ s, c.expr.coeff s ≠ 0 → v.env.contains s = true) :
    (v.satisfies c = true → ∀ m ∈ v.concretization, c.HoldsAt m) ∧
      ∀ q : Equalities, q.Built → ∀ e, ∃ k : ℤ, 0 < k ∧ (∀ m, q.SolvedBy m → (q.reduce e).value m = k * e.value m) ∧
        ∀ row ∈ q.rows, ∀ s, row.leading? = some s → (q.reduce e).coeff s = 0 := by
  refine ⟨fun h m hm => holdsAt_of_satisfies hv.canonical hc h hm, fun q hq e => ?_⟩
  have hsolved := hq.canonical.solved
  obtain ⟨k, hk, hvalue⟩ := Equalities.exists_reduce_value hsolved.positive e
  exact ⟨k, hk, hvalue, fun row hrow s hs => hsolved.coeff_reduce hrow hs e⟩

/-- Over a real and an integer, with `x = 2 r + 1` and `x ≥ 1`: the range of `2 x - 4 r - 1` says nothing, but its
reduced form is positive. The valuation with one half for `r` and two for `x` is one of those described. -/
theorem satisfies_entails_half :
    let v := ((top .intervalEqualities mixedEnv).constrain (.eq (.var "x" - .term 2 "r" - .const 1))).constrain
      (.ge (.term 3 "x" - .const 1))
    let c := LinearConstraint.ge (.term 2 "x" - .term 4 "r" - .const 1)
    let m : Valuation := fun s => if s = "r" then 1 / 2 else 2
    let line := Equalities.empty.add (.var "x" - .term 2 "r" - .const 1)
    v.Composed ∧ decides .ge (v.box.rangeOf c.expr) = false ∧ v.satisfies c = true ∧ m ∈ v.concretization ∧ c.HoldsAt m ∧
      line.Built ∧ (line.reduce c.expr).coeff "r" = 0 ∧
        ∃ k : ℤ, 0 < k ∧ ∀ m, line.SolvedBy m → (line.reduce c.expr).value m = k * c.expr.value m := by
  intro v c m line
  have hv : v.Composed := .constrain (.constrain (.top _ _) _) _
  have hc : ∀ s, c.expr.coeff s ≠ 0 → v.env.contains s = true := by
    intro s hs
    have hmem : s ∈ ["r", "x"] := by
      have hsymbols : c.expr.symbols = ["r", "x"] := by decide +kernel
      rw [← hsymbols]
      exact LinearExpr.mem_symbols.mpr hs
    have hall : ["r", "x"].all v.env.contains = true := by decide +kernel
    exact List.all_eq_true.mp hall s hmem
  have hm : m ∈ v.concretization := by
    have hint : ∀ env : Environment, env.kindOf "r" = some .real → env.IntegralAt m := by
      intro env hr s hs
      have hne : s ≠ "r" := by
        rintro rfl
        exact hs hr
      exact ⟨2, by simp [m, hne]⟩
    have hr : m "r" = 1 / 2 := if_pos rfl
    have hx : m "x" = 2 := if_neg (by decide)
    have htop : (top .intervalEqualities mixedEnv).Allows m := ⟨Box.admits_top m, fun _ => Equalities.solvedBy_empty m⟩
    have hline := allows_constrain (c := .eq (.var "x" - .term 2 "r" - .const 1)) (hint _ (by decide +kernel)) (by
      norm_num [hr, hx, LinearConstraint.HoldsAt, LinearConstraint.eq, Comparison.HoldsAt, LinearExpr.value_sub,
        LinearExpr.value_term]) htop
    have hallows : v.Allows m := allows_constrain (hint _ (by decide +kernel)) (by
      norm_num [hr, hx, LinearConstraint.HoldsAt, LinearConstraint.ge, Comparison.HoldsAt, LinearExpr.value_sub,
        LinearExpr.value_term]) hline
    refine ⟨fun s hs => hint v.env (by decide +kernel) s ?_, hallows.1, hallows.2 (by decide +kernel)⟩
    rw [hs]
    decide
  have hsatisfies : v.satisfies c = true := by decide +kernel
  have hline : line.Built := .add .empty _
  obtain ⟨k, hk, hvalue, hfree⟩ := (satisfies_entails hv hc).2 line hline c.expr
  have hrow : LinearExpr.term 2 "r" - .var "x" + .const 1 ∈ line.rows := by decide +kernel
  exact ⟨hv, by decide +kernel, hsatisfies, hm, (satisfies_entails hv hc).1 hsatisfies m hm, hline,
    hfree _ hrow "r" (by decide +kernel), k, hk, hvalue⟩

end Value

end PathInvariants
