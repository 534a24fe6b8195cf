import PathInvariants.Proofs.EqualitySolutions

/-!
# Ranks of affine equalities

Equations as linear functionals, with a coordinate of its own for the constant. A system implies
exactly the equations in the span of its rows, so a system that implies less than another has a
smaller rank.
-/
namespace PathInvariants

open PathInvariants.Echelon

namespace Echelon

variable {n : ℕ} {m : Echelon} {row : Row}

/-- Reduction by rows that are alone in their columns clears these columns, and keeps the vectors at which all rows
vanish. -/
theorem foldl_cancel {pairs : List (Row × ℕ)} (hlen : ∀ x ∈ pairs, x.1.length = n)
    (halone : ∀ x ∈ pairs, ∀ y ∈ pairs, x.2 ≠ y.2 → x.1.entry y.2 = 0) (hrow : row.length = n) :
    let r := pairs.foldl (fun r p => if r.entry p.2 = 0 then r else Row.cancel r.length p.2 p.1 r) row
    r.length = n ∧ (∀ x ∈ pairs, r.entry x.2 = 0) ∧
      (∀ c, row.entry c = 0 → (∀ x ∈ pairs, x.2 ≠ c → x.1.entry c = 0) → r.entry c = 0) ∧
      ∀ w, (∀ x ∈ pairs, x.1.dot n w = 0) → row.dot n w = 0 → r.dot n w = 0 := by
  induction pairs generalizing row with
  | nil => exact ⟨hrow, by simp, fun c hc _ => hc, fun w _ hw => hw⟩
  | cons x pairs ih =>
    have hx := hlen x (by simp)
    -- One step clears the column of `x` and none that was clear.
    have hstep : ∃ s : Row, (if row.entry x.2 = 0 then row else Row.cancel row.length x.2 x.1 row) = s ∧ s.length = n ∧
        s.entry x.2 = 0 ∧ (∀ c, row.entry c = 0 → (x.2 ≠ c → x.1.entry c = 0) → s.entry c = 0) ∧
        ∀ w, x.1.dot n w = 0 → row.dot n w = 0 → s.dot n w = 0 := by
      refine ⟨_, rfl, ?_⟩
      split
      · rename_i hzero
        exact ⟨hrow, hzero, fun c hc _ => hc, fun w _ hw => hw⟩
      · have hentry : ∀ i, (Row.cancel row.length x.2 x.1 row).entry i =
            x.1.entry x.2 * row.entry i - row.entry x.2 * x.1.entry i := Row.entry_cancel le_rfl (by omega)
        refine ⟨by rw [Row.length_cancel, hrow], ?_, fun c hc hcx => ?_, fun w hxw hw => ?_⟩
        · rw [hentry]
          ring
        · by_cases hxc : x.2 = c
          · rw [← hxc, hentry]
            ring
          · rw [hentry, hc, hcx hxc]
            ring
        · rw [Row.dot_cancel le_rfl (by omega), hxw, hw]
          ring
    obtain ⟨s, hs, hslen, hclear, hkeep, hdot⟩ := hstep
    obtain ⟨hrlen, hcleared, hstays, hvanish⟩ := ih (fun y hy => hlen y (by simp [hy]))
      (fun y hy z hz => halone y (by simp [hy]) z (by simp [hz])) hslen
    rw [List.foldl_cons, hs]
    refine ⟨hrlen, fun y hy => ?_, fun c hc hcols => ?_, fun w hw hroww => ?_⟩
    · rcases List.mem_cons.mp hy with rfl | hy
      · exact hstays y.2 hclear fun z hz hne => halone z (by simp [hz]) y (by simp) hne
      · exact hcleared y hy
    · exact hstays c (hkeep c hc (hcols x (by simp))) fun y hy => hcols y (by simp [hy])
    · exact hvanish w (fun y hy => hw y (by simp [hy])) (hdot w (hw x (by simp)) hroww)

/-- Pivots ascend, so the last column has one only at their end. -/
theorem Reduced.not_mem_pivots (hm : Reduced (n + 1) (n + 1) m) (h : m.pivots.getLast? ≠ some n) : n ∉ m.pivots := by
  intro hmem
  obtain ⟨before, after, hsplit⟩ := List.append_of_mem hmem
  have hnil : after = [] := by
    refine List.eq_nil_iff_forall_not_mem.mpr fun q hq => ?_
    have hlt : n < q := by
      have hinc := hm.increasing
      rw [hsplit] at hinc
      exact (List.pairwise_cons.mp (List.pairwise_append.mp hinc).2.1).1 q hq
    have hbound := hm.bounded q (by rw [hsplit]; simp [hq])
    omega
  exact h (by rw [hsplit, hnil]; simp)

/-- A row that the pivot rows do not span is non-zero at some vector at which they vanish. -/
theorem exists_dot_ne_zero (hm : Reduced n n m) (hrow : row.length = n) (hs : m.spans row = false) :
    ∃ w, Vanish n m.rows w ∧ row.dot n w ≠ 0 := by
  by_contra hall
  push Not at hall
  have hlen : ∀ x ∈ m.pivotRows, x.1.length = n := fun x hx =>
    hm.width _ (List.mem_append_left _ (mem_pivotRows hx).1)
  obtain ⟨hrlen, hpivots, -, hvanish⟩ := foldl_cancel hlen hm.alone hrow
  generalize hr : m.pivotRows.foldl (fun r p => if r.entry p.2 = 0 then r else Row.cancel r.length p.2 p.1 r) row = r
    at hrlen hpivots hvanish
  have hzero : ∀ i < n, r.entry i = 0 := by
    intro f hf
    by_cases hp : f ∈ m.pivots
    · obtain ⟨x, hx, rfl⟩ := hm.exists_pivotRow hp
      exact hpivots x hx
    · have hsol := solves_solution hm hf hp
      have hw := hsol.dot_eq_zero hm hf hp
      have hdot : r.dot n (m.solution n f).vector = 0 :=
        hvanish _ (fun x hx => hw x.1 (mem_pivotRows hx).1) (hall _ hw)
      have hsum := hsol.sum_eq hm hf hp fun i => (r.entry i : ℚ)
      rw [show ∑ i ∈ Finset.range n, (r.entry i : ℚ) * (m.solution n f).entry i = 0 from hdot,
        Finset.sum_eq_zero fun x hx => by rw [hpivots x (List.mem_toFinset.mp hx)]; simp, add_zero] at hsum
      have hfree : ((m.solution n f).entry f : ℚ) ≠ 0 := by exact_mod_cast hsol.free.ne'
      exact_mod_cast (mul_eq_zero.mp hsum.symm).resolve_right hfree
  have hspans : m.spans row = true := by
    rw [spans, hr, List.all_eq_true]
    intro a ha
    obtain ⟨i, hi, rfl⟩ := List.getElem_of_mem ha
    have hi' := hzero i (by omega)
    rw [Row.entry, List.getD_eq_getElem _ _ hi] at hi'
    simpa using hi'
  rw [hspans] at hs
  cases hs

end Echelon

namespace LinearExpr

/-- The expression as a linear functional, where the constant is multiplied with the last coordinate. -/
noncomputable def functional (e : LinearExpr) : Valuation × ℚ →ₗ[ℚ] ℚ :=
  (∑ s ∈ e.symbols.toFinset, (e.coeff s : ℚ) • (LinearMap.proj s ∘ₗ LinearMap.fst ℚ Valuation ℚ)) +
    (e.constant : ℚ) • LinearMap.snd ℚ Valuation ℚ

theorem functional_apply (e : LinearExpr) (x : Valuation × ℚ) :
    e.functional x = e.value x.1 + e.constant * (x.2 - 1) := by
  have hS : ∀ s, e.coeff s ≠ 0 → s ∈ e.symbols.toFinset := fun s hs => List.mem_toFinset.mpr (mem_symbols.mpr hs)
  rw [value_eq_sum hS, functional]
  simp only [LinearMap.add_apply, LinearMap.coe_sum, Finset.sum_apply, LinearMap.smul_apply, LinearMap.comp_apply,
    LinearMap.fst_apply, LinearMap.snd_apply, LinearMap.proj_apply, smul_eq_mul]
  ring

/-- The vector that a row over the given symbols and the constant column is multiplied with. -/
def coordinates (symbols : List Symbol) (x : Valuation × ℚ) (i : ℕ) : ℚ := (symbols.map x.1).getD i x.2

theorem dot_coordinates (symbols : List Symbol) (row : Row) (x : Valuation × ℚ) :
    row.dot (symbols.length + 1) (coordinates symbols x) =
      row.dot (symbols.length + 1) (weights symbols x.1) + row.entry symbols.length * (x.2 - 1) := by
  have hsame : ∀ i ∈ Finset.range symbols.length,
      (row.entry i : ℚ) * coordinates symbols x i = row.entry i * weights symbols x.1 i := by
    intro i hi
    have hi : i < symbols.length := Finset.mem_range.mp hi
    rw [weights_of_lt hi]
    simp [coordinates, List.getElem?_eq_getElem hi]
  have hlast : coordinates symbols x symbols.length = x.2 := by simp [coordinates]
  have hone : weights symbols x.1 symbols.length = 1 := by simp [weights]
  rw [Row.dot, Row.dot, Finset.sum_range_succ, Finset.sum_range_succ, Finset.sum_congr rfl hsame, hlast, hone]
  ring

theorem functional_toRow {e : LinearExpr} {symbols : List Symbol} (hn : symbols.Nodup)
    (hs : ∀ s, e.coeff s ≠ 0 → s ∈ symbols) (x : Valuation × ℚ) :
    (e.toRow symbols).dot (symbols.length + 1) (coordinates symbols x) = e.functional x := by
  have hentry : (e.toRow symbols).entry symbols.length = e.constant := by simp [toRow, Row.entry]
  rw [dot_coordinates, value_toRow hn hs, functional_apply, hentry]

theorem constant_ofRow (row : Row) (symbols : List Symbol) :
    (ofRow row symbols).constant = row.entry symbols.length := by
  have hfold : ∀ (ts : List (Symbol × ℤ)) (e : LinearExpr),
      (ts.foldl (fun e t => e.addTerm t.2 t.1) e).constant = e.constant := by
    intro ts
    induction ts with
    | nil => exact fun _ => rfl
    | cons t ts ih => exact fun e => (ih _).trans rfl
  exact hfold _ _

theorem functional_ofRow (row : Row) (symbols : List Symbol) (x : Valuation × ℚ) :
    (ofRow row symbols).functional x = row.dot (symbols.length + 1) (coordinates symbols x) := by
  rw [functional_apply, value_ofRow, constant_ofRow, dot_coordinates]

/-- Every vector comes from a point. -/
theorem exists_coordinates {symbols : List Symbol} (hn : symbols.Nodup) (w : ℕ → ℚ) :
    ∃ x, ∀ row : Row, row.dot (symbols.length + 1) (coordinates symbols x) = row.dot (symbols.length + 1) w := by
  refine ⟨(fun s => w (symbols.idxOf s), w symbols.length), fun row => Finset.sum_congr rfl fun i hi => ?_⟩
  congr 1
  rcases Nat.lt_succ_iff_lt_or_eq.mp (Finset.mem_range.mp hi) with hlt | rfl
  · simp [coordinates, List.getElem?_eq_getElem hlt, hn.idxOf_getElem]
  · simp [coordinates]

end LinearExpr

namespace Equalities

/-- Every equation holds at the point. -/
def VanishAt (q : Equalities) (x : Valuation × ℚ) : Prop := ∀ e ∈ q.rows, e.functional x = 0

variable {p q : Equalities} {rows : List LinearExpr} {order : List Symbol} {e : LinearExpr} {x : Valuation × ℚ}

theorem vanishAt_map_toRow (hn : order.Nodup) (hs : ∀ e ∈ rows, ∀ s, e.coeff s ≠ 0 → s ∈ order)
    (x : Valuation × ℚ) : Vanish (order.length + 1) (rows.map (·.toRow order)) (LinearExpr.coordinates order x) ↔
      VanishAt ⟨rows⟩ x := by
  simp only [Vanish, VanishAt, List.forall_mem_map]
  refine forall₂_congr fun e he => ?_
  rw [LinearExpr.functional_toRow hn (hs e he)]

/-- An equation between constants leaves no point but those at infinity. -/
theorem VanishAt.snd_eq_zero (hx : q.VanishAt x) (h : q.isUnsatisfiable = true) : x.2 = 0 := by
  obtain ⟨rows⟩ := q
  match rows, h with
  | [e], h =>
    simp only [isUnsatisfiable, Bool.and_eq_true, bne_iff_ne, LinearExpr.isConstant, List.isEmpty_iff] at h
    have hzero := hx e (by simp)
    rw [LinearExpr.functional_apply, LinearExpr.value, LinearExpr.terms, h.1] at hzero
    simp only [List.map_nil, List.sum_nil, zero_add] at hzero
    have hprod : (e.constant : ℚ) * x.2 = 0 := by linarith
    exact (mul_eq_zero.mp hprod).resolve_left fun hc => h.2 (by exact_mod_cast hc)

/-- A system found satisfiable vanishes exactly where its equations do. -/
theorem vanishAt_ofRows (h : (ofRows rows).isUnsatisfiable = false) (x : Valuation × ℚ) :
    (ofRows rows).VanishAt x ↔ VanishAt ⟨rows⟩ x := by
  rw [← vanishAt_map_toRow (nodup_symbolsOf rows) (fun _ he _ hs => mem_symbolsOf he hs),
    ← vanish_ofRows length_of_mem_map_toRow]
  unfold ofRows eliminate at h ⊢
  dsimp only at h ⊢
  split at h
  · cases h
  · rename_i hp
    rw [if_neg hp]
    simp only [VanishAt, Vanish, List.forall_mem_map, LinearExpr.functional_ofRow]

theorem vanishAt_extend {equations : List LinearExpr} (h : (q.extend equations).isUnsatisfiable = false)
    (x : Valuation × ℚ) : (q.extend equations).VanishAt x ↔ q.VanishAt x ∧ ∀ e ∈ equations, e.functional x = 0 := by
  rw [extend, vanishAt_ofRows h]
  simp only [VanishAt, List.forall_mem_append]

theorem vanishAt_join (hp : p.isUnsatisfiable = false) (hq : q.isUnsatisfiable = false)
    (hj : (p.join q).isUnsatisfiable = false) (h : p.VanishAt x ∨ q.VanishAt x) : (p.join q).VanishAt x := by
  unfold join at hj ⊢
  simp only [hp, hq, Bool.false_eq_true, if_false] at hj ⊢
  let symbols := symbolsOf (p.rows ++ q.rows)
  have hn : symbols.Nodup := nodup_symbolsOf _
  have hps : ∀ e ∈ p.rows, ∀ s, e.coeff s ≠ 0 → s ∈ symbols := fun e he s hs =>
    mem_symbolsOf (List.mem_append_left _ he) hs
  have hqs : ∀ e ∈ q.rows, ∀ s, e.coeff s ≠ 0 → s ∈ symbols := fun e he s hs =>
    mem_symbolsOf (List.mem_append_right _ he) hs
  have hv := RowSpace.vanish_intersect length_of_mem_map_toRow length_of_mem_map_toRow
    (h.imp (vanishAt_map_toRow hn hps x).mpr (vanishAt_map_toRow hn hqs x).mpr)
  refine (vanishAt_ofRows hj x).mpr fun e he => ?_
  obtain ⟨row, hrow, rfl⟩ := List.mem_map.mp he
  rw [LinearExpr.functional_ofRow]
  exact hv row hrow

/-- An equation that does not follow fails at a point where the system vanishes. -/
theorem exists_of_not_implies (h : q.implies e = false) :
    q.isUnsatisfiable = false ∧ ∃ x, q.VanishAt x ∧ e.functional x ≠ 0 := by
  unfold implies at h
  split at h
  · cases h
  · rename_i hq
    refine ⟨by simpa using hq, ?_⟩
    let symbols := symbolsOf (q.rows ++ [e])
    have hn : symbols.Nodup := nodup_symbolsOf _
    have hqs : ∀ f ∈ q.rows, ∀ s, f.coeff s ≠ 0 → s ∈ symbols := fun f hf s hs =>
      mem_symbolsOf (List.mem_append_left _ hf) hs
    have hes : ∀ s, e.coeff s ≠ 0 → s ∈ symbols := fun s hs => mem_symbolsOf (by simp) hs
    obtain ⟨w, hw, hne⟩ := exists_dot_ne_zero (reduced_ofRows length_of_mem_map_toRow) (LinearExpr.length_toRow e symbols) h
    obtain ⟨x, hx⟩ := LinearExpr.exists_coordinates hn w
    refine ⟨x, ?_, ?_⟩
    · rw [← vanishAt_map_toRow hn hqs]
      intro row hrow
      rw [hx]
      exact (vanish_ofRows length_of_mem_map_toRow w).mp hw row hrow
    · rw [← LinearExpr.functional_toRow hn hes, hx]
      exact hne

/-- A system found satisfiable has a solution. -/
theorem exists_vanishAt (h : (ofRows rows).isUnsatisfiable = false) : ∃ x, (ofRows rows).VanishAt x ∧ x.2 ≠ 0 := by
  let order := symbolsOf rows
  let m := Echelon.ofRows (rows.map (·.toRow order)) (order.length + 1)
  have hm : Reduced (order.length + 1) (order.length + 1) m := reduced_ofRows length_of_mem_map_toRow
  have hlast : m.pivots.getLast? ≠ some order.length := by
    intro hp
    have hu : ofRows rows = unsatisfiable := if_pos hp
    rw [hu] at h
    cases h
  have hfree : order.length ∉ m.pivots := hm.not_mem_pivots hlast
  have hlt : order.length < order.length + 1 := Nat.lt_succ_self _
  have hsol := solves_solution hm hlt hfree
  obtain ⟨x, hx⟩ := LinearExpr.exists_coordinates (nodup_symbolsOf rows) (m.solution (order.length + 1) order.length).vector
  refine ⟨x, ?_, ?_⟩
  · rw [vanishAt_ofRows h, ← vanishAt_map_toRow (nodup_symbolsOf rows) fun _ he _ hs => mem_symbolsOf he hs]
    intro row hrow
    rw [hx]
    exact (vanish_ofRows length_of_mem_map_toRow _).mp (hsol.dot_eq_zero hm hlt hfree) row hrow
  · -- The row of the constant one picks out the last coordinate.
    have hone := hx ((LinearExpr.const 1).toRow order)
    have hconst : (LinearExpr.const 1).functional x = x.2 := by
      rw [LinearExpr.functional_apply, LinearExpr.value_const]
      simp [LinearExpr.const]
    rw [LinearExpr.functional_toRow (nodup_symbolsOf rows) (fun s hs => absurd (LinearExpr.coeff_const 1 s) hs), hconst] at hone
    rw [hone, Row.dot, Finset.sum_range_succ, Finset.sum_eq_zero fun i hi => ?_]
    · have hpos := hsol.free
      have hentry : ((LinearExpr.const 1).toRow order).entry order.length = 1 := by
        simp [LinearExpr.toRow, Row.entry, LinearExpr.const]
      rw [hentry, Row.vector]
      simp only [Int.cast_one, one_mul, zero_add]
      exact_mod_cast hpos.ne'
    · have hi : i < order.length := Finset.mem_range.mp hi
      have hentry : ((LinearExpr.const 1).toRow order).entry i = 0 := by
        simp [LinearExpr.toRow, Row.entry, List.getElem?_append_left, hi, LinearExpr.coeff_const]
      rw [hentry]
      simp

/-- The functionals that the rows span. -/
noncomputable def rowSpan (q : Equalities) : Submodule ℚ (Valuation × ℚ →ₗ[ℚ] ℚ) :=
  .span ℚ (Set.range fun i : Fin q.rows.length => (q.rows.get i).functional)

theorem mem_rowSpan {f : Valuation × ℚ →ₗ[ℚ] ℚ} : f ∈ q.rowSpan ↔ ∀ x, q.VanishAt x → f x = 0 := by
  constructor
  · intro hf x hx
    have hle : q.rowSpan ≤ LinearMap.ker (LinearMap.applyₗ x : (Valuation × ℚ →ₗ[ℚ] ℚ) →ₗ[ℚ] ℚ) := by
      refine Submodule.span_le.mpr ?_
      rintro - ⟨i, rfl⟩
      exact hx _ (List.get_mem _ i)
    exact hle hf
  · intro h
    refine mem_span_of_iInf_ker_le_ker fun x hx => h x fun e he => ?_
    obtain ⟨i, hi⟩ := List.mem_iff_get.mp he
    rw [← hi]
    exact (Submodule.mem_iInf _).mp hx i

/-- The number of independent equations. -/
noncomputable def rank (q : Equalities) : ℕ := Module.finrank ℚ q.rowSpan

/-- A system whose equations follow from another has no larger rank. -/
theorem rank_le_rank (hle : ∀ x, q.VanishAt x → p.VanishAt x) : p.rank ≤ q.rank := by
  have hfinite : FiniteDimensional ℚ q.rowSpan := FiniteDimensional.span_of_finite ℚ (Set.finite_range _)
  exact Submodule.finrank_mono fun f hf => mem_rowSpan.mpr fun y hy => mem_rowSpan.mp hf y (hle y hy)

/-- A system whose equations follow from another but not the other way round has a smaller rank. -/
theorem rank_lt_rank (hle : ∀ x, q.VanishAt x → p.VanishAt x) (he : ∀ x, q.VanishAt x → e.functional x = 0)
    (hx : p.VanishAt x) (hne : e.functional x ≠ 0) : p.rank < q.rank := by
  have hfinite : FiniteDimensional ℚ q.rowSpan := FiniteDimensional.span_of_finite ℚ (Set.finite_range _)
  refine Submodule.finrank_lt_finrank_of_lt (lt_of_le_of_ne (fun f hf => ?_) fun heq => ?_)
  · exact mem_rowSpan.mpr fun y hy => mem_rowSpan.mp hf y (hle y hy)
  · have hmem : e.functional ∈ p.rowSpan := heq ▸ mem_rowSpan.mpr he
    exact hne (mem_rowSpan.mp hmem x hx)

end Equalities

end PathInvariants
