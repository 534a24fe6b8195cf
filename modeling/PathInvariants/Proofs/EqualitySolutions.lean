import PathInvariants.Equalities
import PathInvariants.Proofs.LinearValues
import PathInvariants.Proofs.NullSpace

/-!
# Solutions of affine equalities

Systems of equations at rational valuations. Elimination, extension and meet keep the solutions; the
join keeps those of both sides, and projection and substitution follow havocs and assignments.
-/
namespace PathInvariants

open PathInvariants.Echelon

namespace LinearExpr

/-- The vector that a row over the given symbols and the constant column is multiplied with. -/
def weights (symbols : List Symbol) (m : Valuation) (i : ℕ) : ℚ := (symbols.map m).getD i 1

theorem weights_of_lt {symbols : List Symbol} {i : ℕ} (hi : i < symbols.length) (m : Valuation) :
    weights symbols m i = m symbols[i] := by
  simp [weights, List.getElem?_eq_getElem hi]

theorem dot_weights (symbols : List Symbol) (row : Row) (m : Valuation) :
    row.dot (symbols.length + 1) (weights symbols m) =
      ((symbols.zip row).map fun t => (t.2 : ℚ) * m t.1).sum + row.entry symbols.length := by
  induction symbols generalizing row with
  | nil => simp [Row.dot, weights]
  | cons s ss ih =>
    cases row with
    | nil => simp [Row.dot, Row.entry]
    | cons x xs =>
      have hsucc : ∀ i, weights (s :: ss) m (i + 1) = weights ss m i := fun i => rfl
      have hentry : Row.entry (x :: xs) (s :: ss).length = Row.entry xs ss.length := rfl
      have hxs := ih xs
      rw [Row.dot] at hxs
      rw [Row.dot, List.length_cons, Finset.sum_range_succ']
      simp only [Row.entry_cons_succ, hsucc, List.zip_cons_cons, List.map_cons, List.sum_cons]
      rw [hxs]
      have h0 : (Row.entry (x :: xs) 0 : ℚ) * weights (s :: ss) m 0 = x * m s := by simp [Row.entry, weights]
      rw [h0]
      ring

theorem length_toRow (e : LinearExpr) (symbols : List Symbol) : (e.toRow symbols).length = symbols.length + 1 := by
  simp [toRow]

theorem value_toRow {e : LinearExpr} {symbols : List Symbol} (hn : symbols.Nodup)
    (hs : ∀ s, e.coeff s ≠ 0 → s ∈ symbols) (m : Valuation) :
    (e.toRow symbols).dot (symbols.length + 1) (weights symbols m) = e.value m := by
  have hzip : symbols.zip (e.toRow symbols) = symbols.map fun s => (s, e.coeff s) := by
    rw [toRow]
    clear hn hs
    induction symbols with
    | nil => rfl
    | cons s ss ih => simp [ih]
  have hentry : (e.toRow symbols).entry symbols.length = e.constant := by simp [toRow, Row.entry]
  have hS : ∀ s, e.coeff s ≠ 0 → s ∈ symbols.toFinset := fun s h => List.mem_toFinset.mpr (hs s h)
  rw [dot_weights, hzip, hentry, value_eq_sum hS, List.sum_toFinset _ hn, List.map_map]
  rfl

theorem value_ofRow (row : Row) (symbols : List Symbol) (m : Valuation) :
    (ofRow row symbols).value m = row.dot (symbols.length + 1) (weights symbols m) := by
  have hfold : ∀ (ts : List (Symbol × ℤ)) (e : LinearExpr),
      (ts.foldl (fun e t => e.addTerm t.2 t.1) e).value m =
        e.value m + (ts.map fun t => (t.2 : ℚ) * m t.1).sum := by
    intro ts
    induction ts with
    | nil => simp
    | cons t ts ih =>
      intro e
      rw [List.foldl_cons, ih, value_addTerm, List.map_cons, List.sum_cons]
      ring
  rw [ofRow, hfold, value_const, dot_weights]
  ring

end LinearExpr

namespace Equalities

/-- Every equation holds at the valuation. -/
def SolvedBy (q : Equalities) (m : Valuation) : Prop := ∀ e ∈ q.rows, e.value m = 0

@[simp] theorem solvedBy_empty (m : Valuation) : empty.SolvedBy m := nofun

theorem not_solvedBy_unsatisfiable (m : Valuation) : ¬ unsatisfiable.SolvedBy m := by
  intro h
  simpa using h (.const 1) (by simp [unsatisfiable])

theorem nodup_symbolsOf (rows : List LinearExpr) : (symbolsOf rows).Nodup :=
  (Symbol.pairwise_sort _).imp fun h => String.ne_of_lt h

theorem mem_symbolsOf {rows : List LinearExpr} {e : LinearExpr} (he : e ∈ rows) {s : Symbol} (hs : e.coeff s ≠ 0) :
    s ∈ symbolsOf rows :=
  Symbol.mem_sort.mpr (List.mem_flatMap.mpr ⟨e, he, LinearExpr.mem_symbols.mpr hs⟩)

theorem not_solvedBy_of_isUnsatisfiable {q : Equalities} (h : q.isUnsatisfiable = true) (m : Valuation) :
    ¬ q.SolvedBy m := by
  obtain ⟨rows⟩ := q
  match rows, h with
  | [e], h =>
    simp only [isUnsatisfiable, Bool.and_eq_true, bne_iff_ne, LinearExpr.isConstant, List.isEmpty_iff] at h
    intro hs
    have hv := hs e (by simp)
    rw [LinearExpr.value, LinearExpr.terms, h.1] at hv
    simp only [List.map_nil, List.sum_nil, zero_add, Int.cast_eq_zero] at hv
    exact h.2 hv

/-- The rows of some expressions over the symbols vanish where the expressions do. -/
theorem vanish_map_toRow {rows : List LinearExpr} {order : List Symbol} (hn : order.Nodup)
    (hs : ∀ e ∈ rows, ∀ s, e.coeff s ≠ 0 → s ∈ order) (m : Valuation) :
    Vanish (order.length + 1) (rows.map (·.toRow order)) (LinearExpr.weights order m) ↔
      SolvedBy ⟨rows⟩ m := by
  simp only [Vanish, SolvedBy, List.forall_mem_map]
  refine forall₂_congr fun e he => ?_
  rw [LinearExpr.value_toRow hn (hs e he)]

theorem length_of_mem_map_toRow {rows : List LinearExpr} {order : List Symbol} :
    ∀ r ∈ rows.map (·.toRow order), r.length = order.length + 1 := by
  simp [LinearExpr.length_toRow]

/-- A pivot in the constant column is a row without symbols. -/
theorem not_vanish_of_last_pivot {n : ℕ} {m : Echelon} (hm : Reduced (n + 1) (n + 1) m)
    (hp : m.pivots.getLast? = some n) {w : ℕ → ℚ} (hw : w n = 1) : ¬ Vanish (n + 1) m.rows w := by
  intro hv
  obtain ⟨x, hx, hxn⟩ := hm.exists_pivotRow (List.mem_of_getLast? hp)
  have hpos := hm.positive x hx
  have hlead := hm.leading x hx
  rw [hxn] at hpos hlead
  have hzero := hv x.1 (mem_pivotRows hx).1
  rw [Row.dot, Finset.sum_range_succ, hw, mul_one] at hzero
  have hsum : ∑ i ∈ Finset.range n, (x.1.entry i : ℚ) * w i = 0 := by
    refine Finset.sum_eq_zero fun i hi => ?_
    rw [hlead i (Finset.mem_range.mp hi)]
    simp
  rw [hsum, zero_add, Int.cast_eq_zero] at hzero
  omega

/-- Elimination keeps the solutions. -/
theorem solvedBy_eliminate {rows : List LinearExpr} {order : List Symbol} (hn : order.Nodup)
    (hs : ∀ e ∈ rows, ∀ s, e.coeff s ≠ 0 → s ∈ order) (m : Valuation) :
    (eliminate rows order).SolvedBy m ↔ SolvedBy ⟨rows⟩ m := by
  rw [← vanish_map_toRow hn hs, ← vanish_ofRows length_of_mem_map_toRow]
  unfold eliminate
  dsimp only
  split
  · rename_i hp
    have hw : LinearExpr.weights order m order.length = 1 := by simp [LinearExpr.weights]
    exact iff_of_false (not_solvedBy_unsatisfiable m)
      (not_vanish_of_last_pivot (reduced_ofRows length_of_mem_map_toRow) hp hw)
  · simp only [SolvedBy, Vanish, List.forall_mem_map, LinearExpr.value_ofRow]

theorem solvedBy_ofRows (rows : List LinearExpr) (m : Valuation) :
    (ofRows rows).SolvedBy m ↔ SolvedBy ⟨rows⟩ m :=
  solvedBy_eliminate (nodup_symbolsOf rows) (fun _ he _ hs => mem_symbolsOf he hs) m

theorem solvedBy_extend (q : Equalities) (equations : List LinearExpr) (m : Valuation) :
    (q.extend equations).SolvedBy m ↔ q.SolvedBy m ∧ ∀ e ∈ equations, e.value m = 0 := by
  rw [extend, solvedBy_ofRows]
  simp only [SolvedBy, List.forall_mem_append]

theorem solvedBy_add (q : Equalities) (e : LinearExpr) (m : Valuation) :
    (q.add e).SolvedBy m ↔ q.SolvedBy m ∧ e.value m = 0 := by
  simp [add, solvedBy_extend]

theorem solvedBy_meet (p q : Equalities) (m : Valuation) :
    (p.meet q).SolvedBy m ↔ p.SolvedBy m ∧ q.SolvedBy m :=
  solvedBy_extend p q.rows m

/-- The join keeps the solutions of both sides. -/
theorem solvedBy_join {p q : Equalities} {m : Valuation} (h : p.SolvedBy m ∨ q.SolvedBy m) :
    (p.join q).SolvedBy m := by
  unfold join
  split
  · rename_i hp
    exact h.resolve_left (not_solvedBy_of_isUnsatisfiable hp m)
  · split
    · rename_i hq
      exact h.resolve_right (not_solvedBy_of_isUnsatisfiable hq m)
    · let symbols := symbolsOf (p.rows ++ q.rows)
      have hn : symbols.Nodup := nodup_symbolsOf _
      have hp : ∀ e ∈ p.rows, ∀ s, e.coeff s ≠ 0 → s ∈ symbols := fun e he s hs =>
        mem_symbolsOf (List.mem_append_left _ he) hs
      have hq : ∀ e ∈ q.rows, ∀ s, e.coeff s ≠ 0 → s ∈ symbols := fun e he s hs =>
        mem_symbolsOf (List.mem_append_right _ he) hs
      have hv := RowSpace.vanish_intersect length_of_mem_map_toRow length_of_mem_map_toRow
        (h.imp (vanish_map_toRow hn hp m).mpr (vanish_map_toRow hn hq m).mpr)
      refine (solvedBy_ofRows _ m).mpr fun e he => ?_
      obtain ⟨row, hrow, rfl⟩ := List.mem_map.mp he
      rw [LinearExpr.value_ofRow]
      exact hv row hrow

/-- What is kept of a system without `s` does not depend on `s`. -/
theorem solvedBy_project {q : Equalities} {s : Symbol} {m m' : Valuation} (hm : ∀ t, t ≠ s → m' t = m t)
    (h : q.SolvedBy m) : (q.project s).SolvedBy m' := by
  have hsame : ∀ e : LinearExpr, ¬ e.mentions s = true → e.value m' = e.value m := by
    intro e he
    refine LinearExpr.value_congr fun t ht => hm t ?_
    rintro rfl
    exact he (LinearExpr.mentions_iff.mpr ht)
  unfold project
  split
  · let order := s :: (symbolsOf q.rows).filter (· != s)
    have hn : order.Nodup := List.nodup_cons.mpr ⟨by simp, (nodup_symbolsOf _).filter _⟩
    have hs : ∀ e ∈ q.rows, ∀ t, e.coeff t ≠ 0 → t ∈ order := by
      intro e he t ht
      by_cases hts : t = s
      · simp [order, hts]
      · exact List.mem_cons_of_mem _ (List.mem_filter.mpr ⟨mem_symbolsOf he ht, by simpa using hts⟩)
    have helim := (solvedBy_eliminate hn hs m).mpr h
    refine (solvedBy_ofRows _ m').mpr fun e he => ?_
    obtain ⟨he, hmention⟩ := List.mem_filter.mp he
    rw [hsame e (by simpa using hmention)]
    exact helim e he
  · rename_i hfree
    intro e he
    rw [hsame e fun hmention => hfree (List.any_eq_true.mpr ⟨e, he, hmention⟩)]
    exact h e he

/-- Substitution follows an assignment from whose result the old value can be recovered. -/
theorem solvedBy_substitute {q : Equalities} {s : Symbol} {e : LinearExpr} {m : Valuation} (h : q.SolvedBy m) :
    (q.substitute s e).SolvedBy (Function.update m s (e.value m)) := by
  refine (solvedBy_ofRows _ _).mpr fun f hf => ?_
  obtain ⟨row, hrow, rfl⟩ := List.mem_map.mp hf
  have hzero := h row hrow
  have hwithout : ∀ g : LinearExpr, (g.without s).value (Function.update m s (e.value m)) =
      g.value m - g.coeff s * m s := by
    intro g
    rw [LinearExpr.value_update (by simp [LinearExpr.coeff_without]), LinearExpr.value_without]
  split
  · rw [LinearExpr.value_sub, LinearExpr.value_add, LinearExpr.value_scale, LinearExpr.value_scale,
      LinearExpr.value_term, hwithout, hwithout, Function.update_self, hzero]
    ring
  · rename_i hmention
    have hc : row.coeff s = 0 := by
      by_contra hne
      exact hmention (LinearExpr.mentions_iff.mpr hne)
    rw [LinearExpr.value_update hc]
    exact hzero

/-- An implied equation holds at every solution. -/
theorem value_of_implies {q : Equalities} {e : LinearExpr} {m : Valuation} (hi : q.implies e = true)
    (h : q.SolvedBy m) : e.value m = 0 := by
  unfold implies at hi
  split at hi
  · rename_i hq
    exact absurd h (not_solvedBy_of_isUnsatisfiable hq m)
  · let symbols := symbolsOf (q.rows ++ [e])
    have hn : symbols.Nodup := nodup_symbolsOf _
    have hq : ∀ f ∈ q.rows, ∀ s, f.coeff s ≠ 0 → s ∈ symbols := fun f hf s hs =>
      mem_symbolsOf (List.mem_append_left _ hf) hs
    have he : ∀ s, e.coeff s ≠ 0 → s ∈ symbols := fun s hs => mem_symbolsOf (by simp) hs
    rw [← LinearExpr.value_toRow hn he]
    refine dot_of_spans (reduced_ofRows length_of_mem_map_toRow) (LinearExpr.length_toRow e symbols) hi ?_
    exact (vanish_ofRows length_of_mem_map_toRow _).mpr ((vanish_map_toRow hn hq m).mpr h)

/-- A row with a non-zero entry does not vanish everywhere. -/
theorem exists_value_ne_zero {order : List Symbol} {row : Row} {p : ℕ} (hn : order.Nodup)
    (hp : p < order.length + 1) (hr : row.entry p ≠ 0) : ∃ m : Valuation, (LinearExpr.ofRow row order).value m ≠ 0 := by
  by_contra hall
  push Not at hall
  have hdot : ∀ m : Valuation, row.dot (order.length + 1) (LinearExpr.weights order m) = 0 := fun m => by
    rw [← LinearExpr.value_ofRow]
    exact hall m
  have hlast : (row.entry order.length : ℚ) = 0 := by
    have h0 := hdot fun _ => 0
    rw [LinearExpr.dot_weights] at h0
    simpa using h0
  rcases Nat.lt_succ_iff_lt_or_eq.mp hp with hlt | rfl
  · have h1 := hdot fun s => if s = order[p] then 1 else 0
    rw [Row.dot, Finset.sum_eq_single p] at h1
    · have hw : LinearExpr.weights order (fun s => if s = order[p] then 1 else 0) p = 1 := by
        rw [LinearExpr.weights_of_lt hlt, if_pos rfl]
      rw [hw, mul_one, Int.cast_eq_zero] at h1
      exact hr h1
    · intro i hi hip
      rcases Nat.lt_succ_iff_lt_or_eq.mp (Finset.mem_range.mp hi) with hil | rfl
      · have hne : order[i] ≠ order[p] := fun heq => hip ((List.Nodup.getElem_inj_iff hn).mp heq)
        have hw : LinearExpr.weights order (fun s => if s = order[p] then 1 else 0) i = 0 := by
          rw [LinearExpr.weights_of_lt hil, if_neg hne]
        rw [hw, mul_zero]
      · rw [hlast, zero_mul]
    · intro h
      exact absurd (Finset.mem_range.mpr hp) h
  · exact hr (by exact_mod_cast hlast)

/-- A system in reduced form that every valuation solves has no equations. -/
theorem ofRows_eq_empty {rows : List LinearExpr} (h : ∀ m, (ofRows rows).SolvedBy m) : ofRows rows = empty := by
  let order := symbolsOf rows
  let m := Echelon.ofRows (rows.map (·.toRow order)) (order.length + 1)
  have hm : Reduced (order.length + 1) (order.length + 1) m := reduced_ofRows length_of_mem_map_toRow
  by_cases hp : m.pivots.getLast? = some order.length
  · have hu : ofRows rows = unsatisfiable := if_pos hp
    rw [hu] at h
    exact absurd (h 0) (not_solvedBy_unsatisfiable 0)
  · have heq : ofRows rows = ⟨m.rows.map (LinearExpr.ofRow · order)⟩ := if_neg hp
    rw [heq] at h ⊢
    cases hrows : m.pivotRows with
    | nil =>
      have hnil : m.rows = [] := by
        have hlen := congrArg List.length hrows
        rw [pivotRows, List.length_zip, ← hm.paired, Nat.min_self] at hlen
        exact List.length_eq_zero_iff.mp hlen
      rw [hnil]
      rfl
    | cons x xs =>
      have hx : x ∈ m.pivotRows := by simp [hrows]
      obtain ⟨hr, hpivot⟩ := mem_pivotRows hx
      obtain ⟨v, hv⟩ := exists_value_ne_zero (nodup_symbolsOf rows) (hm.bounded x.2 hpivot) (hm.positive x hx).ne'
      exact absurd (h v _ (List.mem_map.mpr ⟨x.1, hr, rfl⟩)) hv

end Equalities

end PathInvariants
