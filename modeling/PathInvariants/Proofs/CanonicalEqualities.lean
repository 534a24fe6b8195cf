import PathInvariants.Proofs.ReducedRows
import PathInvariants.Proofs.ValueLattice

/-!
# Canonical systems of equalities

The symbols of a satisfiable system, and so the columns of its elimination, depend on its solutions
only, and so do the reduced rows in these columns. An unsatisfiable system is the equation `1 = 0`. So
systems that the operations build are equal exactly when they have the same solutions.
-/
namespace PathInvariants

open PathInvariants.Echelon

theorem LinearExpr.coeff_of_isConstant {e : LinearExpr} (h : e.isConstant = true) (s : Symbol) : e.coeff s = 0 := by
  by_contra hne
  have hmem : (s, e.coeff s) ∈ e.coeffs.entries := Sparse.mem_entries.mpr ⟨rfl, hne⟩
  rw [List.isEmpty_iff.mp h] at hmem
  cases hmem

/-- The coefficients of the expression of a row are its entries. -/
theorem LinearExpr.coeff_ofRow_getElem {order : List Symbol} (hn : order.Nodup) (row : Row) {i : ℕ} (hi : i < order.length) :
    (ofRow row order).coeff order[i] = row.entry i := by
  have hsingle : ((ofRow row order).coeff order[i] : ℚ) = row.entry i := by
    rw [← functional_single, functional_ofRow, Row.dot, Finset.sum_eq_single_of_mem i (Finset.mem_range.mpr (by omega))]
    · simp [coordinates, List.getElem?_eq_getElem hi]
    · intro k hk hne
      rcases Nat.lt_succ_iff_lt_or_eq.mp (Finset.mem_range.mp hk) with hlt | rfl
      · have hsymbol : order[k] ≠ order[i] := fun heq => hne ((List.Nodup.getElem_inj_iff hn).mp heq)
        simp [coordinates, List.getElem?_eq_getElem hlt, hsymbol]
      · simp [coordinates]
  exact_mod_cast hsingle

namespace Equalities

variable {p q : Equalities} {rows rows' : List LinearExpr} {s : Symbol}

/-- A symbol occurs in a system if the system says something of its direction. -/
theorem mem_symbolsOf_iff : s ∈ symbolsOf rows ↔ ¬ VanishAt ⟨rows⟩ (Pi.single s 1, 0) := by
  simp only [VanishAt, LinearExpr.functional_single, Int.cast_eq_zero, not_forall, exists_prop]
  constructor
  · intro hs
    obtain ⟨e, he, hs⟩ := List.mem_flatMap.mp (Symbol.mem_sort.mp hs)
    exact ⟨e, he, LinearExpr.mem_symbols.mp hs⟩
  · rintro ⟨e, he, hs⟩
    exact mem_symbolsOf he hs

theorem symbolsOf_eq (h : ∀ x, VanishAt ⟨rows⟩ x ↔ VanishAt ⟨rows'⟩ x) : symbolsOf rows = symbolsOf rows' :=
  (Symbol.pairwise_sort _).eq_of_mem_iff (Symbol.pairwise_sort _) fun _ =>
    mem_symbolsOf_iff.trans ((not_congr (h _)).trans mem_symbolsOf_iff.symm)

/-- Elimination in one order depends on the points at which the equations vanish only. -/
theorem eliminate_eq {order : List Symbol} (hn : order.Nodup) (hs : ∀ e ∈ rows, ∀ s, e.coeff s ≠ 0 → s ∈ order)
    (hs' : ∀ e ∈ rows', ∀ s, e.coeff s ≠ 0 → s ∈ order) (h : ∀ x, VanishAt ⟨rows⟩ x ↔ VanishAt ⟨rows'⟩ x) :
    (Echelon.ofRows (rows.map (·.toRow order)) (order.length + 1)).rows =
      (Echelon.ofRows (rows'.map (·.toRow order)) (order.length + 1)).rows := by
  refine (reduced_ofRows length_of_mem_map_toRow).rows_eq (reduced_ofRows length_of_mem_map_toRow)
    (isPrimitive_ofRows length_of_mem_map_toRow) (isPrimitive_ofRows length_of_mem_map_toRow) fun w => ?_
  rw [vanish_ofRows length_of_mem_map_toRow, vanish_ofRows length_of_mem_map_toRow]
  obtain ⟨x, hx⟩ := LinearExpr.exists_coordinates hn w
  simpa only [Vanish, hx] using
    (vanishAt_map_toRow hn hs x).trans ((h x).trans (vanishAt_map_toRow hn hs' x).symm)

/-- A system found unsatisfiable is the one equation between constants. -/
theorem Canonical.eq_unsatisfiable (hq : q.Canonical) (h : q.isUnsatisfiable = true) : q = unsatisfiable := by
  obtain ⟨rows, rfl⟩ := hq
  let order := symbolsOf rows
  let m := Echelon.ofRows (rows.map (·.toRow order)) (order.length + 1)
  have hm : Reduced (order.length + 1) (order.length + 1) m := reduced_ofRows length_of_mem_map_toRow
  by_cases hp : m.pivots.getLast? = some order.length
  · exact if_pos hp
  · -- The only row would have a pivot, and so a symbol.
    have heq : ofRows rows = ⟨m.rows.map (LinearExpr.ofRow · order)⟩ := if_neg hp
    rw [heq] at h
    match hrows : m.rows, h with
    | [row], h =>
      simp only [isUnsatisfiable, List.map_cons, List.map_nil, Bool.and_eq_true] at h
      obtain ⟨x, hx, hrow⟩ := hm.mem_rows_iff.mp (by rw [hrows]; exact List.mem_singleton_self row)
      have hpivot := (mem_pivotRows hx).2
      have hlt : x.2 < order.length := by
        have hbound := hm.bounded _ hpivot
        have hne : x.2 ≠ order.length := fun heq => hm.not_mem_pivots hp (heq ▸ hpivot)
        omega
      have hcoeff := LinearExpr.coeff_ofRow_getElem (nodup_symbolsOf rows) row hlt
      rw [LinearExpr.coeff_of_isConstant h.1, ← hrow] at hcoeff
      exact absurd hcoeff.symm (hm.positive x hx).ne'

theorem ofRows_of_satisfiable (h : (ofRows rows).isUnsatisfiable = false) : ofRows rows =
    ⟨(Echelon.ofRows (rows.map (·.toRow (symbolsOf rows))) ((symbolsOf rows).length + 1)).rows.map
      (LinearExpr.ofRow · (symbolsOf rows))⟩ := by
  unfold ofRows eliminate at h ⊢
  dsimp only at h ⊢
  split at h
  · cases h
  · rename_i hp
    exact if_neg hp

/-- A system is found unsatisfiable exactly if it has no solution. -/
theorem Canonical.isUnsatisfiable_iff (hq : q.Canonical) : q.isUnsatisfiable = true ↔ ¬ ∃ m, q.SolvedBy m := by
  refine ⟨fun h ⟨m, hm⟩ => not_solvedBy_of_isUnsatisfiable h m hm, fun h => ?_⟩
  by_contra hsat
  exact h (hq.exists_solvedBy (by simpa using hsat))

/-- Systems with the same solutions vanish at the same points, those at infinity included. -/
theorem Canonical.vanishAt_of_solvedBy (hq : q.Canonical) (hsat : q.isUnsatisfiable = false)
    (h : ∀ m, q.SolvedBy m → p.SolvedBy m) {x : Valuation × ℚ} (hx : q.VanishAt x) : p.VanishAt x := fun e he =>
  hq.functional_eq_zero hsat (fun m hm => h m hm e he) hx

theorem Canonical.eq_of_solvedBy (hp : p.Canonical) (hq : q.Canonical) (h : ∀ m, p.SolvedBy m ↔ q.SolvedBy m) :
    p = q := by
  have hunsat : p.isUnsatisfiable = true ↔ q.isUnsatisfiable = true := by
    rw [hp.isUnsatisfiable_iff, hq.isUnsatisfiable_iff]
    simp only [h]
  by_cases hpu : p.isUnsatisfiable = true
  · rw [hp.eq_unsatisfiable hpu, hq.eq_unsatisfiable (hunsat.mp hpu)]
  · have hps : p.isUnsatisfiable = false := by simpa using hpu
    have hqs : q.isUnsatisfiable = false := by simpa using mt hunsat.mpr hpu
    have hvanish : ∀ x, p.VanishAt x ↔ q.VanishAt x := fun x =>
      ⟨hp.vanishAt_of_solvedBy hps fun m => (h m).mp, hq.vanishAt_of_solvedBy hqs fun m => (h m).mpr⟩
    obtain ⟨rows, rfl⟩ := hp
    obtain ⟨rows', rfl⟩ := hq
    have hrows : ∀ x, VanishAt ⟨rows⟩ x ↔ VanishAt ⟨rows'⟩ x := fun x => by
      rw [← vanishAt_ofRows hps, ← vanishAt_ofRows hqs, hvanish]
    have horder := symbolsOf_eq hrows
    have heq := eliminate_eq (nodup_symbolsOf rows) (fun _ he _ hs => mem_symbolsOf he hs)
      (fun _ he _ hs => horder ▸ mem_symbolsOf he hs) hrows
    rw [ofRows_of_satisfiable hps, ofRows_of_satisfiable hqs, ← horder, heq]

/-- The systems that the operations build from the empty and the unsatisfiable one. -/
inductive Built : Equalities → Prop
  | empty : Built empty
  | unsatisfiable : Built unsatisfiable
  | add {q : Equalities} (hq : Built q) (e : LinearExpr) : Built (q.add e)
  | extend {q : Equalities} (hq : Built q) (equations : List LinearExpr) : Built (q.extend equations)
  | meet {p q : Equalities} (hp : Built p) (hq : Built q) : Built (p.meet q)
  | join {p q : Equalities} (hp : Built p) (hq : Built q) : Built (p.join q)
  | project {q : Equalities} (hq : Built q) (s : Symbol) : Built (q.project s)
  | substitute {q q' : Equalities} {s : Symbol} {e : LinearExpr} (hq : Built q) (h : q.substitute? s e = .ok q') : Built q'

theorem Built.canonical (h : q.Built) : q.Canonical := by
  induction h with
  | empty => exact canonical_empty
  | unsatisfiable => exact ⟨[.const 1], by decide⟩
  | add => exact canonical_ofRows _
  | extend => exact canonical_ofRows _
  | meet => exact canonical_ofRows _
  | join _ _ hp hq => exact hp.join hq
  | project _ s hq => exact hq.project s
  | substitute _ h =>
    unfold substitute? at h
    split at h
    · cases h
      exact canonical_ofRows _
    · cases h

/-- The rows of a system are a function of its solutions, the test for unsatisfiability is exact, and a system implies
the equations that hold at all its solutions. -/
theorem rows_eq_iff (hp : p.Built) (hq : q.Built) : (p.rows = q.rows ↔ ∀ m, p.SolvedBy m ↔ q.SolvedBy m) ∧
    (q.isUnsatisfiable = true ↔ ¬ ∃ m, q.SolvedBy m) ∧
    ∀ e, q.implies e = true ↔ ∀ m, q.SolvedBy m → e.value m = 0 := by
  refine ⟨⟨fun h m => ?_, fun h => ?_⟩, hq.canonical.isUnsatisfiable_iff, fun e => hq.canonical.implies_iff⟩
  · rw [SolvedBy, SolvedBy, h]
  · rw [hp.canonical.eq_of_solvedBy hq.canonical h]

/-- The line through two points, and what is left of it after a translation, a havoc and a contradiction. -/
theorem rows_eq_iff_diagonal :
    let points := (empty.extend [.var "x", .var "y"]).join (empty.extend [.var "x" - .const 1, .var "y" - .const 1])
    let line := empty.add ((LinearExpr.var "y" - .var "x").scale 3)
    let raised := points.substitute "y" (.var "y" + .const 2)
    points.Built ∧ line.Built ∧ raised.Built ∧ (∀ m, points.SolvedBy m ↔ line.SolvedBy m) ∧
      (raised.implies (.var "y" - .var "x" - .const 2) = true ∧
        ∀ m, raised.SolvedBy m → (LinearExpr.var "y" - .var "x" - .const 2).value m = 0) ∧
      ¬ ∃ m, (points.meet raised).SolvedBy m := by
  intro points line raised
  have hpoints : points.Built := .join (.extend .empty _) (.extend .empty _)
  have hline : line.Built := .add .empty _
  have hraised : raised.Built := .substitute (s := "y") (e := .var "y" + .const 2) hpoints (by decide +kernel)
  have himplies : raised.implies (.var "y" - .var "x" - .const 2) = true := by decide +kernel
  exact ⟨hpoints, hline, hraised, (rows_eq_iff hpoints hline).1.mp (by decide +kernel),
    ⟨himplies, ((rows_eq_iff hpoints hraised).2.2 _).mp himplies⟩,
    (rows_eq_iff hpoints (hpoints.meet hraised)).2.1.mp (by decide +kernel)⟩

end Equalities

end PathInvariants
