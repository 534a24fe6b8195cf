import PathInvariants.Proofs.ReducedRows

/-!
# Rational row spaces

The row space of a matrix is the rational span of its rows. A vector lies in it exactly if it is
orthogonal to every vector at which the rows vanish, so what elimination keeps of those vectors it
keeps of the row space, and the null space of the null space is the row space again. Pivots make the
rows of a reduced form independent, and free columns the vectors of a null space.
-/
namespace PathInvariants

open Module Matrix

namespace Row

variable {n : ℕ}

/-- The first `n` entries as a rational vector. -/
def toVec (n : ℕ) (r : Row) : Fin n → ℚ := fun i => r.entry i

/-- A vector continued by zeros. -/
def extend (w : Fin n → ℚ) : ℕ → ℚ := fun i => if h : i < n then w ⟨i, h⟩ else 0

theorem dot_eq_dotProduct (r : Row) (w : ℕ → ℚ) : r.dot n w = r.toVec n ⬝ᵥ fun i : Fin n => w i :=
  Finset.sum_range _

@[simp]
theorem extend_val (w : Fin n → ℚ) (i : Fin n) : extend w i = w i := by simp [extend]

@[simp]
theorem dot_extend (r : Row) (w : Fin n → ℚ) : r.dot n (extend w) = r.toVec n ⬝ᵥ w := by
  rw [dot_eq_dotProduct]
  simp only [extend_val]

theorem isPrimitive_of_entry_ne_zero {r : Row} {i : ℕ} (h : r.primitive.entry i ≠ 0) : r.primitive.IsPrimitive := by
  obtain ⟨g, hg, hscale⟩ := exists_scale_primitive r
  refine isPrimitive_primitive (i := i) ?_
  rw [hscale]
  exact mul_ne_zero hg.ne' h

/-- Primitive rows are those whose entries have the greatest common divisor one. -/
theorem IsPrimitive.content_eq_one {r : Row} (h : r.IsPrimitive) : r.content = 1 := by
  have hunit := h r.content (content_dvd_entry r)
  simpa [Int.isUnit_iff_natAbs_eq] using hunit

end Row

namespace RowSpace

open PathInvariants.Echelon

variable {n : ℕ} {rows rows' a b : List Row}

/-- The rational span of the rows. -/
def span (rows : List Row) (n : ℕ) : Submodule ℚ (Fin n → ℚ) :=
  Submodule.span ℚ (Set.range fun i : Fin rows.length => (rows.get i).toVec n)

/-- The vectors orthogonal to every row. -/
def orthogonal (rows : List Row) (n : ℕ) : Submodule ℚ (Fin n → ℚ) where
  carrier := { w | ∀ r ∈ rows, r.toVec n ⬝ᵥ w = 0 }
  add_mem' := fun hv hw r hr => by rw [dotProduct_add, hv r hr, hw r hr, add_zero]
  zero_mem' := fun r _ => dotProduct_zero _
  smul_mem' := fun c w hw r hr => by rw [dotProduct_smul, hw r hr, smul_zero]

theorem mem_orthogonal {w : Fin n → ℚ} : w ∈ orthogonal rows n ↔ ∀ r ∈ rows, r.toVec n ⬝ᵥ w = 0 := Iff.rfl

/-- The rows vanish at the vectors orthogonal to them. -/
theorem vanish_extend {w : Fin n → ℚ} : Vanish n rows (Row.extend w) ↔ w ∈ orthogonal rows n :=
  forall₂_congr fun r _ => by rw [Row.dot_extend]

theorem toVec_mem_span {r : Row} (hr : r ∈ rows) : r.toVec n ∈ span rows n := by
  obtain ⟨i, hi⟩ := List.get_of_mem hr
  exact Submodule.subset_span ⟨i, congrArg (Row.toVec n) hi⟩

theorem span_le {p : Submodule ℚ (Fin n → ℚ)} (h : ∀ r ∈ rows, r.toVec n ∈ p) : span rows n ≤ p := by
  refine Submodule.span_le.mpr ?_
  rintro _ ⟨i, rfl⟩
  exact h _ (List.get_mem rows i)

/-- A linear form is the scalar product with a vector. -/
theorem exists_dotProduct (φ : Dual ℚ (Fin n → ℚ)) : ∃ w : Fin n → ℚ, ∀ v, φ v = v ⬝ᵥ w :=
  ⟨fun i => φ fun j => if i = j then 1 else 0, fun v => LinearMap.pi_apply_eq_sum_univ φ v⟩

/-- The row space is the double orthogonal complement of the rows. -/
theorem mem_span_iff {y : Fin n → ℚ} : y ∈ span rows n ↔ ∀ w ∈ orthogonal rows n, y ⬝ᵥ w = 0 := by
  constructor
  · intro hy w hw
    have hle : span rows n ≤ LinearMap.ker ((dotProductBilin ℚ ℚ).flip w) := span_le fun r hr => hw r hr
    exact hle hy
  · intro h
    by_contra hy
    obtain ⟨φ, hne, hker⟩ := Submodule.exists_le_ker_of_notMem hy
    obtain ⟨w, hw⟩ := exists_dotProduct φ
    refine hne ((hw y).trans (h w fun r hr => ?_))
    rw [← hw]
    exact hker (toVec_mem_span hr)

theorem span_eq_iff : span rows n = span rows' n ↔ orthogonal rows n = orthogonal rows' n := by
  constructor
  · intro h
    have hle : ∀ {s t : List Row}, span s n = span t n → orthogonal s n ≤ orthogonal t n := by
      intro s t hst w hw r hr
      exact mem_span_iff.mp (hst ▸ toVec_mem_span hr) w hw
    exact le_antisymm (hle h) (hle h.symm)
  · intro h
    ext y
    rw [mem_span_iff, mem_span_iff, h]

/-- Elimination keeps the vectors orthogonal to the rows. -/
theorem orthogonal_ofRows (h : ∀ r ∈ rows, r.length = n) : orthogonal (Echelon.ofRows rows n).rows n = orthogonal rows n := by
  ext w
  rw [← vanish_extend, ← vanish_extend]
  exact vanish_ofRows h _

/-- Elimination keeps the row space. -/
theorem span_ofRows (h : ∀ r ∈ rows, r.length = n) : span (Echelon.ofRows rows n).rows n = span rows n :=
  span_eq_iff.mpr (orthogonal_ofRows h)

/-- The reduced rows are a function of the row space. -/
theorem rows_ofRows_eq (h : ∀ r ∈ rows, r.length = n) (h' : ∀ r ∈ rows', r.length = n)
    (heq : span rows n = span rows' n) : (Echelon.ofRows rows n).rows = (Echelon.ofRows rows' n).rows := by
  refine (reduced_ofRows h).rows_eq (reduced_ofRows h') (isPrimitive_ofRows h) (isPrimitive_ofRows h') fun w => ?_
  have horth := span_eq_iff.mp heq
  rw [vanish_ofRows h, vanish_ofRows h']
  have hvan : ∀ s : List Row, Vanish n s w ↔ (fun i : Fin n => w i) ∈ orthogonal s n := fun s =>
    forall₂_congr fun r _ => by rw [Row.dot_eq_dotProduct]
  rw [hvan, hvan, horth]

/-- Vectors that each have a column of their own are independent. -/
theorem linearIndependent_of_column {l : List Row} (c : Fin l.length → Fin n)
    (hown : ∀ i, (l.get i).toVec n (c i) ≠ 0) (hother : ∀ i j, i ≠ j → (l.get i).toVec n (c j) = 0) :
    LinearIndependent ℚ fun i : Fin l.length => (l.get i).toVec n := by
  refine Fintype.linearIndependent_iff.mpr fun g hg j => ?_
  have hj := congrFun hg (c j)
  rw [Finset.sum_apply, Finset.sum_eq_single j] at hj
  · exact (mul_eq_zero.mp hj).resolve_right (hown j)
  · intro i _ hij
    rw [Pi.smul_apply, hother i j hij, smul_zero]
  · intro hj
    exact absurd (Finset.mem_univ j) hj

end RowSpace

namespace Echelon

variable {n : ℕ} {m : Echelon}

theorem mem_pivotRows_of_getElem? {i p : ℕ} {r : Row} (hr : m.rows[i]? = some r) (hp : m.pivots[i]? = some p) :
    (r, p) ∈ m.pivotRows :=
  List.mem_of_getElem? (List.getElem?_zip_eq_some.mpr ⟨hr, hp⟩)

/-- The pivot of one row is zero in the others. -/
theorem Reduced.entry_eq_zero {i j p : ℕ} {r s : Row} (hm : Reduced n n m) (hr : m.rows[i]? = some r)
    (hp : m.pivots[i]? = some p) (hs : m.rows[j]? = some s) (hij : j ≠ i) : s.entry p = 0 := by
  have hj : j < m.pivots.length := hm.paired ▸ (List.getElem?_eq_some_iff.mp hs).1
  have hq : m.pivots[j]? = some m.pivots[j] := List.getElem?_eq_getElem hj
  refine hm.alone _ (mem_pivotRows_of_getElem? hs hq) _ (mem_pivotRows_of_getElem? hr hp) fun heq => hij ?_
  exact (List.getElem?_inj hj hm.nodup_pivots).mp (by rw [hq, hp]; exact congrArg some heq)

/-- The rows of a reduced form are independent. -/
theorem Reduced.linearIndependent (hm : Reduced n n m) :
    LinearIndependent ℚ fun i : Fin m.rows.length => (m.rows.get i).toVec n := by
  have hlt : ∀ i : Fin m.rows.length, (i : ℕ) < m.pivots.length := fun i => hm.paired ▸ i.isLt
  have hpivot : ∀ i : Fin m.rows.length, m.pivots[(i : ℕ)]? = some (m.pivots.get ⟨i, hlt i⟩) := fun i =>
    List.getElem?_eq_getElem (hlt i)
  have hrow : ∀ i : Fin m.rows.length, m.rows[(i : ℕ)]? = some (m.rows.get i) := fun i =>
    List.getElem?_eq_getElem i.isLt
  refine RowSpace.linearIndependent_of_column
    (fun i => ⟨m.pivots.get ⟨i, hlt i⟩, hm.bounded _ (List.get_mem _ _)⟩) (fun i => ?_) fun i j hij => ?_
  · have hpos := hm.positive _ (mem_pivotRows_of_getElem? (hrow i) (hpivot i))
    exact Int.cast_ne_zero.mpr hpos.ne'
  · have hzero := hm.entry_eq_zero (hrow j) (hpivot j) (hrow i) fun h => hij (Fin.ext h)
    exact Int.cast_eq_zero.mpr hzero

theorem Reduced.finrank_span (hm : Reduced n n m) : finrank ℚ (RowSpace.span m.rows n) = m.pivots.length := by
  rw [RowSpace.span, finrank_span_eq_card hm.linearIndependent, Fintype.card_fin, hm.paired]

end Echelon

namespace RowSpace

open PathInvariants.Echelon

variable {n : ℕ} {rows a b : List Row}

/-- The reduced echelon form is canonical: it spans the row space, its pivots increase and are positive and
alone in their columns, its rows have the greatest common divisor one, and it is the same for all matrices with
one row space. -/
theorem ofRows_canonical (n : ℕ) (rows rows' : List Row) (h : ∀ r ∈ rows, r.length = n)
    (h' : ∀ r ∈ rows', r.length = n) :
    span (ofRows rows n).rows n = span rows n ∧
      (ofRows rows n).rows.length = (ofRows rows n).pivots.length ∧
      (ofRows rows n).pivots.Pairwise (· < ·) ∧
      (∀ (i p : ℕ) (r : Row), (ofRows rows n).rows[i]? = some r → (ofRows rows n).pivots[i]? = some p →
        p < n ∧ 0 < r.entry p ∧ ∀ (j : ℕ) (s : Row), (ofRows rows n).rows[j]? = some s → j ≠ i → s.entry p = 0) ∧
      (∀ r ∈ (ofRows rows n).rows, r.length = n ∧ r.content = 1) ∧
      (span rows n = span rows' n ↔ (ofRows rows n).rows = (ofRows rows' n).rows) := by
  have hm := reduced_ofRows h
  refine ⟨span_ofRows h, hm.paired, hm.increasing, fun i p r hr hp => ?_, fun r hr => ?_, ?_⟩
  · have hx := mem_pivotRows_of_getElem? hr hp
    exact ⟨hm.bounded p (mem_pivotRows hx).2, hm.positive _ hx, fun j s hs hij => hm.entry_eq_zero hr hp hs hij⟩
  · exact ⟨hm.width r (List.mem_append_left _ hr), (isPrimitive_ofRows h r hr).content_eq_one⟩
  · refine ⟨rows_ofRows_eq h h', fun heq => ?_⟩
    rw [← span_ofRows h, ← span_ofRows h', heq]

/-- Two matrices of one row space, with rows out of order, negative pivots and common divisors. -/
theorem ofRows_canonical_plane :
    span (ofRows [[2, 4, 6], [1, 1, 1]] 3).rows 3 = span [[2, 4, 6], [1, 1, 1]] 3 ∧
      (ofRows [[2, 4, 6], [1, 1, 1]] 3).rows = [[1, 0, -1], [0, 1, 2]] ∧
      span [[2, 4, 6], [1, 1, 1]] 3 = span [[0, -3, -6], [-2, -1, 0], [1, 1, 1]] 3 := by
  have hcanonical := ofRows_canonical 3 [[2, 4, 6], [1, 1, 1]] [[0, -3, -6], [-2, -1, 0], [1, 1, 1]] (by decide) (by decide)
  exact ⟨hcanonical.1, by decide, hcanonical.2.2.2.2.2.mpr (by decide)⟩

/-- The columns without a pivot are what the pivots leave of all columns. -/
theorem length_nullSpace (h : ∀ r ∈ rows, r.length = n) : (nullSpace rows n).length + finrank ℚ (span rows n) = n := by
  have hm := reduced_ofRows h
  rw [← span_ofRows h, hm.finrank_span, nullSpace, List.length_map]
  have hperm : ((List.range n).filter fun c => (ofRows rows n).pivots.contains c).Perm (ofRows rows n).pivots := by
    refine (List.perm_ext_iff_of_nodup (List.nodup_range.filter _) hm.nodup_pivots).mpr fun c => ?_
    have hlt : c ∈ (ofRows rows n).pivots → c < n := hm.bounded c
    simpa using hlt
  have hsplit := List.length_eq_length_filter_add (l := List.range n) fun c => (ofRows rows n).pivots.contains c
  rw [hperm.length_eq, List.length_range] at hsplit
  omega

/-- Each vector of the null space is the only one with an entry in its free column. -/
theorem linearIndependent_nullSpace (h : ∀ r ∈ rows, r.length = n) :
    LinearIndependent ℚ fun i : Fin (nullSpace rows n).length => ((nullSpace rows n).get i).toVec n := by
  let m := ofRows rows n
  let free := (List.range n).filter fun c => !m.pivots.contains c
  have hlen : (nullSpace rows n).length = free.length := List.length_map _
  let column (i : Fin (nullSpace rows n).length) : ℕ := free.get (i.cast hlen)
  have hcolumn : ∀ i, column i < n ∧ column i ∉ m.pivots := by
    intro i
    have hmem : column i ∈ free := List.get_mem _ _
    simpa [free] using hmem
  have hget : ∀ i, (nullSpace rows n).get i = m.solution n (column i) := fun i => List.getElem_map _
  have hsolves : ∀ i, Solves m (column i) ((nullSpace rows n).get i).entry := by
    intro i
    rw [hget]
    exact solves_solution (reduced_ofRows h) (hcolumn i).1 (hcolumn i).2
  refine linearIndependent_of_column (fun i => ⟨column i, (hcolumn i).1⟩) (fun i => ?_) fun i j hij => ?_
  · exact Int.cast_ne_zero.mpr (hsolves i).free.ne'
  · have hne : column j ≠ column i := by
      intro heq
      have hcast := (List.nodup_range.filter _).injective_get heq
      exact hij (Fin.cast_injective hlen hcast).symm
    exact Int.cast_eq_zero.mpr ((hsolves i).zero _ hne (hcolumn j).2)

theorem isPrimitive_of_mem_nullSpace (h : ∀ r ∈ rows, r.length = n) {v : Row} (hv : v ∈ nullSpace rows n) :
    v.IsPrimitive := by
  obtain ⟨f, hf, hfree, rfl⟩ := mem_nullSpace.mp hv
  exact Row.isPrimitive_of_entry_ne_zero (solves_solution (reduced_ofRows h) hf hfree).free.ne'

/-- The null space spans the vectors orthogonal to the rows. -/
theorem span_nullSpace (h : ∀ r ∈ rows, r.length = n) : span (nullSpace rows n) n = orthogonal rows n := by
  refine le_antisymm (span_le fun v hv r hr => ?_) fun w hw => mem_span_iff.mpr fun y hy => ?_
  · rw [← vanish_of_mem_nullSpace h hv r hr, Row.dot_eq_dotProduct]
    rfl
  · have hsum := sum_of_orthogonal h (vanish_extend.mpr hy) (vanish_extend.mpr hw)
    rw [Finset.sum_range] at hsum
    simp only [Row.extend_val] at hsum
    rw [dotProduct_comm]
    exact hsum

/-- The vectors orthogonal to the null space are the row space. -/
theorem orthogonal_nullSpace (h : ∀ r ∈ rows, r.length = n) : orthogonal (nullSpace rows n) n = span rows n := by
  ext y
  rw [mem_span_iff, ← span_nullSpace h]
  constructor
  · intro hy w hw
    rw [dotProduct_comm]
    exact mem_span_iff.mp hw y hy
  · intro hy v hv
    rw [dotProduct_comm]
    exact hy _ (toVec_mem_span hv)

theorem orthogonal_append : orthogonal (a ++ b) n = orthogonal a n ⊓ orthogonal b n := by
  ext w
  simp only [Submodule.mem_inf, mem_orthogonal, List.mem_append, or_imp, forall_and]

/-- The intersection of two matrices spans the intersection of their row spaces. -/
theorem span_intersect (ha : ∀ r ∈ a, r.length = n) (hb : ∀ r ∈ b, r.length = n) :
    span (intersect a b n) n = span a n ⊓ span b n := by
  calc span (intersect a b n) n
      = span (nullSpace (nullSpace a n ++ nullSpace b n) n) n := span_ofRows fun _ hv => length_of_mem_nullSpace hv
    _ = orthogonal (nullSpace a n ++ nullSpace b n) n := span_nullSpace length_of_mem_nullSpaces
    _ = orthogonal (nullSpace a n) n ⊓ orthogonal (nullSpace b n) n := orthogonal_append
    _ = span a n ⊓ span b n := by rw [orthogonal_nullSpace ha, orthogonal_nullSpace hb]

/-- The null space is a basis of primitive vectors of the orthogonal complement, as many as the rank leaves of the
columns, and the intersection of two matrices is the reduced basis of the intersection of their row spaces. -/
theorem nullSpace_intersect_exact (n : ℕ) (a b : List Row) (ha : ∀ r ∈ a, r.length = n)
    (hb : ∀ r ∈ b, r.length = n) :
    LinearIndependent ℚ (fun i : Fin (nullSpace a n).length => ((nullSpace a n).get i).toVec n) ∧
      (∀ v ∈ nullSpace a n, v.length = n ∧ v.content = 1) ∧
      (∀ w, w ∈ span (nullSpace a n) n ↔ ∀ r ∈ a, r.toVec n ⬝ᵥ w = 0) ∧
      (nullSpace a n).length = n - finrank ℚ (span a n) ∧
      LinearIndependent ℚ (fun i : Fin (intersect a b n).length => ((intersect a b n).get i).toVec n) ∧
      span (intersect a b n) n = span a n ⊓ span b n ∧
      ∀ c : List Row, (∀ r ∈ c, r.length = n) → span c n = span a n ⊓ span b n →
        intersect a b n = (ofRows c n).rows := by
  refine ⟨linearIndependent_nullSpace ha, fun v hv => ?_, fun w => ?_, ?_, ?_, span_intersect ha hb, fun c hc heq => ?_⟩
  · exact ⟨length_of_mem_nullSpace hv, (isPrimitive_of_mem_nullSpace ha hv).content_eq_one⟩
  · rw [span_nullSpace ha, mem_orthogonal]
  · have hlength := length_nullSpace ha
    omega
  · exact (reduced_ofRows fun _ hv => length_of_mem_nullSpace hv).linearIndependent
  · refine rows_ofRows_eq (fun _ hv => length_of_mem_nullSpace hv) hc ?_
    rw [heq, ← span_intersect ha hb]
    exact (span_ofRows fun _ hv => length_of_mem_nullSpace hv).symm

/-- Two planes that meet in a line, and the equation that two points of the line `x = y` share. -/
theorem nullSpace_intersect_exact_line :
    nullSpace [[2, -2, 0], [0, 3, -3]] 3 = [[1, 1, 1]] ∧
      finrank ℚ (span [[2, -2, 0], [0, 3, -3]] 3) = 2 ∧
      intersect [[1, 0, -1], [0, 1, -1]] [[1, 0, -2], [0, 1, -2]] 3 = [[1, -1, 0]] ∧
      span [[1, -1, 0]] 3 = span [[1, 0, -1], [0, 1, -1]] 3 ⊓ span [[1, 0, -2], [0, 1, -2]] 3 := by
  have hnull : nullSpace [[2, -2, 0], [0, 3, -3]] 3 = [[1, 1, 1]] := by decide
  have hmeet : intersect [[1, 0, -1], [0, 1, -1]] [[1, 0, -2], [0, 1, -2]] 3 = [[1, -1, 0]] := by decide
  obtain ⟨-, -, -, hrank, -⟩ := nullSpace_intersect_exact 3 [[2, -2, 0], [0, 3, -3]] [] (by decide) (by decide)
  obtain ⟨-, -, -, -, -, hspan, -⟩ := nullSpace_intersect_exact 3 [[1, 0, -1], [0, 1, -1]] [[1, 0, -2], [0, 1, -2]]
    (by decide) (by decide)
  rw [hnull] at hrank
  rw [hmeet] at hspan
  refine ⟨hnull, ?_, hmeet, hspan⟩
  simp only [List.length_cons, List.length_nil] at hrank
  omega

end RowSpace

end PathInvariants
