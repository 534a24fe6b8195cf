import PathInvariants.Proofs.RowSolutions

/-!
# Null spaces and intersections of row spaces

The basis vectors of a null space are orthogonal to every row, and a row orthogonal to all of them is
a combination of the pivot rows. So the rows in the intersection of two row spaces vanish wherever
the rows of one of them do, and a row that does so too is spanned by them.
-/
namespace PathInvariants

/-- A row as a rational vector. -/
def Row.vector (v : Row) : ℕ → ℚ := fun i => v.entry i

theorem Row.dot_vector_comm (n : ℕ) (u v : Row) : u.dot n v.vector = v.dot n u.vector := by
  simp only [Row.dot, Row.vector]
  exact Finset.sum_congr rfl fun i _ => mul_comm _ _

namespace Echelon

variable {n f : ℕ} {m : Echelon}

theorem Reduced.map_snd (hm : Reduced n n m) : m.pivotRows.map Prod.snd = m.pivots :=
  List.map_snd_zip hm.paired.ge

theorem Reduced.mem_rows_iff {k : ℕ} (hm : Reduced n k m) {r : Row} : r ∈ m.rows ↔ ∃ x ∈ m.pivotRows, x.1 = r := by
  have hfst : m.pivotRows.map Prod.fst = m.rows := List.map_fst_zip hm.paired.le
  rw [← hfst, List.mem_map]

theorem Reduced.nodup_pivots (hm : Reduced n n m) : m.pivots.Nodup :=
  hm.increasing.imp fun h => h.ne

/-- Pivot rows are told apart by their pivots. -/
theorem Reduced.pivotRows_inj (hm : Reduced n n m) {x y : Row × ℕ} (hx : x ∈ m.pivotRows)
    (hy : y ∈ m.pivotRows) (h : x.2 = y.2) : x = y := by
  have hn : (m.pivotRows.map Prod.snd).Nodup := by
    rw [hm.map_snd]
    exact hm.nodup_pivots
  exact List.inj_on_of_nodup_map hn hx hy h

theorem Reduced.exists_pivotRow (hm : Reduced n n m) {p : ℕ} (hp : p ∈ m.pivots) : ∃ x ∈ m.pivotRows, x.2 = p := by
  rw [← hm.map_snd] at hp
  exact List.mem_map.mp hp

/-- A vector that solves the pivot rows for one free column and is zero in the other ones. -/
structure Solves (m : Echelon) (f : ℕ) (v : ℕ → ℤ) : Prop where
  free : 0 < v f
  pivot : ∀ x ∈ m.pivotRows, x.1.entry x.2 * v x.2 = -(x.1.entry f * v f)
  zero : ∀ k, k ≠ f → k ∉ m.pivots → v k = 0

theorem foldl_lcm_dvd (pairs : List (Row × ℕ)) (l : ℕ) :
    l ∣ pairs.foldl (fun l p => l.lcm (p.1.entry p.2).natAbs) l ∧
      ∀ x ∈ pairs, (x.1.entry x.2).natAbs ∣ pairs.foldl (fun l p => l.lcm (p.1.entry p.2).natAbs) l := by
  induction pairs generalizing l with
  | nil => simp
  | cons y pairs ih =>
    obtain ⟨hl, hp⟩ := ih (l.lcm (y.1.entry y.2).natAbs)
    refine ⟨(Nat.dvd_lcm_left _ _).trans hl, fun x hx => ?_⟩
    rcases List.mem_cons.mp hx with rfl | hx
    · exact (Nat.dvd_lcm_right _ _).trans hl
    · exact hp x hx

theorem foldl_lcm_pos (pairs : List (Row × ℕ)) (h : ∀ x ∈ pairs, x.1.entry x.2 ≠ 0) {l : ℕ} (hl : 0 < l) :
    0 < pairs.foldl (fun l p => l.lcm (p.1.entry p.2).natAbs) l := by
  induction pairs generalizing l with
  | nil => exact hl
  | cons y pairs ih =>
    have hy : 0 < (y.1.entry y.2).natAbs := Int.natAbs_pos.mpr (h y (by simp))
    exact ih (fun x hx => h x (by simp [hx])) (Nat.lcm_pos hl hy)

theorem Solves.of_scale {u v : ℕ → ℤ} {g : ℤ} (hv : Solves m f v) (hg : 0 < g) (h : ∀ k, v k = g * u k) :
    Solves m f u where
  free := by
    have hf := hv.free
    rw [h f] at hf
    exact pos_of_mul_pos_right hf hg.le
  pivot := by
    intro x hx
    have hx := hv.pivot x hx
    rw [h x.2, h f] at hx
    apply mul_left_cancel₀ hg.ne'
    linear_combination hx
  zero := by
    intro k hk hp
    have hz := hv.zero k hk hp
    rw [h k] at hz
    exact (mul_eq_zero.mp hz).resolve_left hg.ne'

theorem entry_map_range (c : ℕ → ℤ) (n k : ℕ) : Row.entry ((List.range n).map c) k = if k < n then c k else 0 := by
  by_cases hk : k < n
  · rw [Row.entry, List.getD_eq_getElem _ _ (by simpa using hk)]
    simp [hk]
  · rw [if_neg hk, Row.entry_of_length_le (by simpa using hk)]

theorem solves_solution (hm : Reduced n n m) (hf : f < n) (hfree : f ∉ m.pivots) :
    Solves m f (m.solution n f).entry := by
  let bound := m.pivotRows.filter fun p => p.1.entry f != 0
  let l : ℕ := bound.foldl (fun l p => l.lcm (p.1.entry p.2).natAbs) 1
  let component (k : ℕ) : ℤ :=
    if k = f then l else (bound.find? fun p => p.2 == k).elim 0 fun p => -p.1.entry f * ((l : ℤ) / p.1.entry k)
  have hbound : ∀ x, x ∈ bound ↔ x ∈ m.pivotRows ∧ x.1.entry f ≠ 0 := fun x => by
    simp [bound, List.mem_filter]
  have hlpos : 0 < l :=
    foldl_lcm_pos bound (fun x hx => (hm.positive x ((hbound x).mp hx).1).ne') one_pos
  have hcomponent : Solves m f (Row.entry ((List.range n).map component)) := by
    refine ⟨?_, fun x hx => ?_, fun k hk hp => ?_⟩
    · rw [entry_map_range, if_pos hf]
      simpa [component] using hlpos
    · have hxn : x.2 < n := hm.bounded _ (mem_pivotRows hx).2
      have hxf : x.2 ≠ f := fun h => hfree (h ▸ (mem_pivotRows hx).2)
      rw [entry_map_range, entry_map_range, if_pos hxn, if_pos hf]
      simp only [component, if_neg hxf, if_true]
      cases hfind : bound.find? (fun p => p.2 == x.2) with
      | none =>
        have hzero : x.1.entry f = 0 := by
          by_contra hne
          have h := List.find?_eq_none.mp hfind x ((hbound x).mpr ⟨hx, hne⟩)
          simp at h
        simp [hzero]
      | some y =>
        have hy := (hbound y).mp (List.mem_of_find?_eq_some hfind)
        have heq : y = x := hm.pivotRows_inj hy.1 hx (by simpa using List.find?_some hfind)
        subst heq
        have hdvd : y.1.entry y.2 ∣ (l : ℤ) :=
          Int.natAbs_dvd_natAbs.mp (by simpa using (foldl_lcm_dvd bound 1).2 y ((hbound y).mpr hy))
        have hmul := Int.mul_ediv_cancel' hdvd
        rw [Option.elim_some]
        linear_combination -(y.1.entry f) * hmul
    · rw [entry_map_range]
      split
      · have hnone : bound.find? (fun p => p.2 == k) = none := by
          refine List.find?_eq_none.mpr fun x hx h => hp ?_
          have hxk : x.2 = k := by simpa using h
          exact hxk ▸ (mem_pivotRows ((hbound x).mp hx).1).2
        simp [component, hk, hnone]
      · rfl
  have hsolution : m.solution n f = Row.primitive ((List.range n).map component) := by
    refine congrArg Row.primitive (List.map_congr_left fun k _ => congrArg (ite (k = f) _) ?_)
    split
    · rename_i hfind
      rw [hfind, Option.elim_some]
    · rename_i hfind
      rw [hfind, Option.elim_none]
  obtain ⟨g, hg, hscale⟩ := Row.exists_scale_primitive ((List.range n).map component)
  rw [hsolution]
  exact hcomponent.of_scale hg hscale

theorem length_solution (m : Echelon) (n f : ℕ) : (m.solution n f).length = n := by
  simp [solution, Row.length_primitive]

/-- A solution for a free column is orthogonal to the pivot rows. -/
theorem Solves.dot_eq_zero {v : Row} (hm : Reduced n n m) (hf : f < n) (hfree : f ∉ m.pivots)
    (hv : Solves m f v.entry) : Vanish n m.rows v.vector := by
  intro r hr
  obtain ⟨x, hx, rfl⟩ := hm.mem_rows_iff.mp hr
  have hxn : x.2 < n := hm.bounded _ (mem_pivotRows hx).2
  have hxf : x.2 ≠ f := fun h => hfree (h ▸ (mem_pivotRows hx).2)
  have hsum : x.1.dot n v.vector = (x.1.entry x.2 : ℚ) * v.entry x.2 + (x.1.entry f : ℚ) * v.entry f := by
    refine Finset.sum_eq_add_of_mem x.2 f (Finset.mem_range.mpr hxn) (Finset.mem_range.mpr hf) hxf ?_
    rintro k - ⟨hkx, hkf⟩
    by_cases hk : k ∈ m.pivots
    · obtain ⟨y, hy, rfl⟩ := hm.exists_pivotRow hk
      rw [hm.alone x hx y hy (Ne.symm hkx)]
      simp
    · simp [Row.vector, hv.zero k hkf hk]
  have hpivot : (x.1.entry x.2 : ℚ) * v.entry x.2 = -((x.1.entry f : ℚ) * v.entry f) := by
    exact_mod_cast hv.pivot x hx
  rw [hsum, hpivot]
  ring

/-- A scalar product with a solution has one term for the free column and one for each pivot. -/
theorem Solves.sum_eq {v : ℕ → ℤ} (hm : Reduced n n m) (hf : f < n) (hfree : f ∉ m.pivots)
    (hv : Solves m f v) (y : ℕ → ℚ) :
    ∑ i ∈ Finset.range n, y i * v i = y f * v f + ∑ x ∈ m.pivotRows.toFinset, y x.2 * v x.2 := by
  have himage : m.pivotRows.toFinset.image Prod.snd = m.pivots.toFinset := by
    rw [← hm.map_snd]
    ext k
    simp
  have hsub : insert f m.pivots.toFinset ⊆ Finset.range n := by
    intro k hk
    rcases Finset.mem_insert.mp hk with rfl | hk
    · exact Finset.mem_range.mpr hf
    · exact Finset.mem_range.mpr (hm.bounded k (List.mem_toFinset.mp hk))
  have hrest : ∀ k ∈ Finset.range n, k ∉ insert f m.pivots.toFinset → y k * v k = 0 := by
    intro k _ hk
    rw [Finset.mem_insert, not_or, List.mem_toFinset] at hk
    simp [hv.zero k hk.1 hk.2]
  rw [← Finset.sum_subset hsub hrest, Finset.sum_insert (by simpa using hfree), ← himage,
    Finset.sum_image]
  intro x hx z hz h
  exact hm.pivotRows_inj (List.mem_toFinset.mp hx) (List.mem_toFinset.mp hz) h

/-- A vector orthogonal to a solution for each free column is a combination of the pivot rows. -/
theorem combination_of_orthogonal (hm : Reduced n n m) {v : ℕ → ℕ → ℤ}
    (hv : ∀ f < n, f ∉ m.pivots → Solves m f (v f)) {y : ℕ → ℚ}
    (hy : ∀ f < n, f ∉ m.pivots → ∑ i ∈ Finset.range n, y i * v f i = 0) {i : ℕ} (hi : i < n) :
    y i = ∑ x ∈ m.pivotRows.toFinset, y x.2 / x.1.entry x.2 * x.1.entry i := by
  have hpos : ∀ x ∈ m.pivotRows, (x.1.entry x.2 : ℚ) ≠ 0 := fun x hx => by
    exact_mod_cast (hm.positive x hx).ne'
  by_cases hp : i ∈ m.pivots
  · obtain ⟨x, hx, rfl⟩ := hm.exists_pivotRow hp
    rw [Finset.sum_eq_single_of_mem x (List.mem_toFinset.mpr hx)]
    · rw [div_mul_cancel₀ _ (hpos x hx)]
    · intro z hz hne
      have hz := List.mem_toFinset.mp hz
      have hcol : z.2 ≠ x.2 := fun h => hne (hm.pivotRows_inj hz hx h)
      rw [hm.alone z hz x hx hcol]
      simp
  · have hsol := hv i hi hp
    have hfree : (v i i : ℚ) ≠ 0 := by exact_mod_cast hsol.free.ne'
    have hzero := hy i hi hp
    rw [hsol.sum_eq hm hi hp] at hzero
    -- Each pivot entry of the solution is fixed by the free one, which then cancels.
    have hterm : ∑ x ∈ m.pivotRows.toFinset, y x.2 * v i x.2 =
        -(v i i * ∑ x ∈ m.pivotRows.toFinset, y x.2 / x.1.entry x.2 * x.1.entry i) := by
      rw [Finset.mul_sum, ← Finset.sum_neg_distrib]
      refine Finset.sum_congr rfl fun x hx => ?_
      have hx := List.mem_toFinset.mp hx
      have hpivot : (x.1.entry x.2 : ℚ) * v i x.2 = -((x.1.entry i : ℚ) * v i i) := by
        exact_mod_cast hsol.pivot x hx
      have hne := hpos x hx
      field_simp
      linear_combination y x.2 * hpivot
    rw [hterm] at hzero
    apply mul_left_cancel₀ hfree
    linear_combination hzero

end Echelon

namespace RowSpace

open PathInvariants.Echelon

variable {n : ℕ} {rows : List Row}

theorem mem_nullSpace {v : Row} : v ∈ nullSpace rows n ↔
    ∃ f < n, f ∉ (Echelon.ofRows rows n).pivots ∧ v = (Echelon.ofRows rows n).solution n f := by
  simp only [nullSpace, List.mem_map, List.mem_filter, List.mem_range]
  constructor
  · rintro ⟨f, ⟨hf, hp⟩, rfl⟩
    exact ⟨f, hf, by simpa using hp, rfl⟩
  · rintro ⟨f, hf, hp, rfl⟩
    exact ⟨f, ⟨hf, by simpa using hp⟩, rfl⟩

theorem length_of_mem_nullSpace {v : Row} (hv : v ∈ nullSpace rows n) : v.length = n := by
  obtain ⟨f, -, -, rfl⟩ := mem_nullSpace.mp hv
  exact length_solution _ _ _

/-- The rows vanish at the vectors of their null space. -/
theorem vanish_of_mem_nullSpace (h : ∀ r ∈ rows, r.length = n) {v : Row} (hv : v ∈ nullSpace rows n) :
    Vanish n rows v.vector := by
  obtain ⟨f, hf, hfree, rfl⟩ := mem_nullSpace.mp hv
  have hm := reduced_ofRows h
  exact (vanish_ofRows h _).mp ((solves_solution hm hf hfree).dot_eq_zero hm hf hfree)

/-- A vector orthogonal to the null space of some rows is orthogonal to all vectors at which they vanish. -/
theorem sum_of_orthogonal (h : ∀ r ∈ rows, r.length = n) {y : ℕ → ℚ} (hy : Vanish n (nullSpace rows n) y)
    {w : ℕ → ℚ} (hw : Vanish n rows w) : ∑ i ∈ Finset.range n, y i * w i = 0 := by
  let m := Echelon.ofRows rows n
  have hm : Reduced n n m := reduced_ofRows h
  have hrows : Vanish n m.rows w := (vanish_ofRows h w).mpr hw
  have horth : ∀ f < n, f ∉ m.pivots → ∑ i ∈ Finset.range n, y i * ((m.solution n f).entry i : ℚ) = 0 := by
    intro f hf hfree
    have h0 := hy (m.solution n f) (mem_nullSpace.mpr ⟨f, hf, hfree, rfl⟩)
    rw [← h0]
    exact Finset.sum_congr rfl fun i _ => mul_comm _ _
  have hcomb : ∀ i < n, y i = ∑ x ∈ m.pivotRows.toFinset, y x.2 / x.1.entry x.2 * x.1.entry i :=
    fun i hi => combination_of_orthogonal hm (fun f hf hfree => solves_solution hm hf hfree) horth hi
  calc ∑ i ∈ Finset.range n, y i * w i
      = ∑ i ∈ Finset.range n, ∑ x ∈ m.pivotRows.toFinset, y x.2 / x.1.entry x.2 * (x.1.entry i * w i) := by
        refine Finset.sum_congr rfl fun i hi => ?_
        rw [hcomb i (Finset.mem_range.mp hi), Finset.sum_mul]
        exact Finset.sum_congr rfl fun x _ => by ring
    _ = ∑ x ∈ m.pivotRows.toFinset, y x.2 / x.1.entry x.2 * x.1.dot n w := by
        rw [Finset.sum_comm]
        exact Finset.sum_congr rfl fun x _ => by rw [Row.dot, Finset.mul_sum]
    _ = 0 := by
        refine Finset.sum_eq_zero fun x hx => ?_
        rw [hrows x.1 (mem_pivotRows (List.mem_toFinset.mp hx)).1, mul_zero]

theorem length_of_mem_nullSpaces {a b : List Row} : ∀ v ∈ nullSpace a n ++ nullSpace b n, v.length = n := by
  intro v hv
  rcases List.mem_append.mp hv with hv | hv <;> exact length_of_mem_nullSpace hv

/-- The intersection of two row spaces vanishes where the rows of one side do. -/
theorem vanish_intersect {a b : List Row} (ha : ∀ r ∈ a, r.length = n) (hb : ∀ r ∈ b, r.length = n) {w : ℕ → ℚ}
    (hw : Vanish n a w ∨ Vanish n b w) : Vanish n (intersect a b n) w := by
  refine (vanish_ofRows (fun _ hv => length_of_mem_nullSpace hv) w).mpr fun y hy => ?_
  have horth : Vanish n (nullSpace a n ++ nullSpace b n) y.vector := vanish_of_mem_nullSpace length_of_mem_nullSpaces hy
  rcases hw with hw | hw
  · exact sum_of_orthogonal ha (fun v hv => horth v (List.mem_append_left _ hv)) hw
  · exact sum_of_orthogonal hb (fun v hv => horth v (List.mem_append_right _ hv)) hw

/-- A row that vanishes where the rows of either side do vanishes where the intersection of the row spaces does. -/
theorem dot_of_intersect {a b : List Row} (ha : ∀ r ∈ a, r.length = n) (hb : ∀ r ∈ b, r.length = n) {y : Row}
    (hy : ∀ w, Vanish n a w ∨ Vanish n b w → y.dot n w = 0) {w : ℕ → ℚ} (hw : Vanish n (intersect a b n) w) :
    y.dot n w = 0 := by
  -- The row is orthogonal to both null spaces, and `w` to all that is.
  have horth : Vanish n (nullSpace a n ++ nullSpace b n) y.vector := by
    intro v hv
    rw [Row.dot_vector_comm]
    refine hy _ ((List.mem_append.mp hv).imp (vanish_of_mem_nullSpace ha) (vanish_of_mem_nullSpace hb))
  have hw' := (vanish_ofRows (fun _ hv => length_of_mem_nullSpace hv) w).mp hw
  have hsum := sum_of_orthogonal length_of_mem_nullSpaces hw' horth
  rw [← hsum]
  exact Finset.sum_congr rfl fun i _ => mul_comm _ _

end RowSpace

end PathInvariants
