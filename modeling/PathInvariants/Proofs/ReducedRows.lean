import PathInvariants.Proofs.NullSpace

/-!
# Uniqueness of reduced rows

Elimination leaves primitive rows: no integer but a unit divides all entries of one. The pivot columns
of a reduced form are those in which no vector of the null space ends, and the row of a pivot is fixed
by the null space up to a factor, so up to nothing once it is primitive with a positive pivot. Two
reduced forms that vanish at the same vectors are therefore equal.
-/
namespace PathInvariants

/-- Integers divided by their greatest common divisor have only units for common divisors. -/
theorem isUnit_of_dvd_quotients {ι : Type} {a q : ι → ℤ} {g : ℕ} {d : ℤ} (hg : g ≠ 0)
    (hgreatest : ∀ d : ℤ, (∀ i, d ∣ a i) → d ∣ g) (hscale : ∀ i, a i = g * q i) (hd : ∀ i, d ∣ q i) : IsUnit d := by
  -- What divides the quotients divides the greatest common divisor once more.
  have hdvd : (g : ℤ) * d ∣ g := by
    refine hgreatest _ fun i => ?_
    rw [hscale i]
    exact mul_dvd_mul_left _ (hd i)
  have hg' : (g : ℤ) ≠ 0 := by exact_mod_cast hg
  exact isUnit_iff_dvd_one.mpr ((mul_dvd_mul_iff_left hg').mp (by simpa using hdvd))

namespace Row

variable {r s : Row} {c i n : ℕ}

/-- No integer but a unit divides all entries. -/
def IsPrimitive (r : Row) : Prop := ∀ d : ℤ, (∀ i, d ∣ r.entry i) → IsUnit d

theorem dvd_foldl_gcd {d g : ℕ} (hg : d ∣ g) (hr : ∀ x ∈ r, d ∣ x.natAbs) :
    d ∣ r.foldl (fun g x => g.gcd x.natAbs) g := by
  induction r generalizing g with
  | nil => exact hg
  | cons y r ih => exact ih (Nat.dvd_gcd hg (hr y (by simp))) fun x hx => hr x (by simp [hx])

/-- The content is the greatest common divisor of the entries. -/
theorem dvd_content {d : ℤ} (h : ∀ i, d ∣ r.entry i) : d ∣ (r.content : ℤ) := by
  refine Int.dvd_natCast.mpr (dvd_foldl_gcd (dvd_zero _) fun x hx => ?_)
  obtain ⟨i, hi, rfl⟩ := List.getElem_of_mem hx
  have hd := h i
  rw [entry, List.getD_eq_getElem _ _ hi] at hd
  exact Int.natAbs_dvd_natAbs.mpr hd

theorem isPrimitive_primitive (h : r.entry i ≠ 0) : r.primitive.IsPrimitive := by
  have hg : r.content ≠ 0 := fun hzero => h (Int.zero_dvd.mp (by simpa [hzero] using content_dvd_entry r i))
  have hscale : ∀ j, r.entry j = r.content * r.primitive.entry j := by
    intro j
    simp only [primitive]
    split
    · rename_i hone
      simp [hone.resolve_left hg]
    · rw [entry_map (f := (· / (r.content : ℤ))) (Int.zero_ediv _), Int.mul_ediv_cancel' (content_dvd_entry r j)]
  exact fun d hd => isUnit_of_dvd_quotients hg (fun _ => dvd_content) hscale hd

theorem isPrimitive_normalized (h : r.entry c ≠ 0) : (r.normalized c).IsPrimitive := by
  unfold normalized
  split
  · refine isPrimitive_primitive (i := c) ?_
    rw [entry_map neg_zero]
    exact neg_ne_zero.mpr h
  · exact isPrimitive_primitive h

/-- Clearing a column keeps a row primitive, unless nothing is left of it. -/
theorem isPrimitive_eliminate {pivot : Row} (hr : r.IsPrimitive) (h : (eliminate n c pivot r).entry i ≠ 0) :
    (eliminate n c pivot r).IsPrimitive := by
  unfold eliminate at h ⊢
  split
  · exact hr
  · rename_i hc
    rw [if_neg hc] at h
    obtain ⟨g, hg, hscale⟩ := exists_scale_primitive (cancel n c pivot r)
    refine isPrimitive_primitive (i := i) ?_
    rw [hscale]
    exact mul_ne_zero hg.ne' h

/-- A primitive row that is a positive fraction of another primitive row is that row. -/
theorem IsPrimitive.eq_of_proportional (hr : r.IsPrimitive) (hs : s.IsPrimitive) (hlen : r.length = s.length) {a b : ℤ}
    (ha : 0 < a) (hb : 0 < b) (h : ∀ i, b * r.entry i = a * s.entry i) : r = s := by
  have hunit : ∀ {t u : Row} {x y : ℤ}, t.IsPrimitive → 0 < x → 0 < y → (∀ i, y * t.entry i = x * u.entry i) →
      x ∣ y := by
    intro t u x y ht hx hy htu
    -- The part of `x` that is prime to `y` divides all entries.
    obtain ⟨g, x', y', hg, hcop, rfl, rfl⟩ := Int.exists_gcd_one' (Int.gcd_pos_of_ne_zero_left y hx.ne')
    have hg' : (g : ℤ) ≠ 0 := by exact_mod_cast hg.ne'
    have hx' : IsUnit x' := ht x' fun i => by
      have hi : (y' * t.entry i) * g = (x' * u.entry i) * g := by linear_combination htu i
      have hmul : x' ∣ y' * t.entry i := ⟨u.entry i, mul_right_cancel₀ hg' hi⟩
      exact (Int.isCoprime_iff_gcd_eq_one.mpr hcop).dvd_of_dvd_mul_left hmul
    exact mul_dvd_mul_right hx'.dvd _
  have hab : a = b := Int.dvd_antisymm ha.le hb.le (hunit hr ha hb h) (hunit hs hb ha fun i => (h i).symm)
  subst hab
  refine List.ext_getElem hlen fun i hi hi' => ?_
  have heq := mul_left_cancel₀ ha.ne' (h i)
  rwa [entry, entry, List.getD_eq_getElem _ _ hi, List.getD_eq_getElem _ _ hi'] at heq

end Row

namespace Echelon

variable {n c p f : ℕ} {m m' : Echelon} {rows : List Row}

/-- Steps keep the rows with a pivot primitive. -/
theorem isPrimitive_step (hm : Reduced n c m) (h : ∀ r ∈ m.rows, r.IsPrimitive) :
    ∀ r ∈ (step n m c).rows, r.IsPrimitive := by
  by_cases hclear : ∀ r ∈ m.rest, r.entry c = 0
  · rw [step_of_cleared hclear]
    exact h
  · obtain ⟨r, others, hr, hrest, he⟩ := step_of_pivot (n := n) hclear
    have hnext := hm.step
    rw [he] at hnext ⊢
    intro s hs
    -- A row of the next state is not zero at its own pivot.
    obtain ⟨x, hx, rfl⟩ := hnext.mem_rows_iff.mp hs
    have hpos := hnext.positive x hx
    rcases List.mem_append.mp hs with hs | hs
    · obtain ⟨t, ht, heq⟩ := List.mem_map.mp hs
      rw [← heq] at hpos ⊢
      exact Row.isPrimitive_eliminate (h t ht) hpos.ne'
    · rw [List.mem_singleton.mp hs]
      exact Row.isPrimitive_normalized hr

theorem isPrimitive_ofRows (h : ∀ r ∈ rows, r.length = n) : ∀ r ∈ (ofRows rows n).rows, r.IsPrimitive := by
  have hall : ∀ k, ∀ r ∈ ((List.range k).foldl (step n) ⟨[], [], rows⟩).rows, r.IsPrimitive := by
    intro k
    induction k with
    | zero => simp
    | succ k ih =>
      rw [List.range_succ, List.foldl_append, List.foldl_cons, List.foldl_nil]
      exact isPrimitive_step (reduced_columns h k).1 ih
  exact hall n

/-- The null space has no vector that ends in a pivot column. -/
theorem Reduced.eq_zero_of_pivot (hm : Reduced n n m) (hp : p ∈ m.pivots) {w : ℕ → ℚ} (hw : Vanish n m.rows w)
    (hend : ∀ i, p < i → w i = 0) : w p = 0 := by
  obtain ⟨x, hx, rfl⟩ := hm.exists_pivotRow hp
  have hzero := hw x.1 (mem_pivotRows hx).1
  rw [Row.dot, Finset.sum_eq_single_of_mem x.2 (Finset.mem_range.mpr (hm.bounded _ hp))] at hzero
  · have hne : (x.1.entry x.2 : ℚ) ≠ 0 := by exact_mod_cast (hm.positive x hx).ne'
    exact (mul_eq_zero.mp hzero).resolve_left hne
  · intro i _ hi
    rcases lt_or_gt_of_ne hi with hlt | hgt
    · rw [hm.leading x hx i hlt, Int.cast_zero, zero_mul]
    · rw [hend i hgt, mul_zero]

/-- In every other column one ends. -/
theorem Reduced.exists_vanish_of_free (hm : Reduced n n m) (hf : f < n) (hfree : f ∉ m.pivots) :
    ∃ v : ℕ → ℤ, Solves m f v ∧ Vanish n m.rows (fun i => (v i : ℚ)) ∧ ∀ i, f < i → v i = 0 := by
  have hsol := solves_solution hm hf hfree
  refine ⟨_, hsol, hsol.dot_eq_zero hm hf hfree, fun i hi => ?_⟩
  by_cases hp : i ∈ m.pivots
  · obtain ⟨x, hx, rfl⟩ := hm.exists_pivotRow hp
    have hpivot := hsol.pivot x hx
    rw [hm.leading x hx f hi, zero_mul, neg_zero] at hpivot
    exact (mul_eq_zero.mp hpivot).resolve_left (hm.positive x hx).ne'
  · exact hsol.zero i hi.ne' hp

theorem Reduced.pivots_subset (hm : Reduced n n m) (hm' : Reduced n n m')
    (h : ∀ w, Vanish n m'.rows w → Vanish n m.rows w) (hp : p ∈ m.pivots) : p ∈ m'.pivots := by
  by_contra hfree
  obtain ⟨v, hsol, hv, hend⟩ := hm'.exists_vanish_of_free (hm.bounded p hp) hfree
  have hzero := hm.eq_zero_of_pivot hp (h _ hv) fun i hi => by rw [hend i hi, Int.cast_zero]
  exact hsol.free.ne' (by exact_mod_cast hzero)

/-- Rows with one pivot column, of forms that vanish at the same vectors, are proportional. -/
theorem Reduced.proportional (hm : Reduced n n m) (hm' : Reduced n n m') (hpivots : m.pivots = m'.pivots)
    (h : ∀ w, Vanish n m.rows w → Vanish n m'.rows w) {x y : Row × ℕ} (hx : x ∈ m.pivotRows) (hy : y ∈ m'.pivotRows)
    (hxy : x.2 = y.2) (i : ℕ) : y.1.entry y.2 * x.1.entry i = x.1.entry x.2 * y.1.entry i := by
  have hwidth : x.1.length = n ∧ y.1.length = n := ⟨hm.width _ (List.mem_append_left _ (mem_pivotRows hx).1),
    hm'.width _ (List.mem_append_left _ (mem_pivotRows hy).1)⟩
  by_cases hi : i < n
  · by_cases hp : i ∈ m.pivots
    · obtain ⟨u, hu, rfl⟩ := hm.exists_pivotRow hp
      by_cases hcol : x.2 = u.2
      · rw [← hcol, hxy]
        ring
      · obtain ⟨v, hv, hvu⟩ := hm'.exists_pivotRow (hpivots ▸ hp)
        have hcol' : y.2 ≠ v.2 := by rwa [hvu, ← hxy]
        rw [hm.alone x hx u hu hcol, ← hvu, hm'.alone y hy v hv hcol']
        ring
    · -- A free column: one solution serves both rows.
      obtain ⟨v, hsol, hv, -⟩ := hm.exists_vanish_of_free hi hp
      have hx' := hsol.pivot x hx
      have hy' : y.1.entry y.2 * v y.2 = -(y.1.entry i * v i) := by
        have hdot := h _ hv y.1 (mem_pivotRows hy).1
        have hyi : y.2 ≠ i := fun heq => hp (by rw [hpivots, ← heq]; exact (mem_pivotRows hy).2)
        have hyn : y.2 < n := hm'.bounded _ (mem_pivotRows hy).2
        rw [Row.dot, Finset.sum_eq_add_of_mem y.2 i (Finset.mem_range.mpr hyn) (Finset.mem_range.mpr hi) hyi] at hdot
        · have hsum : (y.1.entry y.2 * v y.2 + y.1.entry i * v i : ℤ) = 0 := by exact_mod_cast hdot
          linarith
        · rintro k - ⟨hky, hki⟩
          by_cases hk : k ∈ m'.pivots
          · obtain ⟨z, hz, rfl⟩ := hm'.exists_pivotRow hk
            rw [hm'.alone y hy z hz (Ne.symm hky), Int.cast_zero, zero_mul]
          · rw [hsol.zero k hki (hpivots ▸ hk), Int.cast_zero, mul_zero]
      rw [hxy] at hx' ⊢
      apply mul_right_cancel₀ hsol.free.ne'
      linear_combination y.1.entry y.2 * hx' - x.1.entry y.2 * hy'
  · have hzero : x.1.entry i = 0 ∧ y.1.entry i = 0 :=
      ⟨Row.entry_of_length_le (by omega), Row.entry_of_length_le (by omega)⟩
    rw [hzero.1, hzero.2]
    ring

/-- Reduced forms with primitive rows that vanish at the same vectors are equal. -/
theorem Reduced.rows_eq (hm : Reduced n n m) (hm' : Reduced n n m') (hprim : ∀ r ∈ m.rows, r.IsPrimitive)
    (hprim' : ∀ r ∈ m'.rows, r.IsPrimitive) (h : ∀ w, Vanish n m.rows w ↔ Vanish n m'.rows w) : m.rows = m'.rows := by
  have hpivots : m.pivots = m'.pivots := hm.increasing.eq_of_mem_iff hm'.increasing fun p =>
    ⟨hm.pivots_subset hm' fun w => (h w).mpr, hm'.pivots_subset hm fun w => (h w).mp⟩
  have hlen : m.rows.length = m'.rows.length := by rw [hm.paired, hm'.paired, hpivots]
  refine List.ext_getElem hlen fun k hk hk' => ?_
  have hkp : k < m.pivots.length := hm.paired ▸ hk
  have hkp' : k < m'.pivots.length := hm'.paired ▸ hk'
  have hx : (m.rows[k], m.pivots[k]) ∈ m.pivotRows := by
    rw [pivotRows, ← List.getElem_zip (h := by simp; omega)]
    exact List.getElem_mem _
  have hy : (m'.rows[k], m'.pivots[k]) ∈ m'.pivotRows := by
    rw [pivotRows, ← List.getElem_zip (h := by simp; omega)]
    exact List.getElem_mem _
  have hcol : m.pivots[k] = m'.pivots[k] := by simp only [hpivots]
  have hwidth : m.rows[k].length = m'.rows[k].length := by
    rw [hm.width _ (List.mem_append_left _ (List.getElem_mem hk)), hm'.width _ (List.mem_append_left _ (List.getElem_mem hk'))]
  exact (hprim _ (List.getElem_mem hk)).eq_of_proportional (hprim' _ (List.getElem_mem hk')) hwidth (hm.positive _ hx)
    (hm'.positive _ hy) (hm.proportional hm' hpivots (fun w => (h w).mp) hx hy hcol)

end Echelon

end PathInvariants
