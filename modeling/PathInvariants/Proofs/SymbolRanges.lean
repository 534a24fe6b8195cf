import PathInvariants.Proofs.ValueOrder

/-!
# Ranges of single symbols

Estimates of the range that an operation leaves a symbol. A join stays below every common bound, a
widening keeps a range that its second operand does not leave, and an assignment gives its symbol no
more than the range of the expression and leaves the other ranges no larger than they are. Ranges of
expressions are exact at rational points, and so is what an equation leaves of the range of an integer.
-/
namespace PathInvariants

namespace Interval

variable {i j k : Interval} {q : ℚ}

theorem leq_refl (i : Interval) : i.leq i = true := leq_iff.mpr fun _ h => h

theorem leq_trans (hij : i.leq j = true) (hjk : j.leq k = true) : i.leq k = true :=
  leq_iff.mpr fun n hn => leq_iff.mp hjk n (leq_iff.mp hij n hn)

theorem leq_of_mem {a b : ℤ} (ha : a ∈ j) (hb : b ∈ j) (h : i.leq (closed a b) = true) : i.leq j = true := by
  refine leq_trans h (leq_iff.mpr fun n hn => ?_)
  rw [mem_closed] at hn
  exact mem_of_le_of_le ha hb hn.1 hn.2

theorem make_leq {lo hi l h : Option ℤ} {o : boundsOrdered l h = true} (hlo : lowerLe l lo = true)
    (hhi : upperLe hi h = true) : (make lo hi).leq (range l h o) = true := by
  unfold make
  split
  · simp only [leq, hlo, hhi, Bool.and_self]
  · rfl

theorem join_leq (hi : i.leq k = true) (hj : j.leq k = true) : (i.join j).leq k = true := by
  cases j with
  | bottom => cases i <;> exact hi
  | range l₂ h₂ o₂ =>
    cases i with
    | bottom => exact hj
    | range l₁ h₁ o₁ =>
      cases k with
      | bottom => cases hi
      | range l h o =>
        simp only [leq, Bool.and_eq_true] at hi hj
        apply make_leq
        · split
          · exact hi.1
          · exact hj.1
        · split
          · exact hi.2
          · exact hj.2

/-- A widening keeps what its second operand does not leave. -/
theorem widenTo_leq {lower upper : List ℤ} (h : j.leq i = true) : (widenTo lower upper i j).leq i = true := by
  cases i with
  | bottom => exact h
  | range l₁ h₁ o₁ =>
    cases j with
    | bottom => exact leq_refl _
    | range l₂ h₂ o₂ =>
      simp only [leq, Bool.and_eq_true] at h
      rw [widenTo, if_pos h.1, if_pos h.2, make, dif_pos o₁]
      exact leq_refl _

/-- The upper bound of a range moves with the range. -/
theorem add_point_leq {c : ℤ} (h : i.leq (atMost c) = true) (n : ℤ) :
    ((point n).add (i.scale 1)).leq (atMost (c + n)) = true := by
  cases i with
  | bottom => cases hn : point n <;> rfl
  | range lo hi o =>
    obtain ⟨u, rfl, hu⟩ : ∃ u, hi = some u ∧ u ≤ c := by
      cases hi <;> simp [leq, atMost, make, boundsOrdered, lowerLe, upperLe] at h ⊢
      exact h
    cases lo with
    | none => simp [leq, atMost, make, boundsOrdered, lowerLe, upperLe, scale, add, point, addBounds]; omega
    | some l =>
      have hl : l ≤ u := by simpa [boundsOrdered] using o
      simp [leq, atMost, make, boundsOrdered, lowerLe, upperLe, scale, add, point, addBounds, hl]
      omega

/-- Every rational between the bounds lies between two integers of the range. -/
theorem admits_range {lo hi : Option ℤ} {o : boundsOrdered lo hi = true} :
    (range lo hi o).Admits q ↔ (∀ l ∈ lo, (l : ℚ) ≤ q) ∧ ∀ h ∈ hi, q ≤ h := by
  constructor
  · rintro ⟨a, b, ha, hb, haq, hqb⟩
    rw [mem_range] at ha hb
    constructor
    · rintro l rfl
      exact le_trans (Int.cast_le.mpr ha.1) haq
    · rintro h rfl
      exact le_trans hqb (Int.cast_le.mpr hb.2)
  · rintro ⟨hlo, hhi⟩
    refine ⟨⌊q⌋, ⌈q⌉, mem_range.mpr ⟨?_, ?_⟩, mem_range.mpr ⟨?_, ?_⟩, Int.floor_le q, Int.le_ceil q⟩
    · cases lo with
      | none => trivial
      | some l => exact Int.le_floor.mpr (hlo l rfl)
    · cases hi with
      | none => trivial
      | some h => exact Int.cast_le.mp ((Int.floor_le q).trans (hhi h rfl))
    · cases lo with
      | none => trivial
      | some l => exact Int.cast_le.mp ((hlo l rfl).trans (Int.le_ceil q))
    · cases hi with
      | none => trivial
      | some h => exact Int.ceil_le.mpr (hhi h rfl)

theorem bounds_of_admits_make {lo hi : Option ℤ} (h : (make lo hi).Admits q) :
    (∀ l ∈ lo, (l : ℚ) ≤ q) ∧ ∀ h ∈ hi, q ≤ h := by
  unfold make at h
  split at h
  · exact admits_range.mp h
  · exact absurd h (not_admits_bottom q)

theorem exists_between (s t : Finset ℚ) (h : ∀ a ∈ s, ∀ b ∈ t, a ≤ b) : ∃ p, (∀ a ∈ s, a ≤ p) ∧ ∀ b ∈ t, p ≤ b := by
  rcases s.eq_empty_or_nonempty with rfl | hs
  · obtain ⟨p, hp⟩ := t.bddBelow
    exact ⟨p, by simp, fun b hb => hp hb⟩
  · exact ⟨s.max' hs, s.le_max', fun b hb => h _ (s.max'_mem hs) b hb⟩

/-- Every element of a sum of ranges is a sum of elements. -/
theorem exists_of_admits_add (h : (i.add j).Admits q) : ∃ p, i.Admits p ∧ j.Admits (q - p) := by
  cases i with
  | bottom => exact absurd h (not_admits_bottom q)
  | range l₁ h₁ o₁ =>
    cases j with
    | bottom => exact absurd h (not_admits_bottom q)
    | range l₂ h₂ o₂ =>
      obtain ⟨hlo, hhi⟩ := bounds_of_admits_make h
      have hordered : ∀ {lo hi : Option ℤ}, boundsOrdered lo hi = true → ∀ a ∈ lo, ∀ b ∈ hi, (a : ℚ) ≤ b := by
        rintro _ _ ho a rfl b rfl
        simpa [boundsOrdered] using ho
      have hl : ∀ a ∈ l₁, ∀ c ∈ l₂, (a : ℚ) + c ≤ q := by
        rintro a rfl c rfl
        exact_mod_cast hlo (a + c) rfl
      have hh : ∀ b ∈ h₁, ∀ d ∈ h₂, q ≤ (b : ℚ) + d := by
        rintro b rfl d rfl
        exact_mod_cast hhi (b + d) rfl
      -- Both ranges bound the first of the two elements.
      obtain ⟨p, hlower, hupper⟩ := exists_between ((l₁.map (Int.cast : ℤ → ℚ)).toFinset ∪ (h₂.map fun d : ℤ => q - d).toFinset)
        ((h₁.map (Int.cast : ℤ → ℚ)).toFinset ∪ (l₂.map fun c : ℤ => q - c).toFinset) (by
          simp only [Finset.mem_union, Option.mem_toFinset, Option.mem_map]
          rintro _ (⟨a, ha, rfl⟩ | ⟨d, hd, rfl⟩) _ (⟨b, hb, rfl⟩ | ⟨c, hc, rfl⟩)
          · exact hordered o₁ a ha b hb
          · linarith [hl a ha c hc]
          · linarith [hh b hb d hd]
          · linarith [hordered o₂ c hc d hd])
      simp only [Finset.mem_union, Option.mem_toFinset, Option.mem_map] at hlower hupper
      refine ⟨p, admits_range.mpr ⟨fun a ha => hlower _ (.inl ⟨a, ha, rfl⟩), fun b hb => hupper _ (.inl ⟨b, hb, rfl⟩)⟩,
        admits_range.mpr ⟨fun c hc => ?_, fun d hd => ?_⟩⟩
      · linarith [hupper _ (.inr ⟨c, hc, rfl⟩)]
      · linarith [hlower _ (.inr ⟨d, hd, rfl⟩)]

/-- Every element of a scaled range is a multiple of an element. -/
theorem exists_of_admits_scale {c : ℤ} (h : (i.scale c).Admits q) : ∃ p, i.Admits p ∧ p * c = q := by
  cases i with
  | bottom => exact absurd h (not_admits_bottom q)
  | range lo hi o =>
    rcases lt_trichotomy c 0 with hc | rfl | hc
    · have hc' : (c : ℚ) < 0 := by exact_mod_cast hc
      rw [scale, if_neg hc.ne, if_neg hc.not_gt] at h
      obtain ⟨hlo, hhi⟩ := bounds_of_admits_make h
      refine ⟨q / c, admits_range.mpr ⟨?_, ?_⟩, div_mul_cancel₀ q hc'.ne⟩
      · rintro l rfl
        rw [le_div_iff_of_neg hc']
        exact_mod_cast hhi (l * c) rfl
      · rintro u rfl
        rw [div_le_iff_of_neg hc']
        exact_mod_cast hlo (u * c) rfl
    · obtain ⟨n, hn⟩ := exists_mem (i := range lo hi o) Interval.noConfusion
      rw [scale, if_pos rfl] at h
      exact ⟨n, admits_of_mem hn, by simp [eq_of_singleton (c := 0) (by simp [point, make, boundsOrdered, singleton?]) h]⟩
    · have hc' : (0 : ℚ) < c := by exact_mod_cast hc
      rw [scale, if_neg hc.ne.symm, if_pos hc] at h
      obtain ⟨hlo, hhi⟩ := bounds_of_admits_make h
      refine ⟨q / c, admits_range.mpr ⟨?_, ?_⟩, div_mul_cancel₀ q hc'.ne.symm⟩
      · rintro l rfl
        rw [le_div_iff₀ hc']
        exact_mod_cast hlo (l * c) rfl
      · rintro u rfl
        rw [div_le_iff₀ hc']
        exact_mod_cast hhi (u * c) rfl

end Interval

namespace Box

variable {a b : Box} {s t : Symbol} {i : Interval} {e : LinearExpr} {integral : Symbol → Bool}

theorem get_leq_of_admits (h : ∀ m, a.Admits m → b.Admits m) (s : Symbol) :
    (a.get s).leq (b.get s) = true := get_leq (leq_iff_admits.mpr h) s

theorem get_make_leq (f : Sparse Interval.top) (s : Symbol) : ((make f).get s).leq (f.get s) = true := by
  unfold make
  split
  · exact Interval.leq_refl _
  · rfl

theorem get_set_leq (b : Box) (s t : Symbol) (i : Interval) :
    ((b.set s i).get t).leq (if t = s then i else b.get t) = true := by
  cases b with
  | bottom => rfl
  | ranges f hf =>
    have hle := get_make_leq (f.set s i) t
    rwa [Sparse.get_set] at hle

theorem get_forget_leq (b : Box) (h : t ≠ s) : ((b.forget s).get t).leq (b.get t) = true := by
  have hle := get_set_leq b s t .top
  rwa [if_neg h] at hle

theorem get_join_leq (ha : (a.get s).leq i = true) (hb : (b.get s).leq i = true) :
    ((a.join b).get s).leq i = true := by
  cases a with
  | bottom => exact hb
  | ranges f hf =>
    cases b with
    | bottom => exact ha
    | ranges g hg =>
      rw [join, above_ranges Interval.absorbing_join]
      refine Interval.leq_trans (get_make_leq _ s) ?_
      rw [Sparse.get_zipWith (Interval.absorbing_join.left _)]
      exact Interval.join_leq ha hb

theorem get_widenTo_leq {lower upper : Symbol → List ℤ} (h : (b.get s).leq (a.get s) = true) :
    ((widenTo lower upper a b).get s).leq (a.get s) = true := by
  cases a with
  | bottom => exact h
  | ranges f hf =>
    cases b with
    | bottom => exact Interval.leq_refl _
    | ranges g hg =>
      refine Interval.leq_trans (get_make_leq _ s) ?_
      rw [Sparse.get_ofFn]
      split
      · exact Interval.widenTo_leq h
      · rename_i hs
        change (Interval.top).leq (f.get s) = true
        rw [Sparse.get_eq_default hs]
        exact Interval.leq_refl _

/-- Every element of a range is the value of the symbol at some integer point of the box. -/
theorem exists_int_of_mem_get {n : ℤ} (hn : n ∈ b.get s) : ∃ m : Symbol → ℤ, (∀ t, m t ∈ b.get t) ∧ m s = n := by
  have hb : b ≠ bottom := by
    rintro rfl
    exact Interval.not_mem_bottom hn
  choose m hm using fun t => Interval.exists_mem (get_ne_bottom hb t)
  refine ⟨Function.update m s n, fun t => ?_, Function.update_self ..⟩
  by_cases hts : t = s
  · subst hts
    rwa [Function.update_self]
  · rw [Function.update_of_ne hts]
    exact hm t

theorem exists_of_mem_get {n : ℤ} (hn : n ∈ b.get s) : ∃ m, b.Admits m ∧ m s = n := by
  obtain ⟨m, hm, rfl⟩ := exists_int_of_mem_get hn
  exact ⟨fun t => (m t : ℚ), fun t => Interval.admits_of_mem (hm t), rfl⟩

theorem exists_admits (hb : b ≠ bottom) : ∃ m, b.Admits m := by
  obtain ⟨n, hn⟩ := Interval.exists_mem (get_ne_bottom hb "")
  obtain ⟨m, hm, -⟩ := exists_of_mem_get hn
  exact ⟨m, hm⟩

theorem Admits.update {m : Valuation} (h : b.Admits m) {q : ℚ} (hq : (b.get s).Admits q) :
    b.Admits (Function.update m s q) := by
  intro t
  by_cases hts : t = s
  · subst hts
    rwa [Function.update_self]
  · rw [Function.update_of_ne hts]
    exact h t

/-- Every element of the range of an expression is its value at some point of the box. -/
theorem exists_of_admits_rangeOf (hb : b ≠ bottom) {q : ℚ} (h : (b.rangeOf e).Admits q) :
    ∃ m, b.Admits m ∧ e.value m = q := by
  have hfold : ∀ (ts : List (Symbol × ℤ)), (ts.map (·.1)).Nodup → ∀ (i : Interval) (q : ℚ),
      (ts.foldl (fun i t => i.add ((b.get t.1).scale t.2)) i).Admits q →
      ∃ m p, b.Admits m ∧ i.Admits p ∧ p + (ts.map fun t => (t.2 : ℚ) * m t.1).sum = q := by
    intro ts
    induction ts with
    | nil =>
      intro _ i q hq
      obtain ⟨m, hm⟩ := exists_admits hb
      exact ⟨m, q, hm, hq, by simp⟩
    | cons t ts ih =>
      intro hnodup i q hq
      rw [List.map_cons, List.nodup_cons] at hnodup
      obtain ⟨m, p, hm, hp, hsum⟩ := ih hnodup.2 _ q hq
      obtain ⟨p₁, hp₁, hp₂⟩ := Interval.exists_of_admits_add hp
      obtain ⟨x, hx, hxp⟩ := Interval.exists_of_admits_scale hp₂
      refine ⟨Function.update m t.1 x, p₁, hm.update hx, hp₁, ?_⟩
      -- The other terms do not mention the symbol.
      have hrest : ts.map (fun u => (u.2 : ℚ) * Function.update m t.1 x u.1) = ts.map fun u => (u.2 : ℚ) * m u.1 := by
        refine List.map_congr_left fun u hu => ?_
        rw [Function.update_of_ne]
        rintro heq
        exact hnodup.1 (heq ▸ List.mem_map_of_mem hu)
      rw [List.map_cons, List.sum_cons, Function.update_self, hrest]
      linarith
  obtain ⟨m, p, hm, hp, hsum⟩ := hfold e.terms e.nodup_symbols _ q h
  obtain ⟨a, c, ha, hc, hap, hpc⟩ := hp
  rw [Interval.mem_point] at ha hc
  subst ha hc
  exact ⟨m, hm, by rw [LinearExpr.value, ← hsum, le_antisymm hpc hap, add_comm]⟩

/-- What an equation leaves of the range of an integer is attained by its solutions. -/
theorem exists_of_mem_tighten {n : ℤ} (hs : e.coeff s ≠ 0) (hint : integral s = true)
    (hn : n ∈ (b.tighten integral e .eq s (e.coeff s)).get s) : ∃ m, b.Admits m ∧ m s = n ∧ e.value m = 0 := by
  have hb : b ≠ bottom := by
    rintro rfl
    exact Interval.not_mem_bottom hn
  have hle := Interval.leq_iff.mp (get_set_leq b s s _) n hn
  rw [if_pos rfl, Interval.mem_meet, hint, Interval.mem_divide hs] at hle
  obtain ⟨p, hp, hpn⟩ := Interval.exists_of_admits_scale (Interval.admits_of_mem hle.2)
  obtain ⟨m, hm, hvalue⟩ := exists_of_admits_rangeOf hb hp
  refine ⟨Function.update m s n, hm.update (Interval.admits_of_mem hle.1), Function.update_self .., ?_⟩
  rw [LinearExpr.value_without] at hvalue
  rw [LinearExpr.value_update_eq]
  push_cast at hpn
  linarith

theorem exists_of_mem_propagate {n : ℤ} (hs : e.coeff s ≠ 0) (hint : integral s = true)
    (hn : n ∈ (b.propagate integral e .eq).get s) : ∃ m, b.Admits m ∧ m s = n ∧ e.value m = 0 := by
  have hfold : ∀ ts : List (Symbol × ℤ), (s, e.coeff s) ∈ ts → ∀ b : Box,
      n ∈ (ts.foldl (fun b t => b.tighten integral e .eq t.1 t.2) b).get s →
      ∃ m, b.Admits m ∧ m s = n ∧ e.value m = 0 := by
    intro ts
    induction ts with
    | nil => exact fun h => absurd h List.not_mem_nil
    | cons t ts ih =>
      intro hmem b hn
      rw [List.foldl_cons] at hn
      rcases List.mem_cons.mp hmem with rfl | hmem'
      · exact exists_of_mem_tighten hs hint
          (Interval.leq_iff.mp (get_leq_of_admits (fun _ => admits_of_foldl_tighten) s) n hn)
      · obtain ⟨m, hm, hmn, hvalue⟩ := ih hmem' _ hn
        exact ⟨m, admits_of_admits_update_meet hm, hmn, hvalue⟩
  exact hfold e.terms (Sparse.mem_entries.mpr ⟨rfl, hs⟩) b hn

end Box

namespace Value

variable {v w : Value} {s t : Symbol} {i : Interval} {e : LinearExpr}

theorem get_joinAligned_leq (hv : (v.box.get s).leq i = true) (hw : (w.box.get s).leq i = true) :
    ((v.joinAligned w).box.get s).leq i = true := by
  unfold joinAligned
  split
  · exact hv
  · split
    · exact hw
    · exact Box.get_join_leq hv hw

theorem get_widenAligned_leq {thresholds : List LinearConstraint} (h : (w.box.get s).leq (v.box.get s) = true) :
    ((widenAligned thresholds v w).box.get s).leq (v.box.get s) = true := by
  unfold widenAligned
  split
  · exact Interval.leq_refl _
  · split
    · exact h
    · exact Box.get_widenTo_leq (Box.get_join_leq (Interval.leq_refl _) h)

/-- Reduction only tightens the box. -/
theorem admits_of_admits_reduce {m : Valuation} (h : v.reduce.box.Admits m) : v.box.Admits m := by
  unfold reduce at h
  dsimp only at h
  split at h
  · exact absurd h (Box.not_admits_bottom m)
  · split at h
    · exact h
    · split at h
      · exact absurd h (Box.not_admits_bottom m)
      · split at h
        · exact absurd h (Box.not_admits_bottom m)
        · exact admits_of_foldl_propagate h

theorem get_reduce_leq (v : Value) (s : Symbol) : (v.reduce.box.get s).leq (v.box.get s) = true :=
  Box.get_leq_of_admits (fun _ => admits_of_admits_reduce) s

/-- What the equalities leave of the range of an integer is attained by the solutions of each of them. -/
theorem exists_of_mem_reduce {n : ℤ} (hr : v.isRelational = true) (he : e ∈ v.allEqualities.rows) (hs : e.coeff s ≠ 0)
    (hint : v.isIntegral s = true) (hn : n ∈ v.reduce.box.get s) : ∃ m, v.box.Admits m ∧ m s = n ∧ e.value m = 0 := by
  have hfold : ∀ rows : List LinearExpr, e ∈ rows → ∀ b : Box,
      n ∈ (rows.foldl (fun b row => b.propagate v.isIntegral row .eq) b).get s →
      ∃ m, b.Admits m ∧ m s = n ∧ e.value m = 0 := by
    intro rows
    induction rows with
    | nil => exact fun h => absurd h List.not_mem_nil
    | cons f rows ih =>
      intro hmem b hn
      rw [List.foldl_cons] at hn
      rcases List.mem_cons.mp hmem with rfl | hmem'
      · exact Box.exists_of_mem_propagate hs hint
          (Interval.leq_iff.mp (Box.get_leq_of_admits (fun _ => admits_of_foldl_propagate) s) n hn)
      · obtain ⟨m, hm, hmn, hvalue⟩ := ih hmem' _ hn
        exact ⟨m, Box.admits_of_admits_propagate hm, hmn, hvalue⟩
  unfold reduce at hn
  dsimp only at hn
  split at hn
  · exact absurd hn Interval.not_mem_bottom
  · rw [if_neg (by simp [hr])] at hn
    split at hn
    · exact absurd hn Interval.not_mem_bottom
    · split at hn
      · exact absurd hn Interval.not_mem_bottom
      · exact hfold _ he v.box hn

theorem get_meet_leq {u : Value} (h : v.meet w = .ok u) (s : Symbol) : (u.box.get s).leq (v.box.get s) = true := by
  obtain ⟨env, -, rfl⟩ := meet_eq h
  split
  · exact Interval.leq_refl _
  · exact Interval.leq_trans (get_reduce_leq _ s) (Box.get_leq_of_admits (fun m hm => (Box.admits_meet.mp hm).1) s)

theorem get_assign_leq (v : Value) (s t : Symbol) (e : LinearExpr) :
    ((v.assign s e).box.get t).leq (if t = s then v.box.rangeOf e else v.box.get t) = true := by
  unfold assign
  dsimp only
  by_cases hb : (v.track (e + .var s)).isBottom = true
  · have hbox : v.box = .bottom := Box.isBottom_iff.mp hb
    rw [if_pos hb, track, hbox]
    rfl
  · rw [if_neg hb]
    refine Interval.leq_trans (get_reduce_leq _ t) (Interval.leq_trans (Box.get_set_leq _ s t _) ?_)
    by_cases hts : t = s
    · rw [if_pos hts, if_pos hts]
      exact Interval.leq_refl _
    · rw [if_neg hts, if_neg hts]
      exact Box.get_forget_leq v.box hts

theorem get_assign_self_leq (v : Value) (s : Symbol) (e : LinearExpr) :
    ((v.assign s e).box.get s).leq (v.box.rangeOf e) = true := by
  have h := get_assign_leq v s s e
  rwa [if_pos rfl] at h

theorem get_assign_of_ne_leq (v : Value) (h : t ≠ s) (e : LinearExpr) :
    ((v.assign s e).box.get t).leq (v.box.get t) = true := by
  have hle := get_assign_leq v s t e
  rwa [if_neg h] at hle

theorem get_withEnv_leq {env : Environment} (h : env.contains s = true) :
    ((v.withEnv env).box.get s).leq (v.box.get s) = true := by
  have hfold : ∀ l : List Symbol, s ∉ l → ∀ u : Value, ((l.foldl forget u).box.get s).leq (u.box.get s) = true := by
    intro l hl
    induction l with
    | nil => exact fun u => Interval.leq_refl _
    | cons t l ih =>
      intro u
      rw [List.mem_cons, not_or] at hl
      exact Interval.leq_trans (ih hl.2 (u.forget t)) (Box.get_forget_leq u.box hl.1)
  exact hfold _ (by simp [h]) v

end Value

end PathInvariants
