import PathInvariants.Proofs.Concretizations

/-!
# Exact joins

When a join is seen to be exact, it describes what its operands describe and nothing more. Either one
operand is below the other, or the two differ in the range of one symbol that no row ties to the others. In
the latter case the rows without that symbol hold in the join, the other ranges are common to the operands,
and the joined range has no gap in which the value of the symbol could lie.
-/
namespace PathInvariants

namespace Interval

variable {a b i : Interval} {q : ℚ}

/-- A number outside a range lies below it or above it. -/
theorem lt_or_lt_of_not_admits (hi : i ≠ bottom) (h : ¬ i.Admits q) :
    (∃ l, i.lo = some l ∧ q < l) ∨ ∃ h, i.hi = some h ∧ h < q := by
  cases i with
  | bottom => exact absurd rfl hi
  | range lo hi o =>
    rw [admits_range, not_and_or] at h
    push Not at h
    exact h

/-- A number of a join lies neither below both operands nor above both. -/
theorem bounds_of_admits_join (ha : a ≠ bottom) (hb : b ≠ bottom) (h : (a.join b).Admits q) :
    (∀ l l' : ℤ, a.lo = some l → b.lo = some l' → (l : ℚ) ≤ q ∨ (l' : ℚ) ≤ q) ∧
      ∀ u u' : ℤ, a.hi = some u → b.hi = some u' → q ≤ u ∨ q ≤ u' := by
  cases a with
  | bottom => exact absurd rfl ha
  | range l₁ h₁ o₁ =>
    cases b with
    | bottom => exact absurd rfl hb
    | range l₂ h₂ o₂ =>
      obtain ⟨hlo, hhi⟩ := bounds_of_admits_make h
      constructor
      · rintro l l' rfl rfl
        split at hlo
        · exact .inl (hlo l rfl)
        · exact .inr (hlo l' rfl)
      · rintro u u' rfl rfl
        split at hhi
        · exact .inl (hhi u rfl)
        · exact .inr (hhi u' rfl)

end Interval

/-- A point of a join lies in the join of the ranges. -/
theorem Box.admits_join_get {a b : Box} {m : Valuation} (ha : a ≠ bottom) (hb : b ≠ bottom) (h : (a.join b).Admits m)
    (s : Symbol) : ((a.get s).join (b.get s)).Admits (m s) := by
  cases a with
  | bottom => exact absurd rfl ha
  | ranges f hf =>
    cases b with
    | bottom => exact absurd rfl hb
    | ranges g hg =>
      rw [join, above_ranges Interval.absorbing_join] at h
      have hs := admits_make.mp h s
      rwa [Sparse.get_zipWith (Interval.absorbing_join.left _)] at hs

namespace Value

variable {domain : Domain} {env : Environment} {v w : Value} {m : Valuation} {s t : Symbol} {p : Equalities}

section Touching

variable {integral : Bool} {a b : Interval} {q : ℚ}

theorem touching_comm : touching integral a b = touching integral b a := by
  unfold touching
  exact Bool.and_comm _ _

/-- No number lies between ranges that touch; of integral numbers if the ranges are seen as integral. -/
theorem not_between_of_touching {hi lo : ℤ} (h : touching integral a b = true) (hhi : a.hi = some hi)
    (hlo : b.lo = some lo) (hq : integral = true → ∃ n : ℤ, q = n) : ¬ ((hi : ℚ) < q ∧ q < lo) := by
  rintro ⟨hlt, hgt⟩
  simp only [touching, hhi, hlo, Bool.and_eq_true, Bool.not_eq_true', decide_eq_false_iff_not, not_lt] at h
  cases integral with
  | true =>
    obtain ⟨n, rfl⟩ := hq rfl
    have hstep : lo ≤ hi + 1 := h.1
    have hafter : hi < n := by exact_mod_cast hlt
    have hbefore : n < lo := by exact_mod_cast hgt
    omega
  | false =>
    have hstep : (lo : ℚ) ≤ hi := by exact_mod_cast (by simpa using h.1)
    linarith

/-- The join of ranges that touch is their union. -/
theorem admits_of_touching (ha : a ≠ .bottom) (hb : b ≠ .bottom) (h : touching integral a b = true)
    (hq : integral = true → ∃ n : ℤ, q = n) (hjoin : (a.join b).Admits q) : a.Admits q ∨ b.Admits q := by
  obtain ⟨hlower, hupper⟩ := Interval.bounds_of_admits_join ha hb hjoin
  by_contra hnone
  rw [not_or] at hnone
  rcases Interval.lt_or_lt_of_not_admits ha hnone.1 with ⟨l, hl, hql⟩ | ⟨u, hu, hqu⟩
  · rcases Interval.lt_or_lt_of_not_admits hb hnone.2 with ⟨l', hl', hql'⟩ | ⟨u', hu', hqu'⟩
    · rcases hlower l l' hl hl' with hle | hle <;> linarith
    · exact not_between_of_touching (touching_comm.trans h) hu' hl hq ⟨hqu', hql⟩
  · rcases Interval.lt_or_lt_of_not_admits hb hnone.2 with ⟨l', hl', hql'⟩ | ⟨u', hu', hqu'⟩
    · exact not_between_of_touching h hu hl' hq ⟨hqu, hql'⟩
    · rcases hupper u u' hu hu' with hle | hle <;> linarith

end Touching

/-- The rows of a value whose symbol is bound by its range only. -/
theorem solvedBy_iff_of_equalitiesWithout (h : v.equalitiesWithout? s = some p) :
    v.eqs.SolvedBy m ↔ p.SolvedBy m ∧ ∀ c, (v.rangeOf s).singleton? = some c → m s = c := by
  unfold equalitiesWithout? at h
  cases hc : (v.rangeOf s).singleton? with
  | none =>
    simp only [hc, Option.ite_none_right_eq_some, Option.some.injEq] at h
    obtain ⟨hcheck, rfl⟩ := h
    rw [hcheck]
    simp
  | some c =>
    simp only [hc, Option.ite_none_right_eq_some, Option.some.injEq] at h
    obtain ⟨hcheck, rfl⟩ := h
    conv_lhs => rw [← hcheck]
    rw [Equalities.solvedBy_add, LinearExpr.value_sub, LinearExpr.value_var, LinearExpr.value_const, sub_eq_zero]
    simp

/-- Values that differ in the range of one symbol, which no row ties to the others. -/
structure Adjoins (v w : Value) (s : Symbol) : Prop where
  left : v.isBottom = false
  right : w.isBottom = false
  differ : v.rangeOf s ≠ w.rangeOf s
  common : ∀ t, t ≠ s → v.rangeOf t = w.rangeOf t
  rows : ∃ p, v.equalitiesWithout? s = some p ∧ w.equalitiesWithout? s = some p
  touching : touching (v.isIntegral s) (v.rangeOf s) (w.rangeOf s) = true

/-- Only bound symbols can have different ranges. -/
theorem mem_differing (hv : v.isBottom = false) (hw : w.isBottom = false) :
    t ∈ (Symbol.sort ((v.box.bindings ++ w.box.bindings).map (·.1))).filter (fun s => v.rangeOf s != w.rangeOf s) ↔
      v.rangeOf t ≠ w.rangeOf t := by
  rw [List.mem_filter, bne_iff_ne, and_iff_right_iff_imp, Symbol.mem_sort, List.map_append, List.mem_append]
  intro hne
  by_contra hfree
  rw [not_or] at hfree
  have htop : ∀ u : Value, u.isBottom = false → t ∉ u.box.bindings.map (·.1) → u.rangeOf t = .top := by
    intro u hu hfree
    by_contra htop
    exact hfree (List.mem_map.mpr ⟨(t, u.rangeOf t), Box.mem_bindings.mpr ⟨rfl, htop, isBottom_eq_false.mp hu⟩, rfl⟩)
  exact hne ((htop v hv hfree.1).trans (htop w hw hfree.2).symm)

theorem leq_of_ranges (hv : v.eqs.Canonical) (hranges : ∀ t, v.rangeOf t = w.rangeOf t) (heqs : v.eqs = w.eqs) : v.leq w = true := by
  refine (leq_iff hv).mpr ⟨Box.leq_iff_admits.mpr fun m hm t => ?_, fun _ m hm => ?_⟩
  · have hrange : v.box.get t = w.box.get t := hranges t
    rw [← hrange]
    exact hm t
  · rw [← heqs]
    exact (solvedBy_allEqualities_iff.mp hm).1

/-- What the test for exactness finds. -/
theorem joinsExactly_cases (hv : v.eqs.Canonical) (h : v.joinsExactly w = true) :
    v.leq w = true ∨ w.leq v = true ∨ ∃ s, v.Adjoins w s := by
  unfold joinsExactly at h
  split at h
  · rename_i hor
    rw [Bool.or_eq_true, Bool.or_eq_true, Bool.or_eq_true] at hor
    rcases hor with ((hb | hb) | hle) | hle
    · exact .inl (by rw [leq, if_pos hb])
    · exact .inr (.inl (by rw [leq, if_pos hb]))
    · exact .inl hle
    · exact .inr (.inl hle)
  · rename_i hor
    simp only [Bool.or_eq_true, not_or, Bool.not_eq_true] at hor
    obtain ⟨⟨⟨hvb, hwb⟩, -⟩, -⟩ := hor
    have hdiffer := fun t => mem_differing (t := t) hvb hwb
    dsimp only at h
    split at h
    · rename_i hnil
      refine .inl (leq_of_ranges hv (fun t => ?_) (eq_of_beq h))
      by_contra hne
      have hmem := (hdiffer t).mpr hne
      rw [hnil] at hmem
      cases hmem
    · rename_i s hone
      rw [Bool.and_eq_true] at h
      refine .inr (.inr ⟨s, hvb, hwb, (hdiffer s).mp (by rw [hone]; exact List.mem_singleton_self s), fun t ht => ?_, ?_, h.2⟩)
      · by_contra hne
        have hmem := (hdiffer t).mpr hne
        rw [hone] at hmem
        exact ht (List.mem_singleton.mp hmem)
      · have hrows := h.1
        split at hrows
        · rename_i p q hp hq
          exact ⟨p, hp, (eq_of_beq hrows) ▸ hq⟩
        · cases hrows
    · cases h

/-- The symbol at which the values differ is tracked, because both say nothing of the others. -/
theorem Adjoins.contains (h : v.Adjoins w s) (hv : v.Scoped) (hw : w.Scoped) (henv : v.env = w.env) :
    v.env.contains s = true := by
  by_contra hfree
  have hfree : v.env.contains s = false := by simpa using hfree
  have hvtop := (hv s hfree).1.resolve_left (isBottom_eq_false.mp h.left)
  have hwtop := (hw s (henv ▸ hfree)).1.resolve_left (isBottom_eq_false.mp h.right)
  exact h.differ (hvtop.trans hwtop.symm)

/-- A value in whose box a valuation lies admits it, if the rows of the other symbols do. -/
theorem admits_of_equalitiesWithout (h : v.equalitiesWithout? s = some p) (hbox : v.box.Admits m) (hp : p.SolvedBy m) :
    v.Admits m :=
  ⟨hbox, (solvedBy_iff_of_equalitiesWithout h).mpr ⟨hp, fun _ hc => Interval.eq_of_singleton hc (hbox s)⟩⟩

theorem Adjoins.joinAligned_eq (h : v.Adjoins w s) : v.joinAligned w =
    { v with
      box := v.box.join w.box
      eqs := if v.isRelational then v.allEqualities.join w.allEqualities else v.eqs } := by
  rw [joinAligned, if_neg (Bool.eq_false_iff.mp h.right), if_neg (Bool.eq_false_iff.mp h.left)]

/-- The rows of the other symbols hold in the join. -/
theorem Adjoins.solvedBy (h : v.Adjoins w s) (hv : v.Ordered domain) (hw : w.Ordered domain)
    (hp : v.equalitiesWithout? s = some p) (hq : w.equalitiesWithout? s = some p)
    (hm : (v.joinAligned w).eqs.SolvedBy m) : p.SolvedBy m := by
  rw [h.joinAligned_eq] at hm
  dsimp only at hm
  split at hm
  · intro e he
    refine (canonical_allEqualities hv.canonical).value_of_join (canonical_allEqualities hw.canonical)
      (fun m hm => ?_) hm
    rcases hm with hm | hm
    · exact ((solvedBy_iff_of_equalitiesWithout hp).mp (solvedBy_allEqualities_iff.mp hm).1).1 e he
    · exact ((solvedBy_iff_of_equalitiesWithout hq).mp (solvedBy_allEqualities_iff.mp hm).1).1 e he
  · exact ((solvedBy_iff_of_equalitiesWithout hp).mp hm).1

/-- A valuation of the join of values that differ at one symbol belongs to one of them. -/
theorem Adjoins.admits (h : v.Adjoins w s) (hv : v.Ordered domain) (hw : w.Ordered domain)
    (hint : v.isIntegral s = true → ∃ n : ℤ, m s = n) (hm : (v.joinAligned w).Admits m) : v.Admits m ∨ w.Admits m := by
  obtain ⟨p, hp, hq⟩ := h.rows
  have hrows := h.solvedBy hv hw hp hq hm.2
  have hvb := isBottom_eq_false.mp h.left
  have hwb := isBottom_eq_false.mp h.right
  have hbox := hm.1
  rw [h.joinAligned_eq] at hbox
  have hjoin := Box.admits_join_get hvb hwb hbox
  have hself : ∀ i : Interval, (i.join i).leq i = true := fun i => Interval.join_leq (Interval.leq_refl i) (Interval.leq_refl i)
  -- The ranges of the other symbols are common to both, so the range of `s` decides.
  have hothers : ∀ t, t ≠ s → (v.box.get t).Admits (m t) ∧ (w.box.get t).Admits (m t) := by
    intro t ht
    have hcommon : v.box.get t = w.box.get t := h.common t ht
    have ht := hjoin t
    rw [hcommon] at ht ⊢
    exact ⟨Interval.admits_of_leq (hself _) ht, Interval.admits_of_leq (hself _) ht⟩
  refine (admits_of_touching (Box.get_ne_bottom hvb s) (Box.get_ne_bottom hwb s) h.touching hint (hjoin s)).imp
    (fun hs => admits_of_equalitiesWithout hp (fun t => ?_) hrows)
    fun hs => admits_of_equalitiesWithout hq (fun t => ?_) hrows
  · by_cases ht : t = s
    · exact ht ▸ hs
    · exact (hothers t ht).1
  · by_cases ht : t = s
    · exact ht ▸ hs
    · exact (hothers t ht).2

theorem concretization_subset_joinAligned (hv : v.Ordered domain) (hw : w.Ordered domain) (henv : v.env = w.env) :
    v.concretization ∪ w.concretization ⊆ (v.joinAligned w).concretization := by
  rintro m (hm | hm)
  · refine ⟨env_joinAligned v w ▸ hm.1, admits_of_leq hv.canonical ?_ hm.2⟩
    exact leq_joinAligned_left ValueKind.rowless_ofDomain hv.kind hv.canonical
  · refine ⟨env_joinAligned v w ▸ henv ▸ hm.1, admits_of_leq hw.canonical ?_ hm.2⟩
    exact leq_joinAligned_right ValueKind.rowless_ofDomain hv.kind hw.canonical

/-- A join that is seen to be exact is the union. -/
theorem concretization_joinAligned (hv : v ∈ Over domain env) (hw : w ∈ Over domain env)
    (h : v.joinsExactly w = true) : (v.joinAligned w).concretization = v.concretization ∪ w.concretization := by
  have hvo := hv.1.ordered
  have hwo := hw.1.ordered
  have henv : v.env = w.env := hv.2.trans hw.2.symm
  refine Set.Subset.antisymm (fun m hm => ?_) (concretization_subset_joinAligned hvo hwo henv)
  have hint : ∀ s, v.env.kindOf s = some .int → ∃ n : ℤ, m s = n := env_joinAligned v w ▸ hm.1
  have hadmits : v.Admits m ∨ w.Admits m := by
    rcases joinsExactly_cases hvo.canonical h with hle | hle | ⟨s, hs⟩
    · exact .inr (admits_of_leq (hvo.joinAligned hwo).canonical (hvo.joinAligned_leq hwo hwo hle (leq_refl w)) hm.2)
    · exact .inl (admits_of_leq (hvo.joinAligned hwo).canonical (hvo.joinAligned_leq hwo hvo (leq_refl v) hle) hm.2)
    · refine hs.admits hvo hwo (fun hintegral => ?_) hm.2
      have hcontains := hs.contains hv.1.composed.scoped hw.1.composed.scoped henv
      refine exists_int_of_mem_concretization hm ?_ ?_
      · rwa [env_joinAligned]
      · rwa [isIntegral, env_joinAligned]
  exact hadmits.imp (fun h => ⟨hint, h⟩) fun h => ⟨henv ▸ hint, h⟩

/-- Values of one domain over one environment have a join, and it describes their union if it is seen to be exact. -/
theorem exists_join_eq_union (hv : v ∈ Over domain env) (hw : w ∈ Over domain env) (h : v.joinsExactly w = true) :
    ∃ u, v.join w = .ok u ∧ u.concretization = v.concretization ∪ w.concretization :=
  ⟨v.joinAligned w, join_of_env (hv.2.trans hw.2.symm), concretization_joinAligned hv hw h⟩

/-- Of the values with `y = 2 r`, those with `x` in `[0, 1]` and those with `x` equal to two are next to each other:
nothing lies between, because `x` is an integer. -/
theorem exists_join_eq_union_adjacent :
    let line := (top .intervalEqualities mixedEnv).constrain (.eq (.var "y" - .term 2 "r"))
    let v := (line.constrain (.ge (.var "x"))).constrain (.ge (.const 1 - .var "x"))
    let w := line.constrain (.eq (.var "x" - .const 2))
    v ∈ Over .intervalEqualities line.env ∧ w ∈ Over .intervalEqualities line.env ∧ v.leq w = false ∧ w.leq v = false ∧
      v.joinsExactly w = true ∧ ∃ u, v.join w = .ok u ∧ u.concretization = v.concretization ∪ w.concretization := by
  intro line v w
  have hline : line.Formed .intervalEqualities := .constrain (.top _) _
  have hv : v ∈ Over .intervalEqualities line.env := ⟨.constrain (.constrain hline _) _, by decide +kernel⟩
  have hw : w ∈ Over .intervalEqualities line.env := ⟨.constrain hline _, by decide +kernel⟩
  have h : v.joinsExactly w = true := by decide +kernel
  exact ⟨hv, hw, by decide +kernel, by decide +kernel, h, exists_join_eq_union hv hw h⟩

end Value

end PathInvariants
