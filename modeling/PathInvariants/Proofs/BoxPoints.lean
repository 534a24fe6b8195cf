import PathInvariants.Box.Propagation
import PathInvariants.Proofs.BoxOperations
import PathInvariants.Proofs.LinearValues

/-!
# Points of boxes

Intervals and boxes at rational points. An interval holds the rationals between its integers, so the
facts about its integers carry over. Tightening a box by a constraint loses no solution of the
constraint that is integral where the box is tightened for integers.
-/
namespace PathInvariants

namespace Interval

/-- The rational lies between two integers of the interval. -/
def Admits (i : Interval) (q : ℚ) : Prop := ∃ a b : ℤ, a ∈ i ∧ b ∈ i ∧ (a : ℚ) ≤ q ∧ q ≤ b

theorem not_admits_bottom (q : ℚ) : ¬ bottom.Admits q := by
  rintro ⟨a, b, ha, -⟩
  exact not_mem_bottom ha

theorem admits_of_mem {i : Interval} {n : ℤ} (h : n ∈ i) : i.Admits n := ⟨n, n, h, h, le_rfl, le_rfl⟩

theorem mem_of_le_of_le {i : Interval} {a b n : ℤ} (ha : a ∈ i) (hb : b ∈ i) (han : a ≤ n) (hnb : n ≤ b) : n ∈ i := by
  cases i with
  | bottom => exact absurd ha not_mem_bottom
  | range lo hi _ =>
    rw [mem_range] at ha hb ⊢
    constructor
    · cases lo with
      | none => trivial
      | some l => exact ha.1.trans han
    · cases hi with
      | none => trivial
      | some h => exact hnb.trans hb.2

@[simp] theorem admits_intCast {i : Interval} {n : ℤ} : i.Admits n ↔ n ∈ i := by
  refine ⟨?_, admits_of_mem⟩
  rintro ⟨a, b, ha, hb, han, hnb⟩
  exact mem_of_le_of_le ha hb (by exact_mod_cast han) (by exact_mod_cast hnb)

theorem admits_top (q : ℚ) : top.Admits q :=
  ⟨⌊q⌋, ⌈q⌉, mem_top, mem_top, Int.floor_le q, Int.le_ceil q⟩

theorem admits_mono {i j : Interval} (h : ∀ n, n ∈ i → n ∈ j) {q : ℚ} (hq : i.Admits q) : j.Admits q := by
  obtain ⟨a, b, ha, hb, hle⟩ := hq
  exact ⟨a, b, h a ha, h b hb, hle⟩

theorem admits_of_leq {i j : Interval} (h : i.leq j = true) {q : ℚ} (hq : i.Admits q) : j.Admits q :=
  admits_mono (leq_iff.mp h) hq

theorem admits_join {i j : Interval} {q : ℚ} (h : i.Admits q ∨ j.Admits q) : (i.join j).Admits q := by
  rcases h with h | h
  · exact admits_mono (fun n hn => mem_join (.inl hn)) h
  · exact admits_mono (fun n hn => mem_join (.inr hn)) h

theorem admits_widenTo {lower upper : List ℤ} {i j : Interval} {q : ℚ} (h : i.Admits q ∨ j.Admits q) :
    (widenTo lower upper i j).Admits q := by
  rcases h with h | h
  · exact admits_mono (fun n hn => mem_widenTo (.inl hn)) h
  · exact admits_mono (fun n hn => mem_widenTo (.inr hn)) h

theorem admits_meet {i j : Interval} {q : ℚ} : (i.meet j).Admits q ↔ i.Admits q ∧ j.Admits q := by
  constructor
  · intro h
    exact ⟨admits_mono (fun n hn => (mem_meet.mp hn).1) h, admits_mono (fun n hn => (mem_meet.mp hn).2) h⟩
  · rintro ⟨⟨a, b, ha, hb, haq, hqb⟩, c, d, hc, hd, hcq, hqd⟩
    have hac : ((max a c : ℤ) : ℚ) ≤ q := by
      rw [Int.cast_max]
      exact max_le haq hcq
    have hbd : q ≤ ((min b d : ℤ) : ℚ) := by
      rw [Int.cast_min]
      exact le_min hqb hqd
    have hle : max a c ≤ min b d := by exact_mod_cast hac.trans hbd
    have hmem : ∀ n, max a c ≤ n → n ≤ min b d → n ∈ i.meet j := fun n hn hn' =>
      mem_meet.mpr ⟨mem_of_le_of_le ha hb (by omega) (by omega), mem_of_le_of_le hc hd (by omega) (by omega)⟩
    exact ⟨_, _, hmem _ le_rfl hle, hmem _ hle le_rfl, hac, hbd⟩

theorem admits_narrow {i j : Interval} {q : ℚ} (hi : i.Admits q) (hj : j.Admits q) : (i.narrow j).Admits q :=
  admits_mono (fun _ hn => mem_narrow (mem_meet.mp hn).1 (mem_meet.mp hn).2) (admits_meet.mpr ⟨hi, hj⟩)

theorem admits_of_admits_narrow {i j : Interval} {q : ℚ} (h : (i.narrow j).Admits q) : i.Admits q :=
  admits_mono (fun _ => mem_of_mem_narrow) h

theorem admits_add {i j : Interval} {p q : ℚ} (hp : i.Admits p) (hq : j.Admits q) : (i.add j).Admits (p + q) := by
  obtain ⟨a, b, ha, hb, hap, hpb⟩ := hp
  obtain ⟨c, d, hc, hd, hcq, hqd⟩ := hq
  refine ⟨a + c, b + d, mem_add ha hc, mem_add hb hd, ?_, ?_⟩ <;> push_cast <;> linarith

theorem admits_scale {i : Interval} {q : ℚ} (hq : i.Admits q) (k : ℤ) : (i.scale k).Admits (q * k) := by
  obtain ⟨a, b, ha, hb, haq, hqb⟩ := hq
  have ha' := mem_scale (k := k) ha
  have hb' := mem_scale (k := k) hb
  rcases le_total 0 k with hk | hk
  · have hk' : (0 : ℚ) ≤ k := by exact_mod_cast hk
    refine ⟨_, _, ha', hb', ?_, ?_⟩ <;> push_cast <;> nlinarith
  · have hk' : (k : ℚ) ≤ 0 := by exact_mod_cast hk
    refine ⟨_, _, hb', ha', ?_, ?_⟩ <;> push_cast <;> nlinarith

theorem eq_of_singleton {i : Interval} {c : ℤ} (h : i.singleton? = some c) {q : ℚ} (hq : i.Admits q) : q = c := by
  have hmem : ∀ n, n ∈ i → n = c := by
    intro n hn
    unfold singleton? at h
    split at h
    · split at h
      · obtain rfl := Option.some.inj h
        have hb := mem_range.mp hn
        simp only [Above, Below] at hb
        omega
      · cases h
    · cases h
  obtain ⟨a, b, ha, hb, haq, hqb⟩ := hq
  rw [hmem a ha] at haq
  rw [hmem b hb] at hqb
  exact le_antisymm hqb haq

theorem lo_le {i : Interval} {l : ℤ} (h : i.lo = some l) {q : ℚ} (hq : i.Admits q) : (l : ℚ) ≤ q := by
  obtain ⟨a, -, ha, -, haq, -⟩ := hq
  cases i with
  | bottom => exact absurd ha not_mem_bottom
  | range lo hi _ =>
    obtain rfl : lo = some l := h
    have hla : l ≤ a := (mem_range.mp ha).1
    exact le_trans (by exact_mod_cast hla) haq

theorem admits_atLeast {l : ℤ} {q : ℚ} (h : (l : ℚ) ≤ q) : (atLeast l).Admits q :=
  ⟨⌊q⌋, ⌈q⌉, mem_atLeast.mpr (Int.le_floor.mpr h), mem_atLeast.mpr (Int.cast_le.mp (h.trans (Int.le_ceil q))),
    Int.floor_le q, Int.le_ceil q⟩

theorem fdiv_le_ceilDiv {a d : ℤ} (hd : 0 < d) : a.fdiv d ≤ ceilDiv a d := by
  have h₁ := (le_fdiv (a := a) hd).mp le_rfl
  have h₂ := (ceilDiv_le (a := a) hd).mp le_rfl
  by_contra hlt
  nlinarith

theorem fdiv_mono {a b d : ℤ} (hd : 0 < d) (h : a ≤ b) : a.fdiv d ≤ b.fdiv d :=
  (le_fdiv hd).mpr (((le_fdiv hd).mp le_rfl).trans h)

theorem ceilDiv_mono {a b d : ℤ} (hd : 0 < d) (h : a ≤ b) : ceilDiv a d ≤ ceilDiv b d :=
  (ceilDiv_le hd).mpr (h.trans ((ceilDiv_le hd).mp le_rfl))

theorem mem_make_divide {lo hi : Option ℤ} {d a n : ℤ} (hd : 0 < d) (ha : a ∈ make lo hi) (hn : a.fdiv d ≤ n)
    (hn' : n ≤ ceilDiv a d) : n ∈ make (lo.map fun l => l.fdiv d) (hi.map fun h => ceilDiv h d) := by
  rw [mem_make] at ha ⊢
  constructor
  · cases lo with
    | none => trivial
    | some l => exact (fdiv_mono hd ha.1).trans hn
  · cases hi with
    | none => trivial
    | some h => exact hn'.trans (ceilDiv_mono hd ha.2)

theorem admits_make_divide {lo hi : Option ℤ} {d : ℤ} (hd : 0 < d) {q : ℚ} (h : (make lo hi).Admits (d * q)) :
    (make (lo.map fun l => l.fdiv d) (hi.map fun h => ceilDiv h d)).Admits q := by
  obtain ⟨a, b, ha, hb, haq, hqb⟩ := h
  have hd' : (0 : ℚ) < d := by exact_mod_cast hd
  have hfloor : (d : ℚ) * (a.fdiv d : ℤ) ≤ a := by exact_mod_cast (le_fdiv (a := a) hd).mp le_rfl
  have hceil : (b : ℚ) ≤ d * (ceilDiv b d : ℤ) := by exact_mod_cast (ceilDiv_le (a := b) hd).mp le_rfl
  refine ⟨a.fdiv d, ceilDiv b d, mem_make_divide hd ha le_rfl (fdiv_le_ceilDiv hd),
    mem_make_divide hd hb (fdiv_le_ceilDiv hd) le_rfl, ?_, ?_⟩
  · exact le_of_mul_le_mul_left (hfloor.trans haq) hd'
  · exact le_of_mul_le_mul_left (hqb.trans hceil) hd'

theorem admits_make_neg {lo hi : Option ℤ} {q : ℚ} (h : (make lo hi).Admits q) :
    (make (hi.map (- ·)) (lo.map (- ·))).Admits (-q) := by
  have hneg : ∀ n, n ∈ make lo hi → -n ∈ make (hi.map (- ·)) (lo.map (- ·)) := by
    intro n hn
    rw [mem_make] at hn ⊢
    constructor
    · cases hi with
      | none => trivial
      | some u => exact Int.neg_le_neg hn.2
    · cases lo with
      | none => trivial
      | some l => exact Int.neg_le_neg hn.1
  obtain ⟨a, b, ha, hb, haq, hqb⟩ := h
  exact ⟨-b, -a, hneg b hb, hneg a ha, by push_cast; linarith, by push_cast; linarith⟩

/-- Division that rounds outwards holds the quotients of all rationals. -/
theorem admits_divide_false {i : Interval} {k : ℤ} (hk : k ≠ 0) {q : ℚ} (h : i.Admits (k * q)) :
    (i.divide k false).Admits q := by
  cases i with
  | bottom => exact absurd h (not_admits_bottom _)
  | range lo hi ordered =>
    have hmake : make lo hi = range lo hi ordered := dif_pos ordered
    rw [← hmake] at h
    simp only [divide, Bool.false_eq_true, if_false]
    have hd : (0 : ℤ) < k.natAbs := by omega
    refine admits_make_divide hd ?_
    by_cases hneg : k < 0
    · have habs : ((k.natAbs : ℤ) : ℚ) = -k := by
        have : (k.natAbs : ℤ) = -k := by omega
        exact_mod_cast this
      rw [if_pos hneg, if_pos hneg, habs, neg_mul]
      exact admits_make_neg h
    · have habs : (k.natAbs : ℤ) = k := by omega
      rw [if_neg hneg, if_neg hneg, habs]
      exact h

/-- Division holds every quotient of the kind it rounds for. -/
theorem admits_divide {i : Interval} {k : ℤ} (hk : k ≠ 0) {q : ℚ} (h : i.Admits (k * q)) {integral : Bool}
    (hq : integral = true → ∃ n : ℤ, q = n) : (i.divide k integral).Admits q := by
  cases integral with
  | false => exact admits_divide_false hk h
  | true =>
    obtain ⟨n, rfl⟩ := hq rfl
    rw [admits_intCast, mem_divide hk]
    exact admits_intCast.mp (by exact_mod_cast h)

end Interval

namespace Box

/-- Every symbol has a value in its range. -/
def Admits (b : Box) (m : Valuation) : Prop := ∀ s, (b.get s).Admits (m s)

theorem not_admits_bottom (m : Valuation) : ¬ bottom.Admits m := fun h => Interval.not_admits_bottom _ (h "")

theorem ne_bottom {b : Box} {m : Valuation} (h : b.Admits m) : b ≠ bottom := by
  rintro rfl
  exact not_admits_bottom m h

theorem isBottom_iff {b : Box} : b.isBottom = true ↔ b = bottom := by
  cases b <;> simp [isBottom]

theorem admits_make {f : Sparse Interval.top} {m : Valuation} :
    (make f).Admits m ↔ ∀ s, (f.get s).Admits (m s) := by
  unfold make
  split
  · rfl
  · rename_i hempty
    refine iff_of_false (not_admits_bottom m) fun h => hempty fun e he hb => ?_
    have hget : f.get e.1 = e.2 := (Sparse.mem_entries.mp he).1
    have hadmits := h e.1
    rw [hget, hb] at hadmits
    exact Interval.not_admits_bottom _ hadmits

theorem admits_top (m : Valuation) : top.Admits m := fun s => Interval.admits_top (m s)

theorem admits_set {b : Box} (hb : b ≠ bottom) {s : Symbol} {i : Interval} {m : Valuation} :
    (b.set s i).Admits m ↔ i.Admits (m s) ∧ ∀ t, t ≠ s → (b.get t).Admits (m t) := by
  cases b with
  | bottom => exact absurd rfl hb
  | ranges f _ =>
    rw [set, admits_make]
    constructor
    · intro h
      refine ⟨by simpa [Sparse.get_set] using h s, fun t ht => ?_⟩
      have := h t
      rwa [Sparse.get_set, if_neg ht] at this
    · rintro ⟨hs, hrest⟩ t
      rw [Sparse.get_set]
      split
      · rename_i hts
        rw [hts]
        exact hs
      · rename_i hts
        exact hrest t hts

theorem admits_forget {b : Box} {s : Symbol} {m m' : Valuation} (hm : ∀ t, t ≠ s → m' t = m t) (h : b.Admits m) :
    (b.forget s).Admits m' := by
  refine (admits_set (ne_bottom h)).mpr ⟨Interval.admits_top _, fun t ht => ?_⟩
  rw [hm t ht]
  exact h t

theorem admits_of_leq {a b : Box} (h : a.leq b = true) {m : Valuation} (ha : a.Admits m) : b.Admits m := by
  cases a with
  | bottom => exact absurd ha (not_admits_bottom m)
  | ranges f _ =>
    cases b with
    | bottom => exact absurd h nofun
    | ranges g _ =>
      intro s
      by_cases hs : g.get s = Interval.top
      · change (g.get s).Admits (m s)
        rw [hs]
        exact Interval.admits_top _
      · have hle := List.all_eq_true.mp h (s, g.get s) (Sparse.mem_entries.mpr ⟨rfl, hs⟩)
        exact Interval.admits_of_leq hle (ha s)

theorem admits_join {a b : Box} {m : Valuation} (h : a.Admits m ∨ b.Admits m) : (a.join b).Admits m := by
  cases a with
  | bottom =>
    rw [show join bottom b = b from rfl]
    exact h.resolve_left (not_admits_bottom m)
  | ranges f hf =>
    cases b with
    | bottom => exact h.resolve_right (not_admits_bottom m)
    | ranges g hg =>
      rw [join, above_ranges Interval.absorbing_join]
      refine admits_make.mpr fun s => ?_
      rw [Sparse.get_zipWith (Interval.absorbing_join.left _)]
      exact Interval.admits_join (h.imp (· s) (· s))

theorem admits_meet {a b : Box} {m : Valuation} : (a.meet b).Admits m ↔ a.Admits m ∧ b.Admits m := by
  cases a with
  | bottom => exact iff_of_false (not_admits_bottom m) fun h => not_admits_bottom m h.1
  | ranges f hf =>
    cases b with
    | bottom => exact iff_of_false (not_admits_bottom m) fun h => not_admits_bottom m h.2
    | ranges g hg =>
      rw [meet, below_ranges Interval.neutral_meet, admits_make]
      simp only [Sparse.get_zipWith (Interval.neutral_meet.left Interval.top), Interval.admits_meet]
      exact forall_and

theorem admits_narrow {a b : Box} {m : Valuation} (ha : a.Admits m) (hb : b.Admits m) : (a.narrow b).Admits m := by
  cases a with
  | bottom => exact absurd ha (not_admits_bottom m)
  | ranges f hf =>
    cases b with
    | bottom => exact absurd hb (not_admits_bottom m)
    | ranges g hg =>
      rw [narrow, below_ranges Interval.neutral_narrow]
      refine admits_make.mpr fun s => ?_
      rw [Sparse.get_zipWith (Interval.neutral_narrow.left _)]
      exact Interval.admits_narrow (ha s) (hb s)

/-- Narrowing only tightens. -/
theorem admits_of_admits_narrow {a b : Box} {m : Valuation} (h : (a.narrow b).Admits m) : a.Admits m := by
  cases a with
  | bottom => exact absurd h (not_admits_bottom m)
  | ranges f hf =>
    cases b with
    | bottom => exact absurd h (not_admits_bottom m)
    | ranges g hg =>
      intro s
      rw [narrow, below_ranges Interval.neutral_narrow] at h
      have hs := admits_make.mp h s
      rw [Sparse.get_zipWith (Interval.neutral_narrow.left _)] at hs
      exact Interval.admits_of_admits_narrow hs

theorem admits_widenTo {lower upper : Symbol → List ℤ} {a b : Box} {m : Valuation} (h : a.Admits m ∨ b.Admits m) :
    (widenTo lower upper a b).Admits m := by
  cases a with
  | bottom => exact h.resolve_left (not_admits_bottom m)
  | ranges f hf =>
    cases b with
    | bottom => exact h.resolve_right (not_admits_bottom m)
    | ranges g hg =>
      refine admits_make.mpr fun s => ?_
      rw [Sparse.get_ofFn]
      split
      · exact Interval.admits_widenTo (h.imp (· s) (· s))
      · exact Interval.admits_top _

/-- The range of an expression holds its values. -/
theorem admits_rangeOf {b : Box} {m : Valuation} (h : b.Admits m) (e : LinearExpr) :
    (b.rangeOf e).Admits (e.value m) := by
  have hfold : ∀ (ts : List (Symbol × ℤ)) (i : Interval) (q : ℚ), i.Admits q →
      (ts.foldl (fun i t => i.add ((b.get t.1).scale t.2)) i).Admits
        (q + (ts.map fun t => (t.2 : ℚ) * m t.1).sum) := by
    intro ts
    induction ts with
    | nil => simp
    | cons t ts ih =>
      intro i q hq
      have hstep := ih _ _ (Interval.admits_add hq (Interval.admits_scale (h t.1) t.2))
      rw [List.foldl_cons, List.map_cons, List.sum_cons, ← add_assoc, mul_comm]
      exact hstep
  rw [rangeOf, LinearExpr.value, add_comm]
  exact hfold e.terms _ _ (Interval.admits_of_mem (Interval.mem_point.mpr rfl))

theorem admits_targetOf {comparison : Comparison} {i : Interval} {p r : ℚ} (hr : i.Admits (-r))
    (h : comparison.HoldsAt (p + r)) : (targetOf comparison i).Admits p := by
  have hge : 0 ≤ p + r → (i.lo.elim Interval.top Interval.atLeast).Admits p := by
    intro hpr
    cases hlo : i.lo with
    | none => exact Interval.admits_top p
    | some l =>
      have := Interval.lo_le hlo hr
      exact Interval.admits_atLeast (by linarith)
  cases comparison with
  | eq =>
    have hp : p = -r := by
      have : p + r = 0 := h
      linarith
    rw [hp]
    exact hr
  | ge => exact hge h
  | gt => exact hge (le_of_lt h)

/-- Tightening by a constraint keeps its solutions. -/
theorem admits_tighten {integral : Symbol → Bool} {e : LinearExpr} {comparison : Comparison} {b : Box} {m : Valuation}
    {s : Symbol} (hb : b.Admits m) (hs : e.coeff s ≠ 0) (hm : integral s = true → ∃ n : ℤ, m s = n)
    (h : comparison.HoldsAt (e.value m)) : (b.tighten integral e comparison s (e.coeff s)).Admits m := by
  have hrest : ((b.rangeOf (e.without s)).scale (-1)).Admits (-(e.without s).value m) := by
    have := Interval.admits_scale (admits_rangeOf hb (e.without s)) (-1)
    simpa using this
  have hvalue : e.coeff s * m s + (e.without s).value m = e.value m := by
    rw [LinearExpr.value_without]
    ring
  rw [← hvalue] at h
  refine (admits_set (ne_bottom hb)).mpr ⟨Interval.admits_meet.mpr ⟨hb s, ?_⟩, fun t _ => hb t⟩
  exact Interval.admits_divide hs (admits_targetOf hrest h) hm

theorem admits_of_admits_update_meet {b : Box} {s : Symbol} {j : Interval} {m : Valuation}
    (h : (b.update s fun i => i.meet j).Admits m) : b.Admits m := by
  by_cases hb : b = bottom
  · subst hb
    exact h
  · obtain ⟨hs, hrest⟩ := (admits_set hb).mp h
    intro t
    by_cases hts : t = s
    · rw [hts]
      exact (Interval.admits_meet.mp hs).1
    · exact hrest t hts

theorem admits_propagate {integral : Symbol → Bool} {e : LinearExpr} {comparison : Comparison} {b : Box} {m : Valuation}
    (hb : b.Admits m) (hm : ∀ s, integral s = true → ∃ n : ℤ, m s = n) (h : comparison.HoldsAt (e.value m)) :
    (b.propagate integral e comparison).Admits m := by
  have hfold : ∀ ts : List (Symbol × ℤ), (∀ t ∈ ts, t ∈ e.terms) → ∀ b : Box, b.Admits m →
      (ts.foldl (fun b t => b.tighten integral e comparison t.1 t.2) b).Admits m := by
    intro ts
    induction ts with
    | nil => exact fun _ b hb => hb
    | cons t ts ih =>
      intro hts b hb
      obtain ⟨hc, hne⟩ := LinearExpr.coeff_of_mem_terms (hts t (by simp))
      refine ih (fun u hu => hts u (by simp [hu])) _ ?_
      change (b.tighten integral e comparison t.1 t.2).Admits m
      rw [← hc] at hne ⊢
      exact admits_tighten hb hne (hm t.1) h
  exact hfold e.terms (fun _ ht => ht) b hb

theorem admits_of_foldl_tighten {integral : Symbol → Bool} {e : LinearExpr} {comparison : Comparison}
    {ts : List (Symbol × ℤ)} {b : Box} {m : Valuation}
    (h : (ts.foldl (fun b t => b.tighten integral e comparison t.1 t.2) b).Admits m) : b.Admits m := by
  induction ts generalizing b with
  | nil => exact h
  | cons t ts ih => exact admits_of_admits_update_meet (ih h)

/-- Propagation only tightens. -/
theorem admits_of_admits_propagate {integral : Symbol → Bool} {e : LinearExpr} {comparison : Comparison} {b : Box}
    {m : Valuation} (h : (b.propagate integral e comparison).Admits m) : b.Admits m := admits_of_foldl_tighten h

end Box

end PathInvariants
