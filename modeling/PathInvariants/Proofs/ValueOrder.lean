import PathInvariants.Proofs.Executions
import PathInvariants.Proofs.WideningHeight

/-!
# The order of abstract values

A system of equalities that comes from elimination implies exactly the equations that hold at all its
solutions. On values with such systems the order is transitive, joins and widenings lie above both
operands, and a join is no higher than its first operand. The transfer functions of a program return
such values for such values.
-/
namespace PathInvariants

namespace Equalities

variable {p q : Equalities} {e : LinearExpr} {x : Valuation × ℚ}

/-- The system is the result of an elimination. -/
def Canonical (q : Equalities) : Prop := ∃ rows, q = ofRows rows

theorem canonical_ofRows (rows : List LinearExpr) : (ofRows rows).Canonical := ⟨rows, rfl⟩

theorem canonical_empty : empty.Canonical := ⟨[], by decide⟩

theorem Canonical.join (hp : p.Canonical) (hq : q.Canonical) : (p.join q).Canonical := by
  unfold Equalities.join
  split
  · exact hq
  · split
    · exact hp
    · exact canonical_ofRows _

theorem Canonical.project (hq : q.Canonical) (s : Symbol) : (q.project s).Canonical := by
  unfold Equalities.project
  split
  · exact canonical_ofRows _
  · exact hq

/-- A point that is not at infinity stands for a valuation. -/
theorem value_smul (hx : x.2 ≠ 0) (e : LinearExpr) : e.value (x.2⁻¹ • x.1) = x.2⁻¹ * e.functional x := by
  have hone : (x.2⁻¹ • x).2 = 1 := inv_mul_cancel₀ hx
  have hvalue := LinearExpr.functional_apply e (x.2⁻¹ • x)
  rw [hone, sub_self, mul_zero, add_zero, map_smul, smul_eq_mul] at hvalue
  exact hvalue.symm

theorem VanishAt.solvedBy (h : q.VanishAt x) (hx : x.2 ≠ 0) : q.SolvedBy (x.2⁻¹ • x.1) := fun e he => by
  rw [value_smul hx, h e he, mul_zero]

theorem Canonical.exists_solvedBy (hq : q.Canonical) (h : q.isUnsatisfiable = false) : ∃ m, q.SolvedBy m := by
  obtain ⟨rows, rfl⟩ := hq
  obtain ⟨x, hx, hne⟩ := exists_vanishAt h
  exact ⟨_, hx.solvedBy hne⟩

/-- A functional that is zero at all solutions is zero at the points at infinity too. -/
theorem Canonical.map_eq_zero {φ : Valuation × ℚ →ₗ[ℚ] ℚ} (hq : q.Canonical) (hsat : q.isUnsatisfiable = false)
    (h : ∀ m, q.SolvedBy m → φ (m, 1) = 0) (hx : q.VanishAt x) : φ x = 0 := by
  have hfinite : ∀ y : Valuation × ℚ, q.VanishAt y → y.2 ≠ 0 → φ y = 0 := by
    intro y hy hy2
    have hpoint : (y.2⁻¹ • y.1, (1 : ℚ)) = y.2⁻¹ • y := Prod.ext rfl (inv_mul_cancel₀ hy2).symm
    have hzero := h _ (hy.solvedBy hy2)
    rw [hpoint, map_smul, smul_eq_mul] at hzero
    exact (mul_eq_zero.mp hzero).resolve_left (inv_ne_zero hy2)
  by_cases hx2 : x.2 = 0
  · -- A point at infinity is the difference of two others.
    obtain ⟨rows, rfl⟩ := hq
    obtain ⟨y, hy, hy2⟩ := exists_vanishAt hsat
    have hsum : (ofRows rows).VanishAt (x + y) := fun f hf => by rw [map_add, hx f hf, hy f hf, add_zero]
    have hne2 : (x + y).2 ≠ 0 := by rwa [Prod.snd_add, hx2, zero_add]
    have hzero := hfinite _ hsum hne2
    rwa [map_add, hfinite y hy hy2, add_zero] at hzero
  · exact hfinite x hx hx2

theorem Canonical.functional_eq_zero (hq : q.Canonical) (hsat : q.isUnsatisfiable = false)
    (h : ∀ m, q.SolvedBy m → e.value m = 0) (hx : q.VanishAt x) : e.functional x = 0 := by
  refine hq.map_eq_zero hsat (fun m hm => ?_) hx
  rw [LinearExpr.functional_apply, h m hm, sub_self, mul_zero, add_zero]

/-- Implication is complete for the solutions. -/
theorem Canonical.implies_iff (hq : q.Canonical) : q.implies e = true ↔ ∀ m, q.SolvedBy m → e.value m = 0 := by
  refine ⟨fun h m hm => value_of_implies h hm, fun h => ?_⟩
  by_contra hne
  obtain ⟨hsat, x, hx, hval⟩ := exists_of_not_implies (by simpa using hne)
  exact hval (hq.functional_eq_zero hsat h hx)

end Equalities

namespace Interval

variable {candidates : Finset ℤ} {i j : Interval}

theorem eq_point_of_singleton {c : ℤ} (h : i.singleton? = some c) : i = point c := by
  cases i with
  | bottom => cases h
  | range lo hi ordered =>
    match lo, hi, ordered, h with
    | some l, some u, _, h =>
      simp only [singleton?] at h
      split at h
      · rename_i hlu
        obtain rfl := Option.some.inj h
        subst hlu
        simp [point, make, boundsOrdered]
      · cases h

theorem leq_point_iff {c : ℤ} (hi : i ≠ bottom) : i.leq (point c) = true ↔ i = point c := by
  refine ⟨fun h => leq_antisymm h (leq_iff.mpr fun n hn => ?_), fun h => h ▸ leq_iff.mpr fun n hn => hn⟩
  obtain ⟨k, hk⟩ := exists_mem hi
  rw [mem_point.mp hn, ← mem_point.mp (leq_iff.mp h k hk)]
  exact hk

theorem lowerSlack_mono {l₁ l₂ : Option ℤ} (h : lowerLe l₁ l₂ = true) : lowerSlack candidates l₁ ≤ lowerSlack candidates l₂ := by
  cases l₁ with
  | none => exact Nat.zero_le _
  | some a =>
    cases l₂ with
    | none => cases h
    | some b =>
      have hab : a ≤ b := by simpa [lowerLe] using h
      exact Nat.add_le_add_left (Finset.card_le_card (Finset.monotone_filter_right _ fun x _ hx => lt_of_lt_of_le hx hab)) 1

theorem upperSlack_mono {h₁ h₂ : Option ℤ} (h : upperLe h₁ h₂ = true) : upperSlack candidates h₂ ≤ upperSlack candidates h₁ := by
  cases h₂ with
  | none => exact Nat.zero_le _
  | some b =>
    cases h₁ with
    | none => cases h
    | some a =>
      have hab : a ≤ b := by simpa [upperLe] using h
      exact Nat.add_le_add_left (Finset.card_le_card (Finset.monotone_filter_right _ fun x _ hx => lt_of_le_of_lt hab hx)) 1

/-- A larger interval has no more slack. -/
theorem slack_mono (hi : i ≠ bottom) (h : i.leq j = true) : slack candidates j ≤ slack candidates i := by
  cases i with
  | bottom => exact absurd rfl hi
  | range l₁ h₁ _ =>
    cases j with
    | bottom => cases h
    | range l₂ h₂ _ =>
      rw [leq, Bool.and_eq_true] at h
      exact Nat.add_le_add (lowerSlack_mono h.1) (upperSlack_mono h.2)

end Interval

namespace Box

variable {candidates : Symbol → Finset ℤ} {a b : Box} {s : Symbol}

theorem get_ne_bottom (hb : b ≠ bottom) (s : Symbol) : b.get s ≠ .bottom := by
  cases b with
  | bottom => exact absurd rfl hb
  | ranges f hf =>
    intro hget
    have hget : f.get s = .bottom := hget
    refine hf (s, f.get s) (Sparse.mem_entries.mpr ⟨rfl, ?_⟩) hget
    rw [hget]
    nofun

theorem mem_bindings {i : Interval} : (s, i) ∈ b.bindings ↔ b.get s = i ∧ i ≠ .top ∧ b ≠ bottom := by
  cases b with
  | bottom => simp [bindings]
  | ranges f hf => simp [bindings, get, Sparse.mem_entries]

/-- Neither a range that says nothing is kept nor an empty one. -/
theorem ne_of_mem_bindings {e : Symbol × Interval} (he : e ∈ b.bindings) : e.2 ≠ .top ∧ e.2 ≠ .bottom := by
  obtain ⟨hget, htop, hne⟩ := mem_bindings.mp he
  exact ⟨htop, hget ▸ get_ne_bottom hne e.1⟩

/-- The order is inclusion. -/
theorem leq_iff_admits : a.leq b = true ↔ ∀ m, a.Admits m → b.Admits m := by
  refine ⟨fun h m hm => admits_of_leq h hm, fun h => ?_⟩
  cases a with
  | bottom => rfl
  | ranges f hf =>
    obtain ⟨m, hm⟩ : ∃ m : Symbol → ℤ, ∀ s, m s ∈ f.get s := by
      have hne : ∀ s, ∃ n, n ∈ f.get s := fun s => Interval.exists_mem (get_ne_bottom (b := ranges f hf) nofun s)
      exact ⟨fun s => (hne s).choose, fun s => (hne s).choose_spec⟩
    have hpoint : (ranges f hf).Admits fun s => (m s : ℚ) := fun s => Interval.admits_of_mem (hm s)
    cases b with
    | bottom => exact absurd (h _ hpoint) (not_admits_bottom _)
    | ranges g hg =>
      refine List.all_eq_true.mpr fun ⟨s, i⟩ he => Interval.leq_iff.mpr fun n hn => ?_
      -- One coordinate of an admitted point moves within its range.
      have hmoved : (ranges f hf).Admits fun t => (Function.update m s n t : ℚ) := by
        intro t
        refine Interval.admits_of_mem ?_
        by_cases hts : t = s
        · subst hts
          rw [Function.update_self]
          exact hn
        · rw [Function.update_of_ne hts]
          exact hm t
      have hs := h _ hmoved s
      rw [Function.update_self, Interval.admits_intCast] at hs
      rwa [← (Sparse.mem_entries.mp he).1]

theorem ne_bottom_of_leq (ha : a ≠ bottom) (h : a.leq b = true) : b ≠ bottom := by
  rintro rfl
  cases a with
  | bottom => exact ha rfl
  | ranges f hf => cases h

theorem leq_trans {c : Box} (hab : a.leq b = true) (hbc : b.leq c = true) : a.leq c = true :=
  leq_iff_admits.mpr fun _ hm => admits_of_leq hbc (admits_of_leq hab hm)

theorem get_leq (h : a.leq b = true) (s : Symbol) : (a.get s).leq (b.get s) = true := by
  cases a with
  | bottom => rfl
  | ranges f hf =>
    cases b with
    | bottom => cases h
    | ranges g hg =>
      by_cases hs : g.get s = .top
      · refine Interval.leq_iff.mpr fun n _ => ?_
        change n ∈ g.get s
        rw [hs]
        exact Interval.mem_top
      · exact List.all_eq_true.mp h (s, g.get s) (Sparse.mem_entries.mpr ⟨rfl, hs⟩)

/-- A larger box has no more slack. -/
theorem slack_mono (ha : a ≠ bottom) (h : a.leq b = true) : b.slack candidates ≤ a.slack candidates := by
  cases a with
  | bottom => exact absurd rfl ha
  | ranges f hf =>
    cases b with
    | bottom => cases h
    | ranges g hg =>
      refine (Finset.sum_le_sum fun s _ =>
        Interval.slack_mono (get_ne_bottom (b := ranges f hf) nofun s) (get_leq h s)).trans ?_
      refine Finset.sum_le_sum_of_subset fun s hs => ?_
      rw [List.mem_toFinset, Sparse.mem_support] at hs ⊢
      intro htop
      refine hs (Interval.leq_antisymm (Interval.leq_iff.mpr fun n _ => Interval.mem_top) ?_)
      have hle : (f.get s).leq (g.get s) = true := get_leq h s
      rwa [htop] at hle

end Box

namespace Value

variable {k : ValueKind} {u v w : Value} {m : Valuation} {s : Symbol} {e : LinearExpr}

section Canonical

theorem canonical_allEqualities (hv : v.eqs.Canonical) : v.allEqualities.Canonical := by
  unfold allEqualities
  split
  · exact hv
  · exact Equalities.canonical_ofRows _

theorem canonical_reduce (hv : v.eqs.Canonical) : v.reduce.eqs.Canonical := by
  unfold reduce
  dsimp only
  split
  · exact Equalities.canonical_empty
  · split
    · exact hv
    · split
      · exact Equalities.canonical_empty
      · split
        · exact Equalities.canonical_empty
        · exact canonical_allEqualities hv

theorem canonical_assign (hv : v.eqs.Canonical) (s : Symbol) (e : LinearExpr) : (v.assign s e).eqs.Canonical := by
  unfold assign
  dsimp only
  split
  · exact hv
  · refine canonical_reduce ?_
    dsimp only
    split
    · exact hv
    · split
      · exact Equalities.canonical_ofRows _
      · exact Equalities.canonical_ofRows _

theorem canonical_forget (hv : v.eqs.Canonical) (s : Symbol) : (v.forget s).eqs.Canonical := hv.project s

theorem canonical_constrain (hv : v.eqs.Canonical) (c : LinearConstraint) : (v.constrain c).eqs.Canonical := by
  unfold constrain
  dsimp only
  split
  · exact hv
  · split
    · exact hv
    · exact Equalities.canonical_empty
    · refine canonical_reduce ?_
      dsimp only
      split
      · exact Equalities.canonical_ofRows _
      · exact hv

theorem canonical_constrainAll (hv : v.eqs.Canonical) (cs : List LinearConstraint) :
    (v.constrainAll cs).eqs.Canonical := by
  unfold constrainAll
  induction cs generalizing v with
  | nil => exact hv
  | cons c cs ih => exact ih (canonical_constrain hv c)

theorem canonical_withEnv (hv : v.eqs.Canonical) (env : Environment) : (v.withEnv env).eqs.Canonical := by
  unfold withEnv
  generalize (v.env.symbols.filter fun s => !env.contains s) = dropped
  induction dropped generalizing v with
  | nil => exact hv
  | cons s ss ih => exact ih (canonical_forget hv s)

theorem canonical_joinAligned (hv : v.eqs.Canonical) (hw : w.eqs.Canonical) : (v.joinAligned w).eqs.Canonical := by
  unfold joinAligned
  split
  · exact hv
  · split
    · exact hw
    · dsimp only
      split
      · exact (canonical_allEqualities hv).join (canonical_allEqualities hw)
      · exact hv

theorem canonical_widenAligned (hv : v.eqs.Canonical) (hw : w.eqs.Canonical) (thresholds : List LinearConstraint) :
    (widenAligned thresholds v w).eqs.Canonical := by
  unfold widenAligned
  split
  · exact hv
  · split
    · exact hw
    · dsimp only
      split
      · exact (canonical_allEqualities hv).join (canonical_allEqualities hw)
      · exact hv

end Canonical

theorem isBottom_eq_false : v.isBottom = false ↔ v.box ≠ .bottom := by
  rw [isBottom, ← Bool.not_eq_true, Box.isBottom_iff]

theorem mem_fixedSymbols : e ∈ v.fixedSymbols ↔
    ∃ s c, v.box.get s = .point c ∧ v.box ≠ .bottom ∧ e = LinearExpr.var s - .const c := by
  simp only [fixedSymbols, List.mem_filterMap, Prod.exists, Option.map_eq_some_iff, Box.mem_bindings]
  constructor
  · rintro ⟨s, i, ⟨hs, -, hb⟩, c, hc, rfl⟩
    exact ⟨s, c, hs.trans (Interval.eq_point_of_singleton hc), hb, rfl⟩
  · rintro ⟨s, c, hs, hb, rfl⟩
    refine ⟨s, .point c, ⟨hs, ?_, hb⟩, c, ?_, rfl⟩
    · rw [Interval.point, Interval.make, dif_pos (by simp [boundsOrdered])]
      exact fun htop => Option.some_ne_none c (congrArg Interval.lo htop)
    · simp [Interval.point, Interval.make, Interval.singleton?, boundsOrdered]

theorem solvedBy_allEqualities_iff :
    v.allEqualities.SolvedBy m ↔ v.eqs.SolvedBy m ∧ ∀ e ∈ v.fixedSymbols, e.value m = 0 := by
  unfold allEqualities
  split
  · rename_i hnil
    simp [hnil]
  · exact Equalities.solvedBy_extend _ _ _

/-- What a larger box fixes, a smaller one fixes too. -/
theorem fixedSymbols_subset (hv : v.isBottom = false) (h : v.box.leq w.box = true) (he : e ∈ w.fixedSymbols) :
    e ∈ v.fixedSymbols := by
  have hne := isBottom_eq_false.mp hv
  obtain ⟨s, c, hs, -, rfl⟩ := mem_fixedSymbols.mp he
  refine mem_fixedSymbols.mpr ⟨s, c, ?_, hne, rfl⟩
  rw [← Interval.leq_point_iff (Box.get_ne_bottom hne s), ← hs]
  exact Box.get_leq h s

/-- The order, with the equalities compared at their solutions. -/
theorem leq_iff (hv : v.eqs.Canonical) : v.leq w = true ↔ v.box.leq w.box = true ∧
    (v.isBottom = false → ∀ m, v.allEqualities.SolvedBy m → w.eqs.SolvedBy m) := by
  have hall : (w.eqs.isEmpty || w.eqs.rows.all v.allEqualities.implies) = true ↔
      ∀ m, v.allEqualities.SolvedBy m → w.eqs.SolvedBy m := by
    have hrows : (w.eqs.isEmpty || w.eqs.rows.all v.allEqualities.implies) = w.eqs.rows.all v.allEqualities.implies := by
      cases hw : w.eqs.rows <;> simp [Equalities.isEmpty, hw]
    rw [hrows, List.all_eq_true]
    simp only [(canonical_allEqualities hv).implies_iff]
    exact ⟨fun h m hm e he => h e he m hm, fun h e he m hm => h m hm e he⟩
  unfold leq
  cases hb : v.isBottom with
  | true =>
    rw [isBottom, Box.isBottom_iff] at hb
    simp [hb, Box.leq]
  | false =>
    cases hwb : w.isBottom with
    | true =>
      refine iff_of_false (by simp) fun h => Box.ne_bottom_of_leq (isBottom_eq_false.mp hb) h.1 ?_
      rwa [isBottom, Box.isBottom_iff] at hwb
    | false =>
      rw [if_neg Bool.false_ne_true, if_neg Bool.false_ne_true, Bool.and_eq_true, hall]
      simp

theorem leq_trans (hv : v.eqs.Canonical) (hw : w.eqs.Canonical) (hvw : v.leq w = true) (hwu : w.leq u = true) :
    v.leq u = true := by
  obtain ⟨hbox, heqs⟩ := (leq_iff hv).mp hvw
  obtain ⟨hbox', heqs'⟩ := (leq_iff hw).mp hwu
  refine (leq_iff hv).mpr ⟨Box.leq_trans hbox hbox', fun hb m hm => ?_⟩
  have hwb : w.isBottom = false := isBottom_eq_false.mpr (Box.ne_bottom_of_leq (isBottom_eq_false.mp hb) hbox)
  refine heqs' hwb m (solvedBy_allEqualities_iff.mpr ⟨heqs hb m hm, fun e he => ?_⟩)
  exact (solvedBy_allEqualities_iff.mp hm).2 e (fixedSymbols_subset hb hbox he)

/-- What lies above a value is no higher, bottom apart. -/
theorem height_mono (hc : v.eqs.Canonical) (hv : v.isBottom = false) (h : v.leq u = true)
    (candidates : Symbol → Finset ℤ) : u.height candidates ≤ v.height candidates := by
  obtain ⟨hbox, heqs⟩ := (leq_iff hc).mp h
  have hne := isBottom_eq_false.mp hv
  have hub : u.isBottom = false := isBottom_eq_false.mpr (Box.ne_bottom_of_leq hne hbox)
  have hslack : u.box.slack candidates ≤ v.box.slack candidates := Box.slack_mono hne hbox
  have hrank : (if u.allEqualities.isUnsatisfiable then ⊤ else (u.allEqualities.rank : WithTop ℕ)) ≤
      if v.allEqualities.isUnsatisfiable then ⊤ else (v.allEqualities.rank : WithTop ℕ) := by
    cases hvs : v.allEqualities.isUnsatisfiable with
    | true => exact le_top
    | false =>
      -- A solution of the lower value is one of the upper, which is therefore satisfiable.
      have hall : ∀ m, v.allEqualities.SolvedBy m → u.allEqualities.SolvedBy m := fun m hm =>
        solvedBy_allEqualities_iff.mpr ⟨heqs hv m hm, fun e he =>
          (solvedBy_allEqualities_iff.mp hm).2 e (fixedSymbols_subset hv hbox he)⟩
      obtain ⟨m, hm⟩ := (canonical_allEqualities hc).exists_solvedBy hvs
      cases hus : u.allEqualities.isUnsatisfiable with
      | true => exact absurd (hall m hm) (Equalities.not_solvedBy_of_isUnsatisfiable hus m)
      | false =>
        refine WithTop.coe_le_coe.mpr (Equalities.rank_le_rank fun x hx e he => ?_)
        exact (canonical_allEqualities hc).functional_eq_zero hvs (fun m hm => hall m hm e he) hx
  rw [Prod.Lex.le_iff]
  simp only [height, ofLex_toLex]
  rw [if_neg (Bool.eq_false_iff.mp hub), if_neg (Bool.eq_false_iff.mp hv)]
  rcases hslack.lt_or_eq with hlt | heq
  · exact .inl (WithTop.coe_lt_coe.mpr hlt)
  · exact .inr ⟨by rw [heq], hrank⟩

section Bounds

variable (hk : k.domain = .intervals → k.rowless = true) (hv : v.OfKind k)

include hk hv

/-- A value that keeps no equalities has none. -/
theorem eqs_eq_empty (h : ¬ v.isRelational = true) : v.eqs = .empty := by
  refine hv.2 (hk ?_)
  rw [← hv.1]
  cases hd : v.domain with
  | intervals => rfl
  | intervalEqualities => exact absurd (by rw [isRelational, hd]; rfl) h

/-- The equalities of a join or a widening hold wherever those of one operand do. -/
theorem solvedBy_joined (h : v.allEqualities.SolvedBy m ∨ w.allEqualities.SolvedBy m) :
    (if v.isRelational then v.allEqualities.join w.allEqualities else v.eqs).SolvedBy m := by
  split
  · exact Equalities.solvedBy_join h
  · rename_i hr
    rw [eqs_eq_empty hk hv hr]
    exact Equalities.solvedBy_empty m

theorem leq_joinAligned_left (hc : v.eqs.Canonical) : v.leq (v.joinAligned w) = true := by
  unfold joinAligned
  split
  · exact leq_refl v
  · split
    · rename_i hb
      rw [leq, if_pos hb]
    · exact (leq_iff hc).mpr ⟨Box.leq_iff_admits.mpr fun m hm => Box.admits_join (.inl hm),
        fun _ m hm => solvedBy_joined hk hv (.inl hm)⟩

theorem leq_joinAligned_right (hc : w.eqs.Canonical) : w.leq (v.joinAligned w) = true := by
  unfold joinAligned
  split
  · rename_i hb
    rw [leq, if_pos hb]
  · split
    · exact leq_refl w
    · exact (leq_iff hc).mpr ⟨Box.leq_iff_admits.mpr fun m hm => Box.admits_join (.inr hm),
        fun _ m hm => solvedBy_joined hk hv (.inr hm)⟩

theorem leq_widenAligned_left (hc : v.eqs.Canonical) (thresholds : List LinearConstraint) :
    v.leq (widenAligned thresholds v w) = true := by
  unfold widenAligned
  split
  · exact leq_refl v
  · split
    · rename_i hb
      rw [leq, if_pos hb]
    · exact (leq_iff hc).mpr ⟨Box.leq_iff_admits.mpr fun m hm => Box.admits_widenTo (.inl hm),
        fun _ m hm => solvedBy_joined hk hv (.inl hm)⟩

theorem leq_widenAligned_right (hc : w.eqs.Canonical) (thresholds : List LinearConstraint) :
    w.leq (widenAligned thresholds v w) = true := by
  unfold widenAligned
  split
  · rename_i hb
    rw [leq, if_pos hb]
  · split
    · exact leq_refl w
    · exact (leq_iff hc).mpr
        ⟨Box.leq_iff_admits.mpr fun m hm => Box.admits_widenTo (.inr (Box.admits_join (.inr hm))),
          fun _ m hm => solvedBy_joined hk hv (.inr hm)⟩

/-- A widening by a join with a value that is not below grows. -/
theorem not_leq_of_widenAligned (hvc : v.eqs.Canonical) (hwc : w.eqs.Canonical) (h : w.leq v = false)
    (thresholds : List LinearConstraint) : (widenAligned thresholds v (v.joinAligned w)).leq v = false := by
  by_contra hle
  have hjoin := canonical_joinAligned hvc hwc
  have hup : w.leq (widenAligned thresholds v (v.joinAligned w)) = true :=
    leq_trans hwc hjoin (leq_joinAligned_right hk hv hwc) (leq_widenAligned_right hk hv hjoin thresholds)
  rw [leq_trans hwc (canonical_widenAligned hvc hjoin thresholds) hup (by simpa using hle)] at h
  cases h

/-- A join is no higher than its first operand. -/
theorem height_joinAligned (hc : v.eqs.Canonical) (candidates : Symbol → Finset ℤ) :
    (v.joinAligned w).height candidates ≤ v.height candidates := by
  by_cases hwb : w.isBottom = true
  · rw [joinAligned, if_pos hwb]
  · cases hvb : v.isBottom with
    | true =>
      rw [joinAligned, if_neg hwb, if_pos hvb]
      exact (height_lt_of_isBottom (by simpa [isBottom] using hwb) hvb).le
    | false => exact height_mono hc hvb (leq_joinAligned_left hk hv hc) candidates

end Bounds

theorem canonical_apply (hv : v.eqs.Canonical) (st : Statement) : (st.apply v).eqs.Canonical := by
  cases st with
  | assign s e => exact canonical_assign hv s e
  | havoc s => exact canonical_forget hv s
  | assume c => exact canonical_constrain hv c

end Value

/-- The images of values with canonical equalities have canonical equalities. -/
def Transfer.KeepsCanonical (t : Transfer) : Prop := ∀ p v, v.eqs.Canonical → (t.along p v).eqs.Canonical

theorem Program.keepsCanonical (p : Program) : p.transfer.KeepsCanonical := by
  have hblock : ∀ (sts : List Statement) (v : Value), v.eqs.Canonical → (sts.foldl Statement.apply v).eqs.Canonical := by
    intro sts
    induction sts with
    | nil => exact fun v hv => hv
    | cons st sts ih => exact fun v hv => ih _ (Value.canonical_apply hv st)
  intro path v hv
  unfold Transfer.along
  induction path.steps generalizing v with
  | nil => exact hv
  | cons s steps ih => exact ih _ (Value.canonical_constrainAll (hblock _ v hv) _)

end PathInvariants
