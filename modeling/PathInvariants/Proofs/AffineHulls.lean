import PathInvariants.Proofs.CanonicalEqualities

/-!
# Joins are affine hulls

The solutions of a system of equalities are an affine subspace of the rational valuations. A join keeps
every equation that both systems imply. Up to a factor these equations are all the affine functions that
are zero at the solutions of both, because such a function is a rational combination of the rows. So no
affine subspace between the two systems and their join is smaller than the join.
-/
namespace PathInvariants

namespace LinearExpr

theorem functional_one (e : LinearExpr) (m : Valuation) : e.functional (m, 1) = e.value m := by
  rw [functional_apply, sub_self, mul_zero, add_zero]

theorem functional_add (e f : LinearExpr) : (e + f).functional = e.functional + f.functional := by
  refine LinearMap.ext fun x => ?_
  rw [LinearMap.add_apply, functional_apply, functional_apply, functional_apply, value_add, constant_add]
  push_cast
  ring

theorem functional_scale (e : LinearExpr) (k : ℤ) : (e.scale k).functional = (k : ℚ) • e.functional := by
  have hconstant : (e.scale k).constant = e.constant * k := rfl
  refine LinearMap.ext fun x => ?_
  rw [LinearMap.smul_apply, functional_apply, functional_apply, value_scale, hconstant, smul_eq_mul]
  push_cast
  ring

end LinearExpr

namespace Equalities

variable {p q : Equalities}

/-- The solutions of a system, as an affine subspace. -/
def solutions (q : Equalities) : AffineSubspace ℚ Valuation where
  carrier := { m | q.SolvedBy m }
  smul_vsub_vadd_mem' := by
    intro c m₁ m₂ m₃ h₁ h₂ h₃ e he
    have hpoint : (c • (m₁ -ᵥ m₂) +ᵥ m₃, (1 : ℚ)) = c • ((m₁, 1) - (m₂, 1)) + (m₃, 1) := by simp
    rw [← e.functional_one, hpoint, map_add, map_smul, map_sub, e.functional_one, e.functional_one, e.functional_one,
      h₁ e he, h₂ e he, h₃ e he]
    simp

/-- A functional in the span of the rows is an expression, up to the denominators. -/
theorem exists_functional_of_mem_rowSpan {φ : Valuation × ℚ →ₗ[ℚ] ℚ} (h : φ ∈ q.rowSpan) :
    ∃ (k : ℤ) (e : LinearExpr), k ≠ 0 ∧ e.functional = (k : ℚ) • φ := by
  induction h using Submodule.span_induction with
  | mem φ hφ =>
    obtain ⟨i, rfl⟩ := hφ
    exact ⟨1, q.rows.get i, one_ne_zero, by rw [Int.cast_one, one_smul]⟩
  | zero =>
    refine ⟨1, .const 0, one_ne_zero, LinearMap.ext fun x => ?_⟩
    rw [LinearExpr.functional_apply, LinearExpr.value_const]
    simp [LinearExpr.const]
  | add φ ψ _ _ hφ hψ =>
    obtain ⟨k, e, hk, he⟩ := hφ
    obtain ⟨l, f, hl, hf⟩ := hψ
    refine ⟨k * l, e.scale l + f.scale k, mul_ne_zero hk hl, ?_⟩
    rw [LinearExpr.functional_add, LinearExpr.functional_scale, LinearExpr.functional_scale, he, hf]
    push_cast
    module
  | smul a φ _ hφ =>
    obtain ⟨k, e, hk, he⟩ := hφ
    refine ⟨k * a.den, e.scale a.num, mul_ne_zero hk (by exact_mod_cast a.den_nz), ?_⟩
    have hden : (a.den : ℚ) * a = a.num := by rw [mul_comm, Rat.mul_den_eq_num]
    rw [LinearExpr.functional_scale, he, smul_smul, smul_smul, ← hden]
    push_cast
    ring_nf

/-- An affine function that is constant on the solutions of both systems is constant on those of their join. -/
theorem Canonical.eq_of_join (hp : p.Canonical) (hq : q.Canonical) {φ : Valuation →ₗ[ℚ] ℚ} {c : ℚ}
    (h : ∀ m, p.SolvedBy m ∨ q.SolvedBy m → φ m = c) {m : Valuation} (hm : (p.join q).SolvedBy m) : φ m = c := by
  by_cases hpu : p.isUnsatisfiable = true
  · rw [Equalities.join, if_pos hpu] at hm
    exact h m (.inr hm)
  · -- The function is a combination of the rows of the first system, so an equation of integer coefficients.
    let ψ : Valuation × ℚ →ₗ[ℚ] ℚ := φ ∘ₗ LinearMap.fst ℚ Valuation ℚ - c • LinearMap.snd ℚ Valuation ℚ
    have hψ : ∀ m, ψ (m, 1) = φ m - c := fun m => by simp [ψ]
    have hspan : ψ ∈ p.rowSpan := mem_rowSpan.mpr fun x hx => by
      refine hp.map_eq_zero (by simpa using hpu) (fun m hm => ?_) hx
      rw [hψ, h m (.inl hm), sub_self]
    obtain ⟨k, e, hk, he⟩ := exists_functional_of_mem_rowSpan hspan
    have hvalue : ∀ m, e.value m = k * (φ m - c) := fun m => by
      rw [← e.functional_one, he, LinearMap.smul_apply, hψ, smul_eq_mul]
    have hzero := hp.value_of_join (e := e) hq (fun m hm => by rw [hvalue, h m hm, sub_self, mul_zero]) hm
    rw [hvalue] at hzero
    have hk' : (k : ℚ) ≠ 0 := by exact_mod_cast hk
    exact sub_eq_zero.mp ((mul_eq_zero.mp hzero).resolve_left hk')

/-- An affine subspace that contains the solutions of both systems contains those of their join. -/
theorem Canonical.solutions_join_le (hp : p.Canonical) (hq : q.Canonical) {A : AffineSubspace ℚ Valuation}
    (hpA : p.solutions ≤ A) (hqA : q.solutions ≤ A) : (p.join q).solutions ≤ A := by
  have hmem : ∀ m, p.SolvedBy m ∨ q.SolvedBy m → m ∈ A := fun m h => h.elim (fun h => hpA h) fun h => hqA h
  intro m hm
  -- One of the systems has a solution: otherwise both would imply the equation `1 = 0`.
  obtain ⟨o, ho⟩ : ∃ o, p.SolvedBy o ∨ q.SolvedBy o := by
    by_contra hnone
    have hone := hp.value_of_join (e := .const 1) hq (fun m h => absurd ⟨m, h⟩ hnone) hm
    simp at hone
  by_contra hne
  have hdirection : m -ᵥ o ∉ A.direction := fun h =>
    hne (by simpa using AffineSubspace.vadd_mem_of_mem_direction h (hmem o ho))
  obtain ⟨φ, hφ, hker⟩ := Submodule.exists_le_ker_of_notMem hdirection
  have hconstant : ∀ m', p.SolvedBy m' ∨ q.SolvedBy m' → φ m' = φ o := by
    intro m' h
    have hzero : φ (m' -ᵥ o) = 0 := hker (AffineSubspace.vsub_mem_direction (hmem m' h) (hmem o ho))
    rwa [vsub_eq_sub, map_sub, sub_eq_zero] at hzero
  refine hφ ?_
  rw [vsub_eq_sub, map_sub, hp.eq_of_join hq hconstant hm, sub_self]

/-- The solutions of a join are the least affine subspace that contains those of both systems, so the join implies
exactly the equations that both imply. -/
theorem isLeast_solutions_join (hp : p.Built) (hq : q.Built) :
    IsLeast { A : AffineSubspace ℚ Valuation | p.solutions ≤ A ∧ q.solutions ≤ A } (p.join q).solutions ∧
      ∀ e, (p.join q).implies e = true ↔ p.implies e = true ∧ q.implies e = true := by
  have hpc := hp.canonical
  have hqc := hq.canonical
  refine ⟨⟨⟨fun m hm => solvedBy_join (.inl hm), fun m hm => solvedBy_join (.inr hm)⟩, fun A hA => ?_⟩, fun e => ?_⟩
  · exact hpc.solutions_join_le hqc hA.1 hA.2
  · rw [hpc.implies_iff, hqc.implies_iff, (hpc.join hqc).implies_iff]
    constructor
    · intro h
      exact ⟨fun m hm => h m (solvedBy_join (.inl hm)), fun m hm => h m (solvedBy_join (.inr hm))⟩
    · rintro ⟨hpe, hqe⟩ m hm
      exact hpc.value_of_join hqc (fun m h => h.elim (hpe m) (hqe m)) hm

/-- The hull of two points is the line through them, and that of a point and nothing the point. -/
theorem isLeast_solutions_join_points :
    let origin := empty.extend [.var "x", .var "y"]
    let corner := empty.extend [.var "x" - .const 2, .var "y" - .const 4]
    let line := origin.join corner
    line.implies (.var "y" - (LinearExpr.var "x").scale 2) = true ∧
      (∀ A : AffineSubspace ℚ Valuation, origin.solutions ≤ A → corner.solutions ≤ A → line.solutions ≤ A) ∧
      IsLeast { A : AffineSubspace ℚ Valuation | origin.solutions ≤ A ∧ unsatisfiable.solutions ≤ A }
        (origin.join unsatisfiable).solutions := by
  intro origin corner line
  have horigin : origin.Built := .extend .empty _
  have hcorner : corner.Built := .extend .empty _
  have hline := isLeast_solutions_join horigin hcorner
  refine ⟨(hline.2 _).mpr ⟨by decide +kernel, by decide +kernel⟩, fun A ho hc => hline.1.2 ⟨ho, hc⟩, ?_⟩
  exact (isLeast_solutions_join horigin .unsatisfiable).1

end Equalities

end PathInvariants
