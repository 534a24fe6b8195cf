import PathInvariants.Proofs.CanonicalEqualities

/-!
# Exact transfer functions of affine equalities

A havoc and an invertible assignment, seen at the rational solutions of a system. Elimination with a symbol in
the first column leaves at most one equation that mentions it, and that one can be solved for the symbol whatever
the others are; so the equations that do not mention it say what is left once it is forgotten. After an
assignment the old value of the symbol can be recovered from the new one by a division, which the rows avoid by
a multiple.
-/
namespace PathInvariants

open PathInvariants.Echelon

/-- A row with an entry in the first column has its pivot there. -/
theorem Echelon.Reduced.pivot_eq_zero {n : ℕ} {m : Echelon} (hm : Reduced n n m) {x : Row × ℕ} (hx : x ∈ m.pivotRows)
    (h : x.1.entry 0 ≠ 0) : x.2 = 0 := by
  by_contra hne
  exact h (hm.leading x hx 0 (Nat.pos_of_ne_zero hne))

/-- The value before an assignment `s := e`, from the values after it. -/
def LinearExpr.recovered (e : LinearExpr) (s : Symbol) (m : Valuation) : ℚ := (m s - (e.without s).value m) / e.coeff s

theorem LinearExpr.value_recovered {e : LinearExpr} {s : Symbol} (he : e.coeff s ≠ 0) (m : Valuation) :
    e.value (Function.update m s (e.recovered s m)) = m s := by
  have he' : (e.coeff s : ℚ) ≠ 0 := by exact_mod_cast he
  rw [value_update_eq, recovered, value_without]
  field_simp
  ring

namespace Equalities

variable {q : Equalities} {rows : List LinearExpr} {s : Symbol} {e f : LinearExpr} {m : Valuation}

/-- One equation that mentions a symbol can be solved for it. -/
theorem exists_solvedBy_of_one (hone : ∀ e ∈ q.rows, ∀ f ∈ q.rows, e.coeff s ≠ 0 → f.coeff s ≠ 0 → e = f)
    (h : ∀ e ∈ q.rows, e.coeff s = 0 → e.value m = 0) : ∃ m', q.SolvedBy m' ∧ ∀ t, t ≠ s → m t = m' t := by
  by_cases hex : ∃ e ∈ q.rows, e.coeff s ≠ 0
  · obtain ⟨e, he, hs⟩ := hex
    have hs' : (e.coeff s : ℚ) ≠ 0 := by exact_mod_cast hs
    refine ⟨Function.update m s (m s - e.value m / e.coeff s), fun f hf => ?_, fun t ht => (Function.update_of_ne ht _ _).symm⟩
    by_cases hfs : f.coeff s = 0
    · rw [LinearExpr.value_update hfs]
      exact h f hf hfs
    · obtain rfl := hone e he f hf hs hfs
      rw [LinearExpr.value_update_eq]
      field_simp
      ring
  · push Not at hex
    exact ⟨m, fun e he => h e he (hex e he), fun _ _ => rfl⟩

/-- Elimination leaves one equation with the symbol of the first column. -/
theorem eq_of_mem_eliminate {order : List Symbol} (hn : (s :: order).Nodup)
    (he : e ∈ (eliminate rows (s :: order)).rows) (hf : f ∈ (eliminate rows (s :: order)).rows) (hes : e.coeff s ≠ 0)
    (hfs : f.coeff s ≠ 0) : e = f := by
  unfold eliminate at he hf
  dsimp only at he hf
  split at he
  · rw [List.mem_singleton.mp he] at hes
    exact absurd (LinearExpr.coeff_const 1 s) hes
  · rename_i hp
    rw [if_neg hp] at hf
    have hm := reduced_ofRows (@length_of_mem_map_toRow rows (s :: order))
    obtain ⟨r, hr, rfl⟩ := List.mem_map.mp he
    obtain ⟨r', hr', rfl⟩ := List.mem_map.mp hf
    obtain ⟨x, hx, rfl⟩ := hm.mem_rows_iff.mp hr
    obtain ⟨y, hy, rfl⟩ := hm.mem_rows_iff.mp hr'
    have hentry : ∀ row : Row, (LinearExpr.ofRow row (s :: order)).coeff s = row.entry 0 := fun row =>
      LinearExpr.coeff_ofRow_getElem hn row (i := 0) (by simp)
    rw [hentry] at hes hfs
    rw [hm.pivotRows_inj hx hy ((hm.pivot_eq_zero hx hes).trans (hm.pivot_eq_zero hy hfs).symm)]

/-- The solutions after a havoc agree with a solution but at the symbol. -/
theorem solvedBy_project_iff : (q.project s).SolvedBy m ↔ ∃ m', q.SolvedBy m' ∧ ∀ t, t ≠ s → m t = m' t := by
  constructor
  · intro h
    unfold project at h
    split at h
    · let order := (symbolsOf q.rows).filter (· != s)
      have hn : (s :: order).Nodup := List.nodup_cons.mpr ⟨by simp [order], (nodup_symbolsOf _).filter _⟩
      have hs : ∀ e ∈ q.rows, ∀ t, e.coeff t ≠ 0 → t ∈ s :: order := by
        intro e he t ht
        by_cases hts : t = s
        · simp [hts]
        · exact List.mem_cons_of_mem _ (List.mem_filter.mpr ⟨mem_symbolsOf he ht, by simpa using hts⟩)
      obtain ⟨m', hm', hoff⟩ := exists_solvedBy_of_one (q := eliminate q.rows (s :: order)) (s := s) (m := m)
        (fun e he f hf => eq_of_mem_eliminate hn he hf) fun e he hes =>
          (solvedBy_ofRows _ m).mp h e (List.mem_filter.mpr ⟨he, by simpa [LinearExpr.mentions] using hes⟩)
      exact ⟨m', (solvedBy_eliminate hn hs m').mp hm', hoff⟩
    · exact ⟨m, h, fun _ _ => rfl⟩
  · rintro ⟨m', hm', hoff⟩
    exact solvedBy_project hoff hm'

/-- The solutions after an invertible assignment are the solutions before it, with the assignment carried out. -/
theorem solvedBy_substitute_iff (he : e.coeff s ≠ 0) :
    (q.substitute s e).SolvedBy m ↔ ∃ m', q.SolvedBy m' ∧ m = Function.update m' s (e.value m') := by
  have he' : (e.coeff s : ℚ) ≠ 0 := by exact_mod_cast he
  constructor
  · intro h
    refine ⟨Function.update m s (e.recovered s m), fun row hrow => ?_, ?_⟩
    · have hzero := (solvedBy_ofRows _ m).mp h _ (List.mem_map_of_mem hrow)
      split at hzero
      · rw [LinearExpr.value_sub, LinearExpr.value_add, LinearExpr.value_scale, LinearExpr.value_scale,
          LinearExpr.value_term, LinearExpr.value_without row] at hzero
        rw [LinearExpr.value_update_eq, LinearExpr.recovered]
        field_simp
        linear_combination hzero
      · rename_i hfree
        have hrs : row.coeff s = 0 := by simpa [LinearExpr.mentions] using hfree
        rw [LinearExpr.value_update hrs]
        exact hzero
    · rw [LinearExpr.value_recovered he, Function.update_idem, Function.update_eq_self]
  · rintro ⟨m', hm', rfl⟩
    exact solvedBy_substitute hm'

/-- Havocs and invertible assignments neither lose nor invent solutions, whatever the system. -/
theorem transfer_exact (q : Equalities) (s : Symbol) :
    (∀ m, (q.project s).SolvedBy m ↔ ∃ m', q.SolvedBy m' ∧ ∀ t, t ≠ s → m t = m' t) ∧
      ∀ e : LinearExpr, e.coeff s ≠ 0 → ∃ q', q.substitute? s e = .ok q' ∧
        ∀ m, q'.SolvedBy m ↔ ∃ m', q.SolvedBy m' ∧ m = Function.update m' s (e.value m') := by
  refine ⟨fun m => solvedBy_project_iff, fun e he => ⟨q.substitute s e, ?_, fun m => solvedBy_substitute_iff he⟩⟩
  exact if_pos (LinearExpr.mentions_iff.mpr he)

/-- From a solution of `x = y + 1` and `y = z`, a havoc of `y` leads to one in which `y` is any number, and
`x := 3 - 2 * x` to one with `x = -9`. -/
theorem transfer_exact_chain :
    let chain := empty.extend [.var "x" - .var "y" - .const 1, .var "y" - .var "z"]
    let flip := .const 3 - (LinearExpr.var "x").scale 2
    let m : Valuation := fun t => if t = "x" then 6 else 5
    chain.SolvedBy m ∧ (chain.project "y").SolvedBy (Function.update m "y" 100) ∧ flip.coeff "x" ≠ 0 ∧
      ∃ q', chain.substitute? "x" flip = .ok q' ∧ q'.SolvedBy (Function.update m "x" (-9)) := by
  intro chain flip m
  have hm : chain.SolvedBy m :=
    (solvedBy_extend _ _ _).mpr ⟨solvedBy_empty _, by simp [m, LinearExpr.value_sub]; norm_num⟩
  have hvalue : flip.value m = -9 := by
    simp [flip, m, LinearExpr.value_sub, LinearExpr.value_scale]
    norm_num
  have hflip : flip.coeff "x" ≠ 0 := by decide +kernel
  obtain ⟨q', hq', hiff⟩ := (transfer_exact chain "x").2 flip hflip
  refine ⟨hm, ((transfer_exact chain "y").1 _).mpr ⟨m, hm, fun t ht => Function.update_of_ne ht _ _⟩, hflip, q', hq', ?_⟩
  exact (hiff _).mpr ⟨m, hm, by rw [hvalue]⟩

end Equalities

end PathInvariants
