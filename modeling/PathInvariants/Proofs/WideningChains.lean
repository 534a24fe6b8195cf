import PathInvariants.Proofs.ValueLattice

/-!
# Widening chains

A widening lies above both of its operands and is no higher than the first, and it is lower where it
grows. Heights are well-founded, so a chain of widenings by one list of thresholds grows finitely often,
whatever values it meets.
-/
namespace PathInvariants.Value

variable {domain : Domain} {env : Environment} {thresholds : List LinearConstraint} {v w : Value} {n : ℕ → Value}

/-- One step of a chain, a plain widening where there are no thresholds. -/
def widenStep (thresholds : List LinearConstraint) (v w : Value) : Except Fault Value :=
  if thresholds.isEmpty then v.widen w else widenTo thresholds v w

/-- The value after `k` steps from `v`, where step `k` meets the value `n k`. -/
def chain (thresholds : List LinearConstraint) (n : ℕ → Value) (v : Value) : ℕ → Except Fault Value
  | 0 => .ok v
  | k + 1 => do widenStep thresholds (← chain thresholds n v k) (n k)

theorem widenStep_of_env (henv : v.env = w.env) : widenStep thresholds v w = .ok (widenAligned thresholds v w) := by
  unfold widenStep
  split
  · rename_i hnil
    rw [List.isEmpty_iff.mp hnil]
    exact widenTo_of_env henv []
  · exact widenTo_of_env henv thresholds

theorem widenAligned_mem_over (hv : v ∈ Over domain env) (hw : w ∈ Over domain env) :
    widenAligned thresholds v w ∈ Over domain env :=
  ⟨hv.1.widenTo hw.1 (widenTo_of_env (hv.2.trans hw.2.symm) thresholds), (env_widenAligned _ _ _).trans hv.2⟩

/-- A widening is no higher than its first operand. -/
theorem height_widenAligned_le (hv : v.Formed domain) (thresholds : List LinearConstraint) (candidates : Symbol → Finset ℤ) :
    (widenAligned thresholds v w).height candidates ≤ v.height candidates := by
  by_cases hwb : w.isBottom = true
  · rw [widenAligned, if_pos hwb]
  · cases hvb : v.isBottom with
    | true =>
      rw [widenAligned, if_neg hwb, if_pos hvb]
      exact (height_lt_of_isBottom (by simpa [isBottom] using hwb) hvb).le
    | false =>
      have hle := leq_widenAligned_left (w := w) ValueKind.rowless_ofDomain hv.ordered.kind hv.ordered.canonical thresholds
      exact height_mono hv.ordered.canonical hvb hle candidates

/-- In a well-founded linear order, a sequence that never rises falls finitely often. -/
theorem finite_falls {α : Type*} [LinearOrder α] [WellFoundedLT α] {h : ℕ → α} (hle : ∀ k, h (k + 1) ≤ h k) :
    {k | h (k + 1) < h k}.Finite := by
  have hanti : Antitone h := antitone_nat_of_succ_le hle
  obtain ⟨_, ⟨N, rfl⟩, hmin⟩ := wellFounded_lt.has_min (Set.range h) ⟨h 0, 0, rfl⟩
  refine (Set.finite_lt_nat N).subset fun k (hk : h (k + 1) < h k) => ?_
  by_contra hN
  -- From the least element on there is nowhere to fall to.
  exact hmin (h (k + 1)) ⟨k + 1, rfl⟩ (hk.trans_le (hanti (not_lt.mp hN)))

theorem chain_succ {k : ℕ} {u : Value} (hu : u ∈ Over domain env) (hn : n k ∈ Over domain env)
    (h : chain thresholds n v k = .ok u) : chain thresholds n v (k + 1) = .ok (widenAligned thresholds u (n k)) := by
  rw [chain, h]
  exact widenStep_of_env (hu.2.trans hn.2.symm)

theorem exists_chain (thresholds : List LinearConstraint) (hv : v ∈ Over domain env) (hn : ∀ k, n k ∈ Over domain env)
    (k : ℕ) : ∃ u ∈ Over domain env, chain thresholds n v k = .ok u := by
  induction k with
  | zero => exact ⟨v, hv, rfl⟩
  | succ k ih =>
    obtain ⟨u, hu, hchain⟩ := ih
    exact ⟨_, widenAligned_mem_over hu (hn k), chain_succ hu (hn k) hchain⟩

/-- Widening by one list of thresholds, over one environment, from any value and with any sequence of values, always
succeeds. Every value of the chain lies above the one before and above what it has just met, and the chain grows
finitely often. -/
theorem widening_stabilizes (hv : v ∈ Over domain env) (hn : ∀ k, n k ∈ Over domain env)
    (thresholds : List LinearConstraint) : ∃ u : ℕ → Value, (∀ k, chain thresholds n v k = .ok (u k)) ∧
      (∀ k, u k ∈ Over domain env ∧ (u k).leq (u (k + 1)) = true ∧ (n k).leq (u (k + 1)) = true) ∧
      {k | (u (k + 1)).leq (u k) = false}.Finite := by
  choose u hu hchain using exists_chain thresholds hv hn
  have hstep : ∀ k, u (k + 1) = widenAligned thresholds (u k) (n k) := fun k =>
    Except.ok.inj ((hchain (k + 1)).symm.trans (chain_succ (hu k) (hn k) (hchain k)))
  refine ⟨u, hchain, fun k => ⟨hu k, ?_, ?_⟩, ?_⟩
  · rw [hstep]
    exact leq_widenAligned_left ValueKind.rowless_ofDomain (hu k).1.ordered.kind (hu k).1.ordered.canonical thresholds
  · rw [hstep]
    exact leq_widenAligned_right ValueKind.rowless_ofDomain (hu k).1.ordered.kind (hn k).1.ordered.canonical thresholds
  · simp only [hstep]
    have hle : ∀ k, (u (k + 1)).height (candidates thresholds) ≤ (u k).height (candidates thresholds) := fun k => by
      rw [hstep]
      exact height_widenAligned_le (hu k).1 thresholds _
    refine (finite_falls (h := fun k => (u k).height (candidates thresholds)) hle).subset fun k hk => ?_
    change (u (k + 1)).height _ < (u k).height _
    rw [hstep]
    exact height_widenAligned (fun c hc => hc) hk

/-- The points of the diagonal, one after another, with a threshold at ten. -/
theorem widening_stabilizes_diagonal :
    let env := Environment.ofInts ["x", "y"]
    let points : ℕ → Value := fun k => ((top .intervalEqualities env).assign "x" (.const k)).assign "y" (.const k)
    let thresholds := [LinearConstraint.ge (.const 10 - .var "x")]
    points 0 ∈ Over .intervalEqualities env ∧ (∀ k, points k ∈ Over .intervalEqualities env) ∧
      ∃ u : ℕ → Value, (∀ k, chain thresholds points (points 0) k = .ok (u k)) ∧ (u 2).leq (u 1) = false ∧
        (∀ k, (u k).leq (u (k + 1)) = true ∧ (points k).leq (u (k + 1)) = true) ∧
        {k | (u (k + 1)).leq (u k) = false}.Finite := by
  intro env points thresholds
  have hpoints : ∀ k, points k ∈ Over .intervalEqualities env := fun k =>
    ⟨.assign (.assign (.top env) _ _) _ _, by rw [env_assign, env_assign]; rfl⟩
  obtain ⟨u, hu, habove, hfinite⟩ := widening_stabilizes (hpoints 0) hpoints thresholds
  have hgrows : (do
      let a ← chain thresholds points (points 0) 1
      let b ← chain thresholds points (points 0) 2
      pure (b.leq a)) = (.ok false : Except Fault Bool) := by decide +kernel
  rw [hu 1, hu 2] at hgrows
  exact ⟨hpoints 0, hpoints, u, hu, Except.ok.inj hgrows, fun k => (habove k).2, hfinite⟩

end PathInvariants.Value
