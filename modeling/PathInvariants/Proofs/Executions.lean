import PathInvariants.Program
import PathInvariants.Proofs.ValueStates

/-!
# Executions of linear programs

Stores are integral valuations. A program steps from the start of one block to the start of another:
it runs the statements of the first and satisfies the guards of the edge at the end. The transfer
functions of a program follow its steps.
-/
namespace PathInvariants

/-- The integers that the symbols hold. -/
abbrev Store := Symbol → ℤ

/-- The store as a rational valuation. -/
def Store.point (σ : Store) : Valuation := fun s => σ s

theorem Store.point_update (σ : Store) (s : Symbol) (n : ℤ) :
    Store.point (Function.update σ s n) = Function.update σ.point s (n : ℚ) :=
  funext fun t => Function.apply_update (fun _ (n : ℤ) => (n : ℚ)) σ s n t

theorem LinearExpr.value_point (e : LinearExpr) (σ : Store) : e.value σ.point = e.eval σ := e.value_intCast σ

namespace LinearExpr

@[simp] theorem eval_var (s : Symbol) (σ : Store) : (var s).eval σ = σ s := by
  have hvalue := value_var s σ.point
  rw [value_point, Store.point] at hvalue
  exact_mod_cast hvalue

@[simp] theorem eval_const (n : ℤ) (σ : Store) : (const n).eval σ = n := by
  have hvalue := value_const n σ.point
  rw [value_point] at hvalue
  exact_mod_cast hvalue

@[simp] theorem eval_add (e f : LinearExpr) (σ : Store) : (e + f).eval σ = e.eval σ + f.eval σ := by
  have hvalue := value_add e f σ.point
  rw [value_point, value_point, value_point] at hvalue
  exact_mod_cast hvalue

@[simp] theorem eval_sub (e f : LinearExpr) (σ : Store) : (e - f).eval σ = e.eval σ - f.eval σ := by
  have hvalue := value_sub e f σ.point
  rw [value_point, value_point, value_point] at hvalue
  exact_mod_cast hvalue

end LinearExpr

theorem LinearConstraint.holdsAt_point {c : LinearConstraint} {σ : Store} : c.HoldsAt σ.point ↔ c.holds σ = true :=
  c.holdsAt_intCast σ

theorem Environment.integralAt_point (env : Environment) (σ : Store) : env.IntegralAt σ.point :=
  env.integralAt_intCast σ

/-- The store lies within the bounds of the box and satisfies the equality rows. -/
def Value.Contains (v : Value) (σ : Store) : Prop := (∀ s, σ s ∈ v.box.get s) ∧ ∀ e ∈ v.eqs.rows, e.eval σ = 0

theorem Value.contains_iff {v : Value} {σ : Store} : v.Contains σ ↔ v.Admits σ.point := by
  refine and_congr (forall_congr' fun s => Interval.admits_intCast.symm) (forall₂_congr fun e _ => ?_)
  rw [LinearExpr.value_point, Int.cast_eq_zero]

namespace Statement

inductive Step : Statement → Store → Store → Prop
  | assign (s : Symbol) (e : LinearExpr) (σ : Store) : Step (.assign s e) σ (Function.update σ s (e.eval σ))
  | havoc (s : Symbol) (n : ℤ) (σ : Store) : Step (.havoc s) σ (Function.update σ s n)
  | assume {c : LinearConstraint} {σ : Store} : c.holds σ = true → Step (.assume c) σ σ

inductive Runs : List Statement → Store → Store → Prop
  | nil (σ : Store) : Runs [] σ σ
  | cons {st : Statement} {sts : List Statement} {σ σ₁ σ₂ : Store} : Step st σ σ₁ → Runs sts σ₁ σ₂ → Runs (st :: sts) σ σ₂

end Statement

namespace Program

def statements (p : Program) (b : Block) : List Statement := (p.graph.payload? b).elim [] (·.statements)

/-- From the start of `a` with the store `σ` to the start of `b` with `σ'`. -/
structure Step (p : Program) (a : Block) (σ : Store) (b : Block) (σ' : Store) : Prop where
  edge : b ∈ p.graph.successors a
  body : Statement.Runs (p.statements a) σ σ'
  guards : ∀ c ∈ p.guards a b, c.holds σ' = true

/-- Standing at the start of a block in an execution from the entry, with any initial store, that goes no
further from the blocks where it stops. -/
inductive Arrives (p : Program) (stops : Block → Bool) : Block → Store → Prop
  | entry (σ : Store) : Arrives p stops p.graph.entry σ
  | step {a b : Block} {σ σ' : Store} : Arrives p stops a σ → stops a = false → p.Step a σ b σ' → Arrives p stops b σ'

/-- Some execution reaches the start of the block with the store. -/
def Reaches (p : Program) : Block → Store → Prop := p.Arrives fun _ => false

/-- Some execution that stops at the first error site reaches the start of the block with the store. -/
def ReachesSafely (p : Program) : Block → Store → Prop := p.Arrives fun b => (p.graph.role b).isErrorSite

end Program

/-- A walk along consecutive blocks of a path. -/
inductive Walk (step : Block → Store → Block → Store → Prop) : List Block → Store → Store → Prop
  | last (b : Block) (σ : Store) : Walk step [b] σ σ
  | cons {a b : Block} {bs : List Block} {σ σ₁ σ₂ : Store} :
      step a σ b σ₁ → Walk step (b :: bs) σ₁ σ₂ → Walk step (a :: b :: bs) σ σ₂

/-- The transfer functions keep a kind of values and take the stores of a value to their successors. -/
structure Transfer.Follows (t : Transfer) (k : ValueKind) (step : Block → Store → Block → Store → Prop) : Prop where
  ofKind {v : Value} (a b : Block) : v.OfKind k → (t.edge a b (t.block a v)).OfKind k
  allows {v : Value} {a b : Block} {σ σ' : Store} :
    step a σ b σ' → v.OfKind k → v.Allows σ.point → (t.edge a b (t.block a v)).Allows σ'.point

variable {k : ValueKind} {v : Value} {σ σ' : Store}

theorem Value.OfKind.apply (hv : v.OfKind k) (st : Statement) : (st.apply v).OfKind k := by
  cases st with
  | assign s e => exact hv.assign s e
  | havoc s => exact hv.forget s
  | assume c => exact hv.constrain c

theorem Value.allows_apply {st : Statement} (h : st.Step σ σ') (hv : v.Allows σ.point) :
    (st.apply v).Allows σ'.point := by
  cases h with
  | assign s e =>
    have hpoint : Store.point (Function.update σ s (e.eval σ)) = Function.update σ.point s (e.value σ.point) := by
      rw [Store.point_update, LinearExpr.value_point]
    rw [hpoint]
    refine Value.allows_assign ?_ hv
    rw [← hpoint]
    exact Environment.integralAt_point _ _
  | havoc s n =>
    refine Value.allows_forget (fun t ht => ?_) hv
    rw [Store.point, Function.update_of_ne ht]
    rfl
  | assume hc =>
    exact Value.allows_constrain (Environment.integralAt_point _ σ) (LinearConstraint.holdsAt_point.mpr hc) hv

theorem Value.allows_constrainAll {cs : List LinearConstraint} (hc : ∀ c ∈ cs, c.holds σ = true)
    (hv : v.Allows σ.point) : (v.constrainAll cs).Allows σ.point := by
  unfold Value.constrainAll
  induction cs generalizing v with
  | nil => exact hv
  | cons c cs ih =>
    refine ih (fun c' hc' => hc c' (by simp [hc'])) ?_
    exact Value.allows_constrain (Environment.integralAt_point _ σ)
      (LinearConstraint.holdsAt_point.mpr (hc c (by simp))) hv

theorem Value.OfKind.foldl_apply (hv : v.OfKind k) (sts : List Statement) : (sts.foldl Statement.apply v).OfKind k := by
  induction sts generalizing v with
  | nil => exact hv
  | cons st sts ih => exact ih (hv.apply st)

theorem Value.allows_foldl_apply {sts : List Statement} (h : Statement.Runs sts σ σ') (hv : v.Allows σ.point) :
    (sts.foldl Statement.apply v).Allows σ'.point := by
  induction h generalizing v with
  | nil => exact hv
  | cons hs _ ih => exact ih (Value.allows_apply hs hv)

theorem Program.transfer_block (p : Program) (b : Block) (v : Value) :
    p.transfer.block b v = (p.statements b).foldl Statement.apply v := by
  have hpayload : p.graph.payloads.toArray[b]? = p.graph.payload? b := by simp [FlowGraph.payload?]
  simp only [transfer, hpayload]
  rfl

/-- The transfer functions of a program follow its steps. -/
theorem Program.transfer_follows (p : Program) (k : ValueKind) : p.transfer.Follows k p.Step where
  ofKind a b hv := by
    rw [transfer_edge, transfer_block]
    exact (hv.foldl_apply _).constrainAll _
  allows h _ hv := by
    rw [transfer_edge, transfer_block]
    exact Value.allows_constrainAll h.guards (Value.allows_foldl_apply h.body hv)

namespace Transfer.Follows

variable {t : Transfer} {step : Block → Store → Block → Store → Prop}

theorem ofKind_along (ht : t.Follows k step) (hv : v.OfKind k) (p : Path) : (t.along p v).OfKind k := by
  unfold along
  generalize p.steps = steps
  induction steps generalizing v with
  | nil => exact hv
  | cons s steps ih => exact ih (ht.ofKind s.1 s.2 hv)

/-- A path takes the stores of a value to where its walks end. -/
theorem allows_along (ht : t.Follows k step) (hv : v.OfKind k) {blocks : List Block} (h : Walk step blocks σ σ')
    (hσ : v.Allows σ.point) : (t.along ⟨blocks⟩ v).Allows σ'.point := by
  induction h generalizing v with
  | last => exact hσ
  | cons hs _ ih => exact ih (ht.ofKind _ _ hv) (ht.allows hs hv hσ)

end Transfer.Follows

end PathInvariants
