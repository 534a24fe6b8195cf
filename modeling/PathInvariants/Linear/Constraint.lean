import PathInvariants.Linear.Expr

/-!
# Linear constraints

Comparisons of a linear expression with zero. `tightened` strengthens the form of a constraint on
integers without changing its integer solutions.
-/

namespace PathInvariants

inductive Comparison where
  | ge
  | eq
  | gt
deriving DecidableEq, Repr

namespace Comparison

/-- The comparison of an integer with zero. -/
def holds : Comparison → Int → Bool
  | ge, n => decide (0 ≤ n)
  | eq, n => decide (n = 0)
  | gt, n => decide (0 < n)

def render : Comparison → String
  | ge => ">="
  | eq => "="
  | gt => ">"

end Comparison

structure LinearConstraint where
  expr : LinearExpr
  comparison : Comparison
deriving DecidableEq

namespace LinearConstraint

def ge (e : LinearExpr) : LinearConstraint := ⟨e, .ge⟩

def eq (e : LinearExpr) : LinearConstraint := ⟨e, .eq⟩

def gt (e : LinearExpr) : LinearConstraint := ⟨e, .gt⟩

def atMost (e f : LinearExpr) : LinearConstraint := ge (f - e)

def lessThan (e f : LinearExpr) : LinearConstraint := gt (f - e)

def atLeast (e f : LinearExpr) : LinearConstraint := ge (e - f)

def equal (e f : LinearExpr) : LinearConstraint := eq (e - f)

/-- A constraint that no valuation satisfies. -/
def never : LinearConstraint := ge (.const (-1))

def holds (c : LinearConstraint) (m : Symbol → Int) : Bool := c.comparison.holds (c.expr.eval m)

/-- The complement, where it is one constraint: a disequality is not. -/
def negated? (c : LinearConstraint) : Option LinearConstraint :=
  match c.comparison with
  | .ge => some (gt (-c.expr))
  | .gt => some (ge (-c.expr))
  | .eq => none

/-- Divides an inequality or equality by the divisor of its coefficients. -/
def reduced (e : LinearExpr) (comparison : Comparison) : LinearConstraint :=
  let g := e.content
  if g = 0 ∨ g = 1 then ⟨e, comparison⟩
  else if comparison = .ge ∨ e.constant % g = 0 then ⟨e.divide g, comparison⟩
  else never

/-- The constraint in its strongest form on integers: strict inequalities become non-strict and
coefficients lose their common divisor. -/
def tightened (c : LinearConstraint) : LinearConstraint :=
  match c.comparison with
  | .gt => reduced (c.expr - .const 1) .ge
  | comparison => reduced c.expr comparison

/-- The truth of a constraint without variables. -/
def constantTruth? (c : LinearConstraint) : Option Bool :=
  if c.expr.isConstant then some (c.comparison.holds c.expr.constant) else none

def render (c : LinearConstraint) : String := c.expr.render ++ " " ++ c.comparison.render ++ " 0"

end LinearConstraint

end PathInvariants
