import PathInvariants.Box.Basic
import PathInvariants.Linear.Constraint

/-!
# Linear constraints on boxes

The range of a linear expression over a box, and the tightening of a box by a constraint, one
symbol at a time.
-/

namespace PathInvariants.Box

/-- The range of an expression over the box. -/
def rangeOf (b : Box) (e : LinearExpr) : Interval :=
  e.terms.foldl (fun i t => i.add ((b.get t.1).scale t.2)) (.point e.constant)

/-- What a comparison of `a * s + rest` with zero says about `a * s`, for a given range of
`-rest`. -/
def targetOf (comparison : Comparison) (minusRest : Interval) : Interval :=
  match comparison with
  | .eq => minusRest
  | .ge | .gt => minusRest.lo.elim .top .atLeast

/-- Tightens the range of `s`, which has the coefficient `a` in the expression. -/
def tighten (integral : Symbol → Bool) (e : LinearExpr) (comparison : Comparison) (b : Box) (s : Symbol)
    (a : Int) : Box :=
  let minusRest := (b.rangeOf (e.without s)).scale (-1)
  b.update s fun i => i.meet ((targetOf comparison minusRest).divide a (integral s))

/-- Tightens the range of each symbol of the expression in turn. -/
def propagate (integral : Symbol → Bool) (e : LinearExpr) (comparison : Comparison) (b : Box) : Box :=
  e.terms.foldl (fun b t => b.tighten integral e comparison t.1 t.2) b

end PathInvariants.Box
