import PathInvariants.Fault
import PathInvariants.Linear.Expr
import PathInvariants.RowSpace

/-!
# Affine equalities

Conjunctions of equations `e = 0` between linear expressions. The rows are the reduced echelon form
over the symbols in order, followed by the constant column; an unsatisfiable system is the one
equation `1 = 0`. Systems are therefore equal exactly when they have the same rational solutions.
-/

namespace PathInvariants

structure Equalities where
  rows : List LinearExpr
deriving DecidableEq

namespace LinearExpr

/-- The coefficients of the given symbols, then the constant. -/
def toRow (e : LinearExpr) (symbols : List Symbol) : Row := symbols.map e.coeff ++ [e.constant]

def ofRow (row : Row) (symbols : List Symbol) : LinearExpr :=
  (symbols.zip row).foldl (fun e t => e.addTerm t.2 t.1) (.const (row.entry symbols.length))

end LinearExpr

namespace Equalities

/-- The system without equations. -/
def empty : Equalities := ⟨[]⟩

def unsatisfiable : Equalities := ⟨[.const 1]⟩

/-- The symbols of some expressions, ascending. -/
def symbolsOf (rows : List LinearExpr) : List Symbol := Symbol.sort (rows.flatMap LinearExpr.symbols)

/-- Eliminates in the given order of symbols. -/
def eliminate (rows : List LinearExpr) (order : List Symbol) : Equalities :=
  let m := Echelon.ofRows (rows.map (·.toRow order)) (order.length + 1)
  if m.pivots.getLast? = some order.length then unsatisfiable
  else ⟨m.rows.map (LinearExpr.ofRow · order)⟩

/-- The system of the given equations. -/
def ofRows (rows : List LinearExpr) : Equalities := eliminate rows (symbolsOf rows)

def isEmpty (q : Equalities) : Bool := q.rows.isEmpty

def isUnsatisfiable (q : Equalities) : Bool :=
  match q.rows with
  | [e] => e.isConstant && e.constant != 0
  | _ => false

def extend (q : Equalities) (equations : List LinearExpr) : Equalities := ofRows (q.rows ++ equations)

def add (q : Equalities) (e : LinearExpr) : Equalities := q.extend [e]

def meet (p q : Equalities) : Equalities := ofRows (p.rows ++ q.rows)

/-- The equations that hold in both systems: the affine hull of the two solution spaces. -/
def join (p q : Equalities) : Equalities :=
  if p.isUnsatisfiable then q
  else if q.isUnsatisfiable then p
  else
    let symbols := symbolsOf (p.rows ++ q.rows)
    ofRows ((RowSpace.intersect (p.rows.map (·.toRow symbols)) (q.rows.map (·.toRow symbols))
      (symbols.length + 1)).map (LinearExpr.ofRow · symbols))

/-- Drops what is known about `s`, keeping what follows for the other symbols. -/
def project (q : Equalities) (s : Symbol) : Equalities :=
  if q.rows.any (·.mentions s) then
    let order := s :: (symbolsOf q.rows).filter (· != s)
    ofRows ((eliminate q.rows order).rows.filter fun e => !e.mentions s)
  else q

/-- The system after the assignment `s := e`, where `e` has a non-zero coefficient of `s`. A row
`b * s + r` in terms of the old value becomes `a * r + b * s - b * rest` in terms of the new one,
for `e = a * s + rest`. -/
def substitute (q : Equalities) (s : Symbol) (e : LinearExpr) : Equalities :=
  ofRows (q.rows.map fun row =>
    if row.mentions s then
      (row.without s).scale (e.coeff s) + .term (row.coeff s) s - (e.without s).scale (row.coeff s)
    else row)

/-- Substitution that refuses an expression from which the old value cannot be recovered. -/
def substitute? (q : Equalities) (s : Symbol) (e : LinearExpr) : Except Fault Equalities :=
  if e.mentions s then .ok (q.substitute s e) else .error (.notInvertible s)

/-- Whether `e = 0` follows from the system. -/
def implies (q : Equalities) (e : LinearExpr) : Bool :=
  if q.isUnsatisfiable then true
  else
    let symbols := symbolsOf (q.rows ++ [e])
    (Echelon.ofRows (q.rows.map (·.toRow symbols)) (symbols.length + 1)).spans (e.toRow symbols)

/-- A positive multiple of `e`, up to the equations, without the leading symbol of any row. -/
def reduce (q : Equalities) (e : LinearExpr) : LinearExpr :=
  q.rows.foldl (fun e row =>
    match row.terms with
    | [] => e
    | (s, p) :: _ => if e.mentions s then e.scale p - row.scale (e.coeff s) else e) e

end Equalities

end PathInvariants
