import PathInvariants.Box.Propagation
import PathInvariants.Domain
import PathInvariants.Environment
import PathInvariants.Equalities

/-!
# Abstract values

The reduced product of a box and a system of affine equalities over an environment. Reduction, by
which equalities tighten the box and one-point ranges become equalities, runs after guards,
assignments and meets. It never runs after a join or a widening, so that an ascending sequence stays
put once it stops growing.
-/

namespace PathInvariants

structure Value where
  domain : Domain
  env : Environment
  box : Box
  eqs : Equalities
deriving DecidableEq

namespace Value

def top (domain : Domain) (env : Environment) : Value := ⟨domain, env, .top, .empty⟩

def bottom (domain : Domain) (env : Environment) : Value := ⟨domain, env, .bottom, .empty⟩

def isBottom (v : Value) : Bool := v.box.isBottom

def isTop (v : Value) : Bool := v.box.isTop && v.eqs.isEmpty

/-- Whether the value keeps equalities beside its box. -/
def isRelational (v : Value) : Bool := v.domain == .intervalEqualities

def isIntegral (v : Value) (s : Symbol) : Bool := v.env.kindOf s != some .real

def rangeOf (v : Value) (s : Symbol) : Interval := v.box.get s

/-- The value without any state. -/
def collapse (v : Value) : Value := { v with box := .bottom, eqs := .empty }

/-- Tracks as integers the symbols of an expression that have no kind yet. -/
def track (v : Value) (e : LinearExpr) : Value := { v with env := v.env.track e.symbols }

/-- The equations of the symbols that the box fixes. -/
def fixedSymbols (v : Value) : List LinearExpr :=
  v.box.bindings.filterMap fun b => b.2.singleton?.map fun c => LinearExpr.var b.1 - .const c

/-- The equalities together with the symbols that the box fixes. -/
def allEqualities (v : Value) : Equalities :=
  match v.fixedSymbols with
  | [] => v.eqs
  | fixed => v.eqs.extend fixed

/-- Lets equalities and box inform each other. -/
def reduce (v : Value) : Value :=
  if v.box.isBottom then v.collapse
  else if !v.isRelational then v
  else
    let eqs := v.allEqualities
    if eqs.isUnsatisfiable then v.collapse
    else
      let box := eqs.rows.foldl (fun b row => b.propagate v.isIntegral row .eq) v.box
      if box.isBottom then v.collapse else { v with box, eqs }

/-- The value after `s := e`. -/
def assign (v : Value) (s : Symbol) (e : LinearExpr) : Value :=
  let v := v.track (e + .var s)
  if v.isBottom then v
  else
    let eqs :=
      if !v.isRelational then v.eqs
      else if e.mentions s then v.eqs.substitute s e
      else (v.eqs.project s).add (.var s - e)
    reduce { v with box := (v.box.forget s).set s (v.box.rangeOf e), eqs }

/-- The value after `s` has taken any value. -/
def forget (v : Value) (s : Symbol) : Value := { v with box := v.box.forget s, eqs := v.eqs.project s }

/-- The strongest form of a constraint, given which of its symbols are integers. -/
def sharpen (v : Value) (c : LinearConstraint) : LinearConstraint :=
  if c.expr.symbols.all v.isIntegral then c.tightened else c

/-- Conjoins a constraint. -/
def constrain (v : Value) (c : LinearConstraint) : Value :=
  let v := v.track c.expr
  if v.isBottom then v
  else
    let c := v.sharpen c
    match c.constantTruth? with
    | some true => v
    | some false => v.collapse
    | none =>
      let eqs := if c.comparison = .eq ∧ v.isRelational then v.eqs.add c.expr else v.eqs
      reduce { v with box := v.box.propagate v.isIntegral c.expr c.comparison, eqs }

def constrainAll (v : Value) (cs : List LinearConstraint) : Value := cs.foldl constrain v

/-- The value over another environment: new symbols are unconstrained, missing ones projected
out. -/
def withEnv (v : Value) (env : Environment) : Value :=
  let v' := (v.env.symbols.filter fun s => !env.contains s).foldl forget v
  { v' with env }

/-- The two values over their least common environment. -/
def align (v w : Value) : Except Fault (Value × Value) := do
  let env ← v.env.union w.env
  return (v.withEnv env, w.withEnv env)

/-- The join of two values over one environment. -/
def joinAligned (v w : Value) : Value :=
  if w.isBottom then v
  else if v.isBottom then { v with box := w.box, eqs := w.eqs }
  else
    { v with
      box := v.box.join w.box
      eqs := if v.isRelational then v.allEqualities.join w.allEqualities else v.eqs }

/-- The join of `v` and all of `ws`, over `env`. -/
def joinOver (v : Value) (env : Environment) (ws : List Value) : Value :=
  ws.foldl (fun v w => v.joinAligned (w.withEnv env)) (v.withEnv env)

def join (v w : Value) : Except Fault Value := do
  let env ← v.env.union w.env
  return v.joinOver env [w]

def meet (v w : Value) : Except Fault Value := do
  let (v, w) ← v.align w
  return if v.isBottom then v else reduce { v with box := v.box.meet w.box, eqs := v.eqs.meet w.eqs }

def narrow (v w : Value) : Except Fault Value := do
  let (v, w) ← v.align w
  return if v.isBottom then v
    else if w.isBottom then v.collapse
    else reduce { v with box := v.box.narrow w.box, eqs := v.eqs.meet w.eqs }

/-- The range to which a constraint on `s` alone confines it; `none` for other constraints. -/
def thresholdRange? (v : Value) (s : Symbol) (c : LinearConstraint) : Option Interval :=
  if c.expr.symbols = [s] then
    let integral := v.isIntegral s
    let c := if integral then c.tightened else c
    if c.expr.mentions s then
      let target := match c.comparison with
        | .eq => Interval.point (-c.expr.constant)
        | .ge | .gt => Interval.atLeast (-c.expr.constant)
      some (target.divide (c.expr.coeff s) integral)
    else none
  else none

/-- The ranges that the thresholds give `s`. -/
def thresholdRanges (v : Value) (thresholds : List LinearConstraint) (s : Symbol) : List Interval :=
  thresholds.filterMap (v.thresholdRange? s)

/-- The widening of two values over one environment. An unstable bound moves to the closest
threshold beyond it. -/
def widenAligned (thresholds : List LinearConstraint) (v w : Value) : Value :=
  if w.isBottom then v
  else if v.isBottom then { v with box := w.box, eqs := w.eqs }
  else
    let ranges := v.thresholdRanges thresholds
    { v with
      box := Box.widenTo (fun s => (ranges s).filterMap Interval.lo) (fun s => (ranges s).filterMap Interval.hi)
        v.box (v.box.join w.box)
      eqs := if v.isRelational then v.allEqualities.join w.allEqualities else v.eqs }

def widenTo (thresholds : List LinearConstraint) (v w : Value) : Except Fault Value := do
  let (v, w) ← v.align w
  return widenAligned thresholds v w

def widen (v w : Value) : Except Fault Value := widenTo [] v w

def leq (v w : Value) : Bool :=
  if v.isBottom then true
  else if w.isBottom then false
  else v.box.leq w.box && (w.eqs.isEmpty || w.eqs.rows.all v.allEqualities.implies)

def equals (v w : Value) : Bool := v.leq w && w.leq v

/-- The constraints that confine `s` to its range, with the equations already listed left out. -/
def boundsOf (v : Value) (listed : List LinearConstraint) (s : Symbol) : List LinearConstraint :=
  let x := LinearExpr.var s
  let i := v.rangeOf s
  match i.singleton? with
  | some c =>
    let c := LinearConstraint.eq (x - .const c)
    if listed.contains c then [] else [c]
  | none =>
    (i.lo.toList.map fun lo => LinearConstraint.ge (x - .const lo)) ++
      i.hi.toList.map fun hi => LinearConstraint.ge (.const hi - x)

/-- The value as a conjunction: its equalities, then the bounds of each variable. -/
def toConstraints (v : Value) : List LinearConstraint :=
  if v.isBottom then [.never]
  else
    v.env.symbols.foldl (fun listed s => listed ++ v.boundsOf listed s) (v.eqs.rows.map LinearConstraint.eq)

/-- Whether a range confines an expression to the side of zero that a comparison asks for. -/
def decides (comparison : Comparison) (i : Interval) : Bool :=
  match comparison with
  | .ge => i.lo.any fun lo => decide (0 ≤ lo)
  | .gt => i.lo.any fun lo => decide (0 < lo)
  | .eq => i.singleton? == some 0

/-- Whether the value is seen to imply a constraint. -/
def satisfies (v : Value) (c : LinearConstraint) : Bool :=
  if v.isBottom then true
  else
    let c := v.sharpen c
    let eqs := v.allEqualities
    (c.comparison == .eq && eqs.implies c.expr) || decides c.comparison (v.box.rangeOf c.expr) ||
      decides c.comparison (v.box.rangeOf (eqs.reduce c.expr))

/-- The equalities of the other symbols, when `s` is bound by its range only. -/
def equalitiesWithout? (v : Value) (s : Symbol) : Option Equalities :=
  let projected := v.eqs.project s
  let check := match (v.rangeOf s).singleton? with
    | some c => projected.add (.var s - .const c)
    | none => projected
  if check = v.eqs then some projected else none

/-- Whether no number lies strictly between two ranges. -/
def touching (integral : Bool) (a b : Interval) : Bool :=
  let apart (x y : Interval) : Bool :=
    match x.hi, y.lo with
    | some hi, some lo => decide (hi + (if integral then 1 else 0) < lo)
    | _, _ => false
  !apart a b && !apart b a

/-- Whether the join of two values is seen to be their union. -/
def joinsExactly (v w : Value) : Bool :=
  if v.isBottom || w.isBottom || v.leq w || w.leq v then true
  else
    let symbols := Symbol.sort ((v.box.bindings ++ w.box.bindings).map (·.1))
    match symbols.filter fun s => v.rangeOf s != w.rangeOf s with
    | [] => v.eqs == w.eqs
    | [s] =>
      (match v.equalitiesWithout? s, w.equalitiesWithout? s with
        | some p, some q => p == q
        | _, _ => false) && touching (v.isIntegral s) (v.rangeOf s) (w.rangeOf s)
    | _ => false

def render (v : Value) : String :=
  if v.isBottom then "_|_"
  else if v.isTop then "T"
  else "\x7b" ++ ", ".intercalate (v.toConstraints.map LinearConstraint.render) ++ "\x7d"

end Value

end PathInvariants
