import PathInvariants.Disjunction
import PathInvariants.Program
import PathInvariants.Proofs.CheckedRows

/-!
# Checked operations on values

The operations on values divide intervals by coefficients, substitute in equalities and eliminate without
looking whether they may. The checked forms look, and fail with a fault where a divisor is zero, an
assignment cannot be inverted or an index is out of range. They never do: a coefficient of an expression is
not zero, substitution is left to assignments whose right side mentions the symbol, and elimination passes
its checks on every system of equalities.
-/
namespace PathInvariants

theorem allM_eq_ok {α ε : Type} {f : α → Except ε Bool} {g : α → Bool} {l : List α} (h : ∀ a ∈ l, f a = .ok (g a)) :
    l.allM f = .ok (l.all g) := by
  induction l with
  | nil => rfl
  | cons a l ih =>
    rw [List.allM, h a List.mem_cons_self, ok_bind, List.all_cons]
    cases g a with
    | true => exact ih fun a ha => h a (List.mem_cons_of_mem _ ha)
    | false => rfl

/-- The entry of a symbol in a table made from a list that has it. -/
theorem lookup_map_graph {α β : Type} {f : Symbol → β} {l : List (Symbol × α)} {b : Symbol × α} (hb : b ∈ l) :
    (l.map fun b => (b.1, f b.1)).lookup b.1 = some (f b.1) := by
  induction l with
  | nil => cases hb
  | cons x l ih =>
    rw [List.map_cons, List.lookup_cons]
    by_cases hx : b.1 = x.1
    · rw [hx, beq_self_eq_true]
    · rw [beq_false_of_ne hx]
      refine ih ((List.mem_cons.mp hb).resolve_left fun h => ?_)
      exact hx (congrArg Prod.fst h)

namespace Box

/-- Widening reads the candidates of the symbols bounded on the left. -/
theorem widenTo_congr {lower upper lower' upper' : Symbol → List ℤ} {a b : Box}
    (hlower : ∀ e ∈ a.bindings, lower e.1 = lower' e.1) (hupper : ∀ e ∈ a.bindings, upper e.1 = upper' e.1) :
    widenTo lower upper a b = widenTo lower' upper' a b := by
  cases a with
  | bottom => rfl
  | ranges x hx =>
    cases b with
    | bottom => rfl
    | ranges y hy =>
      refine congrArg make (Sparse.ext fun s => ?_)
      simp only [Sparse.get_ofFn]
      split
      · rename_i hs
        obtain ⟨e, he, rfl⟩ := List.mem_map.mp hs
        rw [hlower e he, hupper e he]
      · rfl

/-- Tightening with a check of the divisor. -/
def tighten? (integral : Symbol → Bool) (e : LinearExpr) (comparison : Comparison) (b : Box) (s : Symbol) (a : Int) :
    Except Fault Box := do
  let target := targetOf comparison ((b.rangeOf (e.without s)).scale (-1))
  let range ← target.divide? a (integral s)
  return b.update s fun i => i.meet range

def propagate? (integral : Symbol → Bool) (e : LinearExpr) (comparison : Comparison) (b : Box) : Except Fault Box :=
  e.terms.foldlM (fun b t => b.tighten? integral e comparison t.1 t.2) b

theorem propagate?_eq (integral : Symbol → Bool) (e : LinearExpr) (comparison : Comparison) (b : Box) :
    b.propagate? integral e comparison = .ok (b.propagate integral e comparison) := by
  refine foldlM_eq_ok (fun b t ht => ?_) b
  rw [tighten?, Interval.divide?, if_neg (LinearExpr.coeff_of_mem_terms ht).2]
  rfl

end Box

namespace Value

variable (v w : Value)

def allEqualities? : Except Fault Equalities :=
  match v.fixedSymbols with
  | [] => .ok v.eqs
  | fixed => v.eqs.extend? fixed

theorem allEqualities?_eq : v.allEqualities? = .ok v.allEqualities := by
  unfold allEqualities? allEqualities
  cases v.fixedSymbols with
  | nil => rfl
  | cons e es => exact Equalities.extend?_eq ..

def reduce? : Except Fault Value :=
  if v.box.isBottom then return v.collapse
  else if !v.isRelational then return v
  else do
    let eqs ← v.allEqualities?
    if eqs.isUnsatisfiable then return v.collapse
    else
      let box ← eqs.rows.foldlM (fun b row => b.propagate? v.isIntegral row .eq) v.box
      return if box.isBottom then v.collapse else { v with box, eqs }

theorem reduce?_eq : v.reduce? = .ok v.reduce := by
  have hfold := foldlM_eq_ok (fun b row (_ : row ∈ v.allEqualities.rows) => Box.propagate?_eq v.isIntegral row .eq b) v.box
  simp only [reduce?, reduce, allEqualities?_eq, ok_bind, hfold]
  split
  · rfl
  · split
    · rfl
    · split <;> rfl

/-- Assignment by checked substitution. -/
def assign? (s : Symbol) (e : LinearExpr) : Except Fault Value :=
  let v := v.track (e + .var s)
  if v.isBottom then return v
  else do
    let eqs ←
      if !v.isRelational then pure v.eqs
      else if e.mentions s then v.eqs.substituteInvertible? s e
      else (← v.eqs.project? s).add? (.var s - e)
    reduce? { v with box := (v.box.forget s).set s (v.box.rangeOf e), eqs }

theorem assign?_eq (s : Symbol) (e : LinearExpr) : v.assign? s e = .ok (v.assign s e) := by
  simp only [assign?, assign]
  split
  · rfl
  · split
    · exact reduce?_eq _
    · split
      · rename_i hmentions
        rw [Equalities.substituteInvertible?_eq _ _ _ hmentions]
        exact reduce?_eq _
      · rw [Equalities.project?_eq, ok_bind, Equalities.add?_eq]
        exact reduce?_eq _

def forget? (s : Symbol) : Except Fault Value := do
  return { v with box := v.box.forget s, eqs := ← v.eqs.project? s }

theorem forget?_eq (s : Symbol) : v.forget? s = .ok (v.forget s) := by
  rw [forget?, Equalities.project?_eq]
  rfl

/-- A constraint by checked propagation. -/
def constrain? (c : LinearConstraint) : Except Fault Value :=
  let v := v.track c.expr
  if v.isBottom then return v
  else
    let c := v.sharpen c
    match c.constantTruth? with
    | some true => return v
    | some false => return v.collapse
    | none => do
      let eqs ← if c.comparison = .eq ∧ v.isRelational then v.eqs.add? c.expr else pure v.eqs
      let box ← v.box.propagate? v.isIntegral c.expr c.comparison
      reduce? { v with box, eqs }

theorem constrain?_eq (c : LinearConstraint) : v.constrain? c = .ok (v.constrain c) := by
  simp only [constrain?, constrain, Box.propagate?_eq, Equalities.add?_eq]
  split
  · rfl
  · cases ((v.track c.expr).sharpen c).constantTruth? with
    | none =>
      dsimp only
      split <;> exact reduce?_eq _
    | some truth => cases truth <;> rfl

def constrainAll? (cs : List LinearConstraint) : Except Fault Value := cs.foldlM constrain? v

theorem constrainAll?_eq (cs : List LinearConstraint) : v.constrainAll? cs = .ok (v.constrainAll cs) :=
  foldlM_eq_ok (fun v c _ => v.constrain?_eq c) v

def withEnv? (env : Environment) : Except Fault Value := do
  let v' ← (v.env.symbols.filter fun s => !env.contains s).foldlM forget? v
  return { v' with env }

theorem withEnv?_eq (env : Environment) : v.withEnv? env = .ok (v.withEnv env) := by
  rw [withEnv?, foldlM_eq_ok fun v s _ => v.forget?_eq s]
  rfl

def align? : Except Fault (Value × Value) := do
  let env ← v.env.union w.env
  return (← v.withEnv? env, ← w.withEnv? env)

theorem align?_eq : v.align? w = v.align w := by
  unfold align? align
  cases v.env.union w.env with
  | error f => rfl
  | ok env => rw [ok_bind, withEnv?_eq, ok_bind, withEnv?_eq]; rfl

/-- The equalities of a join or widening. -/
def hullEqualities? : Except Fault Equalities := do
  if v.isRelational then (← v.allEqualities?).join? (← w.allEqualities?) else return v.eqs

theorem hullEqualities?_eq :
    v.hullEqualities? w = .ok (if v.isRelational then v.allEqualities.join w.allEqualities else v.eqs) := by
  unfold hullEqualities?
  split
  · rw [allEqualities?_eq, ok_bind, allEqualities?_eq, ok_bind, Equalities.join?_eq]
  · rfl

def joinAligned? : Except Fault Value :=
  if w.isBottom then return v
  else if v.isBottom then return { v with box := w.box, eqs := w.eqs }
  else do return { v with box := v.box.join w.box, eqs := ← v.hullEqualities? w }

theorem joinAligned?_eq : v.joinAligned? w = .ok (v.joinAligned w) := by
  unfold joinAligned? joinAligned
  rw [hullEqualities?_eq]
  split
  · rfl
  · split <;> rfl

def joinOver? (env : Environment) (ws : List Value) : Except Fault Value := do
  ws.foldlM (fun v w => do v.joinAligned? (← w.withEnv? env)) (← v.withEnv? env)

theorem joinOver?_eq (env : Environment) (ws : List Value) : v.joinOver? env ws = .ok (v.joinOver env ws) := by
  rw [joinOver?, withEnv?_eq, ok_bind]
  refine foldlM_eq_ok (fun v w _ => ?_) _
  rw [withEnv?_eq, ok_bind, joinAligned?_eq]

def join? : Except Fault Value := do
  let env ← v.env.union w.env
  v.joinOver? env [w]

theorem join?_eq : v.join? w = v.join w := by
  unfold join? join
  cases v.env.union w.env with
  | error f => rfl
  | ok env => exact v.joinOver?_eq env [w]

/-- The meet by checked propagation. -/
def meet? : Except Fault Value := do
  let (v, w) ← v.align? w
  if v.isBottom then return v else reduce? { v with box := v.box.meet w.box, eqs := ← v.eqs.meet? w.eqs }

theorem meet?_eq : v.meet? w = v.meet w := by
  unfold meet? meet
  rw [align?_eq]
  cases v.align w with
  | error f => rfl
  | ok x =>
    simp only [ok_bind, Equalities.meet?_eq, reduce?_eq]
    split <;> rfl

/-- The range of a threshold with a check of the divisor. -/
def threshold? (s : Symbol) (c : LinearConstraint) : Except Fault (Option Interval) :=
  if c.expr.symbols = [s] then
    let integral := v.isIntegral s
    let c := if integral then c.tightened else c
    if c.expr.mentions s then
      let target := match c.comparison with
        | .eq => Interval.point (-c.expr.constant)
        | .ge | .gt => Interval.atLeast (-c.expr.constant)
      (target.divide? (c.expr.coeff s) integral).map some
    else return none
  else return none

theorem threshold?_eq (s : Symbol) (c : LinearConstraint) : v.threshold? s c = .ok (v.thresholdRange? s c) := by
  simp only [threshold?, thresholdRange?]
  generalize (if v.isIntegral s then c.tightened else c) = c'
  split
  · cases hmentions : c'.expr.mentions s with
    | false => rfl
    | true =>
      have hcoeff : ¬ c'.expr.coeff s = 0 := by simpa [LinearExpr.mentions] using hmentions
      simp only [Interval.divide?, if_neg hcoeff, if_true]
      rfl
  · rfl

def thresholdRanges? (thresholds : List LinearConstraint) (s : Symbol) : Except Fault (List Interval) := do
  return (← thresholds.mapM (v.threshold? s)).filterMap id

theorem thresholdRanges?_eq (thresholds : List LinearConstraint) (s : Symbol) :
    v.thresholdRanges? thresholds s = .ok (v.thresholdRanges thresholds s) := by
  rw [thresholdRanges?, mapM_eq_ok fun c _ => v.threshold?_eq s c, ok_bind, List.filterMap_map]
  rfl

/-- The threshold ranges of the symbols that the box bounds. -/
def thresholdTable? (thresholds : List LinearConstraint) : Except Fault (List (Symbol × List Interval)) :=
  v.box.bindings.mapM fun b => do return (b.1, ← v.thresholdRanges? thresholds b.1)

theorem thresholdTable?_eq (thresholds : List LinearConstraint) : v.thresholdTable? thresholds =
    .ok (v.box.bindings.map fun b => (b.1, v.thresholdRanges thresholds b.1)) := by
  refine mapM_eq_ok fun b _ => ?_
  rw [thresholdRanges?_eq]
  rfl

/-- The widening with the thresholds of bounded symbols only. -/
def widenAligned? (thresholds : List LinearConstraint) : Except Fault Value :=
  if w.isBottom then return v
  else if v.isBottom then return { v with box := w.box, eqs := w.eqs }
  else do
    let eqs ← v.hullEqualities? w
    let table ← v.thresholdTable? thresholds
    let ranges (s : Symbol) : List Interval := (table.lookup s).getD []
    return { v with
      box := Box.widenTo (fun s => (ranges s).filterMap Interval.lo) (fun s => (ranges s).filterMap Interval.hi)
        v.box (v.box.join w.box)
      eqs }

theorem widenAligned?_eq (thresholds : List LinearConstraint) :
    v.widenAligned? w thresholds = .ok (widenAligned thresholds v w) := by
  unfold widenAligned? widenAligned
  split
  · rfl
  · split
    · rfl
    · rw [hullEqualities?_eq, ok_bind, thresholdTable?_eq, ok_bind]
      have hranges {b : Symbol × Interval} (hb : b ∈ v.box.bindings) :
          ((v.box.bindings.map fun b => (b.1, v.thresholdRanges thresholds b.1)).lookup b.1).getD [] =
            v.thresholdRanges thresholds b.1 := by
        rw [lookup_map_graph hb]
        rfl
      refine congrArg (fun box => Except.ok ({ v with box, eqs := _ } : Value)) (Box.widenTo_congr ?_ ?_)
      · exact fun b hb => congrArg (List.filterMap Interval.lo) (hranges hb)
      · exact fun b hb => congrArg (List.filterMap Interval.hi) (hranges hb)

def widenTo? (thresholds : List LinearConstraint) : Except Fault Value := do
  let (v, w) ← v.align? w
  v.widenAligned? w thresholds

theorem widenTo?_eq (thresholds : List LinearConstraint) : v.widenTo? w thresholds = widenTo thresholds v w := by
  unfold widenTo? widenTo
  rw [align?_eq]
  cases v.align w with
  | error f => rfl
  | ok x => exact widenAligned?_eq ..

def leq? : Except Fault Bool :=
  if v.isBottom then return true
  else if w.isBottom then return false
  else if !v.box.leq w.box then return false
  else if w.eqs.isEmpty then return true
  else do w.eqs.rows.allM (← v.allEqualities?).implies?

theorem leq?_eq : v.leq? w = .ok (v.leq w) := by
  have hrows := allM_eq_ok fun row (_ : row ∈ w.eqs.rows) => Equalities.implies?_eq v.allEqualities row
  simp only [leq?, leq, allEqualities?_eq, ok_bind, hrows]
  split
  · rfl
  · split
    · rfl
    · cases v.box.leq w.box with
      | false => rfl
      | true => cases w.eqs.isEmpty <;> rfl

def satisfies? (c : LinearConstraint) : Except Fault Bool :=
  if v.isBottom then return true
  else do
    let c := v.sharpen c
    let eqs ← v.allEqualities?
    if ← (if c.comparison == .eq then eqs.implies? c.expr else return false) then return true
    else return decides c.comparison (v.box.rangeOf c.expr) || decides c.comparison (v.box.rangeOf (eqs.reduce c.expr))

theorem satisfies?_eq (c : LinearConstraint) : v.satisfies? c = .ok (v.satisfies c) := by
  simp only [satisfies?, satisfies, allEqualities?_eq, ok_bind, Equalities.implies?_eq]
  split
  · rfl
  · cases (v.sharpen c).comparison == .eq with
    | false => rfl
    | true => cases v.allEqualities.implies (v.sharpen c).expr <;> rfl

/-- The equalities of the other symbols, by checked elimination. -/
def relationsWithout? (s : Symbol) : Except Fault (Option Equalities) := do
  let projected ← v.eqs.project? s
  let check ← match (v.rangeOf s).singleton? with
    | some c => projected.add? (.var s - .const c)
    | none => pure projected
  return if check = v.eqs then some projected else none

theorem relationsWithout?_eq (s : Symbol) : v.relationsWithout? s = .ok (v.equalitiesWithout? s) := by
  simp only [relationsWithout?, equalitiesWithout?, Equalities.project?_eq, Equalities.add?_eq, ok_bind]
  cases (v.rangeOf s).singleton? <;> rfl

def joinsExactly? : Except Fault Bool := do
  if v.isBottom || w.isBottom then return true
  else if ← v.leq? w then return true
  else if ← w.leq? v then return true
  else
    let symbols := Symbol.sort ((v.box.bindings ++ w.box.bindings).map (·.1))
    match symbols.filter fun s => v.rangeOf s != w.rangeOf s with
    | [] => return v.eqs == w.eqs
    | [s] =>
      match ← v.relationsWithout? s, ← w.relationsWithout? s with
      | some p, some q => return p == q && touching (v.isIntegral s) (v.rangeOf s) (w.rangeOf s)
      | _, _ => return false
    | _ => return false

theorem joinsExactly?_eq : v.joinsExactly? w = .ok (v.joinsExactly w) := by
  simp only [joinsExactly?, joinsExactly, leq?_eq, relationsWithout?_eq, ok_bind]
  cases v.isBottom || w.isBottom with
  | true => rfl
  | false =>
    cases v.leq w with
    | true => rfl
    | false =>
      cases w.leq v with
      | true => rfl
      | false =>
        simp only [Bool.or_self, Bool.false_eq_true, if_false]
        cases List.filter (fun s => v.rangeOf s != w.rangeOf s) _ with
        | nil => rfl
        | cons s rest =>
          cases rest with
          | cons s' rest => rfl
          | nil =>
            dsimp only
            cases v.equalitiesWithout? s with
            | none => rfl
            | some p => cases w.equalitiesWithout? s <;> rfl

/-- Every operation on two values agrees with its checked form, and so has no fault of its own. -/
structure Checked : Prop where
  env (env : Environment) : v.withEnv? env = .ok (v.withEnv env)
  join : v.join? w = v.join w
  joins (env : Environment) (ws : List Value) : v.joinOver? env ws = .ok (v.joinOver env ws)
  meet : v.meet? w = v.meet w
  widen (thresholds : List LinearConstraint) : v.widenTo? w thresholds = widenTo thresholds v w
  leq : v.leq? w = .ok (v.leq w)
  satisfies (c : LinearConstraint) : v.satisfies? c = .ok (v.satisfies c)
  joinsExactly : v.joinsExactly? w = .ok (v.joinsExactly w)

theorem checked : v.Checked w where
  env := v.withEnv?_eq
  join := v.join?_eq w
  joins := v.joinOver?_eq
  meet := v.meet?_eq w
  widen := v.widenTo?_eq w
  leq := v.leq?_eq w
  satisfies := v.satisfies?_eq
  joinsExactly := v.joinsExactly?_eq w

end Value

/-- The join of all disjuncts, by checked elimination. -/
def Disjunction.hull? (d : Disjunction) : Except Fault Value := do
  let env ← d.others.foldlM (fun env v => env.union v.env) d.first.env
  d.first.joinOver? env d.others

theorem Disjunction.hull?_eq (d : Disjunction) : d.hull? = d.hull := by
  unfold hull? hull
  cases d.others.foldlM (fun env v => env.union v.env) d.first.env with
  | error f => rfl
  | ok env => exact d.first.joinOver?_eq env d.others

/-- A statement with all checks. -/
def Statement.execute? (v : Value) : Statement → Except Fault Value
  | assign s e => v.assign? s e
  | havoc s => v.forget? s
  | assume c => v.constrain? c

theorem Statement.execute?_eq (v : Value) (st : Statement) : execute? v st = .ok (st.apply v) := by
  cases st with
  | assign s e => exact v.assign?_eq s e
  | havoc s => exact v.forget?_eq s
  | assume c => exact v.constrain?_eq c

namespace Program

variable (p : Program)

/-- The body of a block, statement by statement. -/
def execute? (b : Block) (v : Value) : Except Fault Value :=
  ((p.graph.payloads[b]?).elim [] (·.statements)).foldlM Statement.execute? v

/-- A path with all checks. -/
def along? (path : Path) (v : Value) : Except Fault Value :=
  path.steps.foldlM (fun v s => do (← p.execute? s.1 v).constrainAll? (p.guards s.1 s.2)) v

theorem execute?_eq (b : Block) (v : Value) : p.execute? b v = .ok (p.transfer.block b v) := by
  have hblock : p.transfer.block b v = ((p.graph.payloads[b]?).elim [] (·.statements)).foldl Statement.apply v := by
    simp [transfer]
  rw [hblock]
  exact foldlM_eq_ok (fun v st _ => st.execute?_eq v) v

theorem along?_eq (path : Path) (v : Value) : p.along? path v = .ok (p.transfer.along path v) := by
  refine foldlM_eq_ok (fun v s _ => ?_) v
  rw [execute?_eq, ok_bind, Value.constrainAll?_eq, transfer_edge]

end Program

end PathInvariants
