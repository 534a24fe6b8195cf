import PathInvariants.Flow.Graph
import PathInvariants.Transfer

/-!
# Linear programs

Functions whose blocks are lists of linear statements and whose edges carry guards, with the
transfer functions that analyze them.
-/

namespace PathInvariants

inductive Statement where
  | assign (s : Symbol) (e : LinearExpr)
  /-- The symbol takes any value. -/
  | havoc (s : Symbol)
  | assume (c : LinearConstraint)
deriving DecidableEq

def Statement.apply (v : Value) : Statement → Value
  | assign s e => v.assign s e
  | havoc s => v.forget s
  | assume c => v.constrain c

structure BasicBlock where
  statements : List Statement
  /-- The variables tracked at the start, in place of all declared ones. -/
  live : Option (List Symbol)
deriving DecidableEq

structure Program where
  name : String
  declared : List (Symbol × VariableKind)
  graph : FlowGraph BasicBlock (List LinearConstraint)

namespace Program

def kindOf (p : Program) (s : Symbol) : VariableKind := (p.declared.lookup s).getD none

/-- The guards of the latest edge from `a` to `b`. -/
def guards (p : Program) (a b : Block) : List LinearConstraint := (p.graph.edge? a b).getD []

def transfer (p : Program) : Transfer :=
  let blocks := p.graph.payloads.toArray
  let outgoing := Thunk.mk fun _ => p.graph.outgoing
  let guards (a b : Block) : List LinearConstraint := ((outgoing.get.getD a []).lookup b).getD []
  { kindOf := p.kindOf
    liveVariables := fun b => ((blocks[b]?).bind (·.live)).getD (p.declared.map (·.1))
    block := fun b v => ((blocks[b]?).elim [] (·.statements)).foldl Statement.apply v
    edge := fun a b v => v.constrainAll (guards a b)
    thresholds := guards }

theorem transfer_edge (p : Program) (a b : Block) (v : Value) :
    p.transfer.edge a b v = v.constrainAll (p.guards a b) := rfl

end Program

end PathInvariants
