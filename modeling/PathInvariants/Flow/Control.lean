import PathInvariants.Path

/-!
# Control flow

What an analysis needs to know of a control-flow graph.
-/

namespace PathInvariants

/-- What a block stands for. -/
inductive BlockRole where
  | plain
  /-- Leaves the function. -/
  | exit
  /-- Reached only when an assertion fails. -/
  | assertionFailure
  /-- Reached only through undefined behaviour. -/
  | undefinedBehavior
deriving DecidableEq, Repr

/-- Whether an execution must never get here. -/
def BlockRole.isErrorSite : BlockRole → Bool
  | assertionFailure | undefinedBehavior => true
  | plain | exit => false

/-- A control-flow graph with at most `size` blocks in reach of the entry. -/
structure ControlFlow where
  size : Nat
  entry : Block
  successors : Block → List Block
  role : Block → BlockRole
  isLoopHeader : Block → Bool

namespace ControlFlow

/-- The graph of a successor table. Blocks outside the lists are plain and lead nowhere. -/
def ofTable (entry : Block) (table : List (List Block)) (roles : List BlockRole) (headers : List Bool) :
    ControlFlow :=
  let table := table.toArray
  let roles := roles.toArray
  let headers := headers.toArray
  { size := table.size
    entry
    successors := fun b => table.getD b []
    role := fun b => roles.getD b .plain
    isLoopHeader := fun b => headers.getD b false }

def hasEdge (g : ControlFlow) (a b : Block) : Bool := (g.successors a).contains b

end ControlFlow

end PathInvariants
