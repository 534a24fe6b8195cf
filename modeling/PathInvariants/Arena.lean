import PathInvariants.Flow.Component
import PathInvariants.Flow.CutPoints

/-!
# Arenas

The blocks in reach of the entry, numbered in the order of discovery from the entry at zero, with
their adjacency, component labels and cut points.
-/

namespace PathInvariants

structure Arena where
  blocks : List Block
  table : Array (List Nat)
  /-- The nodes with an edge to each node. -/
  sources : Array (Array Nat)
  labels : Array Nat
  cuts : CutPoints
deriving DecidableEq, Repr

namespace Arena

/-- The blocks found from the pending ones. All new successors of a block are numbered before the
first of them is expanded. -/
def discover (succ : Block → List Block) : (fuel : Nat) → (pending found : List Block) → List Block
  | 0, _, found => found
  | _ + 1, [], found => found
  | fuel + 1, b :: pending, found =>
    let fresh := ((succ b).filter fun s => !found.contains s).eraseDups
    discover succ fuel (fresh ++ pending) (found ++ fresh)

def build (g : ControlFlow) : Arena :=
  let blocks := discover g.successors (g.size + 1) [g.entry] [g.entry]
  let table := blocks.map fun b => (g.successors b).map blocks.idxOf
  { blocks
    table := table.toArray
    sources := Flow.transpose table.toArray
    labels := (Flow.componentLabels table 0).toArray
    cuts := .compute table (blocks.map g.role) (blocks.map g.isLoopHeader) 0 }

def size (a : Arena) : Nat := a.blocks.length

def index? (a : Arena) (b : Block) : Option Nat := a.blocks.idxOf? b

def successors (a : Arena) (n : Nat) : List Nat := a.table.getD n []

/-- The nodes with an edge to `n`, ascending, once for each edge. -/
def predecessors (a : Arena) (n : Nat) : List Nat := (a.sources.getD n #[]).toList

def label (a : Arena) (n : Nat) : Nat := a.labels.getD n 0

end Arena

end PathInvariants
