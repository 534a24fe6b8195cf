import PathInvariants.Flow.Control
import PathInvariants.Flow.Search

/-!
# Cut points

The nodes at which an analysis keeps explicit invariants. Widening points are the loop headers and
the targets of back edges, so that every cycle passes through one even in an irreducible graph. Cut
points are the widening points, the entry and every block with a role. Only finitely many paths lead
from one cut point to the next.
-/

namespace PathInvariants

structure CutPoints where
  roles : Array BlockRole
  widening : Array Bool
  cuts : Array Bool
  /-- The cut points that follow each cut point with none in between. -/
  following : Array (List Nat)
  /-- The cut points that each cut point follows with none in between. -/
  preceding : Array (Array Nat)
deriving DecidableEq, Repr

namespace CutPoints

def isWidening (c : CutPoints) (n : Nat) : Bool := c.widening.getD n false

def isCut (c : CutPoints) (n : Nat) : Bool := c.cuts.getD n false

def role (c : CutPoints) (n : Nat) : BlockRole := c.roles.getD n .plain

def isErrorSite (c : CutPoints) (n : Nat) : Bool := (c.role n).isErrorSite

def size (c : CutPoints) : Nat := c.cuts.size

def wideningNodes (c : CutPoints) : List Nat := (List.range c.size).filter c.isWidening

def cutNodes (c : CutPoints) : List Nat := (List.range c.size).filter c.isCut

/-- The cut points that follow `n`, ascending. -/
def successors (c : CutPoints) (n : Nat) : List Nat := c.following.getD n []

/-- The cut points that `n` follows, ascending. -/
def predecessors (c : CutPoints) (n : Nat) : List Nat := (c.preceding.getD n #[]).toList

/-- The cut points reached from the successors of `p` through nodes that are none. -/
def nextCuts (succ : Nat → List Nat) (cuts : Array Bool) (p : Nat) : List Nat :=
  let isCut (n : Nat) : Bool := cuts.getD n false
  let search := Flow.Search.run (fun n => if isCut n then [] else succ n) cuts.size (succ p)
  (List.range cuts.size).filter fun q => isCut q && search.found q

/-- The cut points of a successor table with the given roles and loop headers. -/
def compute (table : List (List Nat)) (roles : List BlockRole) (headers : List Bool) (entry : Nat) : CutPoints :=
  let table := table.toArray
  let roles := roles.toArray
  let headers := headers.toArray
  let succ (n : Nat) : List Nat := table.getD n []
  let back := (Flow.Search.run succ table.size [entry]).backTargets
  let nodes := Array.range table.size
  let widening := nodes.map fun n => headers.getD n false || back.contains n
  let cuts := nodes.map fun n => widening.getD n false || n == entry || roles.getD n .plain != .plain
  let following := nodes.map fun p => if cuts.getD p false then nextCuts succ cuts p else []
  { roles
    widening
    cuts
    following
    preceding := Flow.transpose following }

end CutPoints

end PathInvariants
