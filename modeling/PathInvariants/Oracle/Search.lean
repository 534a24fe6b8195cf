import PathInvariants.Flow.Control
import PathInvariants.Oracle
import PathInvariants.Transfer

/-!
# The searching oracle

An oracle without a solver. It lists the paths from a block to the next cut points and decides in
the abstract domain which of them are feasible and new. The paths of a block are listed on its first
query.
-/

namespace PathInvariants

/-- The paths that extend `walked` to the next cut point, in depth-first order of successors. A path
that comes back to a block without meeting a cut point is dropped, so `fuel` need only exceed the
number of blocks. -/
def pathsFrom (g : ControlFlow) (isCut : Block → Bool) : (fuel : Nat) → (walked : List Block) → (last : Block) →
    List Path
  | 0, _, _ => []
  | fuel + 1, walked, last =>
    (g.successors last).flatMap fun next =>
      if isCut next then [⟨walked ++ [last, next]⟩]
      else if (walked ++ [last]).contains next then []
      else pathsFrom g isCut fuel (walked ++ [last]) next

structure SearchOracle where
  graph : ControlFlow
  transfer : Transfer
  paths : List (Block × List Path)
  depth : Nat

namespace SearchOracle

def new (graph : ControlFlow) (transfer : Transfer) : SearchOracle := ⟨graph, transfer, [], 0⟩

/-- The known property of a block, if it is a single value. -/
def knownProperty? (view : StateView) (b : Block) : Option Value :=
  match (view.disjuncts b .known).filter fun v => !v.isBottom with
  | [v] => some v
  | _ => none

/-- What `source` becomes at the end of a path to `dest`, met with what is known there. -/
def image (t : Transfer) (view : StateView) (source : Value) (p : Path) (dest : Block) : Except Fault Value := do
  let v := t.along p source
  let v := (view.environment dest).elim v v.withEnv
  if v.isBottom then return v
  match knownProperty? view dest with
  | some known => v.meet known
  | none => return v

/-- Whether a path takes `source` to a state that no disjunct of its destination covers. -/
def isNovel (t : Transfer) (view : StateView) (target : Slot) (source : Value) (p : Path) : Except Fault Bool := do
  match p.destination? with
  | none => return false
  | some dest =>
    let v ← image t view source p dest
    return !v.isBottom && !(view.disjuncts dest target).any v.leq

/-- The first novel path, trying the disjuncts of the start in order. -/
def firstNovel (t : Transfer) (view : StateView) (q : PathQuery) (paths : List Path) :
    Except Fault (Option (Path × Nat)) := do
  let target := if q.descending then Slot.descending else .stable
  let sources := (view.disjuncts q.start .stable).zipIdx.filter fun s => !s.1.isBottom
  let admitted := paths.filter q.filter.admits
  let candidates := sources.flatMap fun s => admitted.map fun p => (p, s)
  let found ← candidates.findM? fun c => isNovel t view target c.2.1 c.1
  return found.map fun c => (c.1, c.2.2)

/-- The oracle with the paths of `start` listed. -/
def prepare (o : SearchOracle) (view : StateView) (start : Block) : SearchOracle :=
  if (o.paths.lookup start).isSome then o
  else { o with paths := (start, pathsFrom o.graph view.isCut (o.graph.size + 1) [] start) :: o.paths }

def query (q : PathQuery) (view : StateView) (o : SearchOracle) : Except Failure OracleAnswer × SearchOracle :=
  let o := o.prepare view q.start
  match firstNovel o.transfer view q ((o.paths.lookup q.start).getD []) with
  | .error f => (.error (.fault f), o)
  | .ok none => (.ok .unsat, o)
  | .ok (some (p, i)) => (.ok (.sat p i), o)

def pop (o : SearchOracle) : Except Failure Unit × SearchOracle :=
  match o.depth with
  | 0 => (.error (.violation .unbalancedPop), o)
  | depth + 1 => (.ok (), { o with depth })

instance : PathOracle SearchOracle where
  push o := { o with depth := o.depth + 1 }
  pop := pop
  query := query

end SearchOracle

end PathInvariants
