/-!
# Depth-first search

Graphs on numbered nodes are given by a successor function and the number of nodes. One search
yields the nodes in the order of their first visit and the targets of back edges, which lead to a
node still on the search path. Every node is entered once, so a search takes time linear in the size
of the graph.
-/

namespace PathInvariants.Flow

/-- How far a search has come with a node. -/
inductive Mark where
  | fresh
  /-- On the search path. -/
  | active
  | done
deriving DecidableEq, Repr

structure Search where
  marks : Array Mark
  visited : Array Nat
  backTargets : List Nat
deriving DecidableEq, Repr

namespace Search

/-- The search before its first step. -/
def start (size : Nat) : Search := ⟨Array.replicate size .fresh, #[], []⟩

def enter (s : Search) (n : Nat) : Search :=
  { s with marks := s.marks.setIfInBounds n .active, visited := s.visited.push n }

def leave (s : Search) (n : Nat) : Search := { s with marks := s.marks.setIfInBounds n .done }

/-- Visits `n` and what can be reached from it. The search path never repeats a node, so `fuel` need
only exceed the number of nodes. Numbers that are no nodes are passed over. -/
def visit (succ : Nat → List Nat) : (fuel : Nat) → Search → Nat → Search
  | 0, s, _ => s
  | fuel + 1, s, n =>
    match s.marks[n]? with
    | some .fresh => ((succ n).foldl (visit succ fuel) (s.enter n)).leave n
    | some .active => { s with backTargets := n :: s.backTargets }
    | some .done | none => s

/-- The search of a graph with `size` nodes from several starting nodes in turn. -/
def run (succ : Nat → List Nat) (size : Nat) (roots : List Nat) : Search :=
  roots.foldl (visit succ (size + 1)) (start size)

/-- Whether the search has come to `n`. -/
def found (s : Search) (n : Nat) : Bool := s.marks.getD n .fresh != .fresh

end Search

/-- The search from `root` that never enters `n`. -/
def searchAvoiding (succ : Nat → List Nat) (size root n : Nat) : Search :=
  Search.run (fun v => (succ v).filter (· != n)) size (if root = n then [] else [root])

/-- A way to find dominators. For the successors and the number of nodes of a graph and a root in it, it lists the
dominators of every node that the root leads to, and has no list for the others. -/
abbrev Dominators := (succ : Nat → List Nat) → (size root : Nat) → Array (Option (List Nat))

/-- Dominators found by taking out one node after another: those without which the root no longer leads to a node. -/
def dominatorsByRemoval : Dominators := fun succ size root =>
  let reached := Search.run succ size [root]
  let avoiding := (Array.range size).map (searchAvoiding succ size root)
  (Array.range size).map fun n =>
    if reached.found n then some ((List.range size).filter fun d => !(avoiding.getD d (.start 0)).found n) else none

/-- Enters `n` as a source at the targets of its edges. -/
def enterSource (sources : Array (Array Nat)) (n : Nat) (targets : List Nat) : Array (Array Nat) :=
  targets.foldl (fun sources t => sources.modify t (·.push n)) sources

/-- The nodes with an edge to each node, ascending, once for each edge. -/
def transpose (table : Array (List Nat)) : Array (Array Nat) :=
  (List.range table.size).foldl (fun sources n => enterSource sources n (table.getD n []))
    (Array.replicate table.size #[])

end PathInvariants.Flow
