/-!
# Strongly connected components

Each node reachable from the root is labelled by the visit number of the first node of its component
that a depth-first search comes to, where the root has number one. Labels ascend from outer code to
the loops inside it. The visits under way are kept on a stack of calls with saved positions, so the
depth of a graph is no concern.
-/

namespace PathInvariants.Flow

/-- A search for components. A node without an index has not been visited. -/
structure ComponentSearch where
  index : Array Nat
  /-- The lowest index on the stack that a visited node is known to lead to. -/
  lowlink : Array Nat
  onStack : Array Bool
  component : Array Nat
  /-- The visited nodes whose component is not complete, the latest first. -/
  stack : List Nat
  /-- The visits under way, the latest first, each with the position of the next successor. -/
  calls : List (Nat × Nat)
  nextIndex : Nat
deriving DecidableEq, Repr

namespace ComponentSearch

def start (size : Nat) : ComponentSearch where
  index := Array.replicate size 0
  lowlink := Array.replicate size 0
  onStack := Array.replicate size false
  component := Array.replicate size 0
  stack := []
  calls := []
  nextIndex := 1

def visit (s : ComponentSearch) (v : Nat) : ComponentSearch :=
  { s with
    index := s.index.setIfInBounds v s.nextIndex
    lowlink := s.lowlink.setIfInBounds v s.nextIndex
    onStack := s.onStack.setIfInBounds v true
    stack := v :: s.stack
    calls := (v, 0) :: s.calls
    nextIndex := s.nextIndex + 1 }

def lower (s : ComponentSearch) (v bound : Nat) : ComponentSearch :=
  { s with lowlink := s.lowlink.modify v (min · bound) }

/-- Looks at an edge from `v` to `w`. Numbers that are no nodes are passed over. -/
def follow (s : ComponentSearch) (v w : Nat) : ComponentSearch :=
  match s.index[w]? with
  | some 0 => s.visit w
  | some index => if s.onStack.getD w false then s.lower v index else s
  | none => s

/-- Takes the nodes down to `v` off the given stack and labels them. -/
def popTo (s : ComponentSearch) (v label : Nat) : List Nat → ComponentSearch
  | [] => { s with stack := [] }
  | w :: stack =>
    let s := { s with
      onStack := s.onStack.setIfInBounds w false
      component := s.component.setIfInBounds w label }
    if w = v then { s with stack } else s.popTo v label stack

/-- Ends the visit of `v`. The caller takes over the lowlink, also of a component that is complete. -/
def leave (s : ComponentSearch) (v : Nat) (calls : List (Nat × Nat)) : ComponentSearch :=
  let s := match calls with
    | [] => { s with calls }
    | (u, _) :: _ => { s with calls }.lower u (s.lowlink.getD v 0)
  if s.lowlink.getD v 0 = s.index.getD v 0 then s.popTo v (s.index.getD v 0) s.stack else s

def step (succ : Nat → List Nat) (s : ComponentSearch) (v pos : Nat) (calls : List (Nat × Nat)) : ComponentSearch :=
  match (succ v)[pos]? with
  | some w => { s with calls := (v, pos + 1) :: calls }.follow v w
  | none => s.leave v calls

/-- Takes steps until no visit is under way. Each step moves a position or ends a visit, so `fuel` need only
be the number of nodes and edges. -/
def loop (s : ComponentSearch) (succ : Nat → List Nat) : (fuel : Nat) → ComponentSearch
  | 0 => s
  | fuel + 1 =>
    match s.calls with
    | [] => s
    | (v, pos) :: calls => (s.step succ v pos calls).loop succ fuel

/-- The search of a successor table from a node, at its end. -/
def run (table : List (List Nat)) (root : Nat) : ComponentSearch :=
  let edges := table.flatten.length
  let table := table.toArray
  ((start table.size).visit root).loop (fun v => table.getD v []) (table.size + edges)

end ComponentSearch

/-- The component labels of the nodes of a successor table, zero for nodes out of reach. -/
def componentLabels (table : List (List Nat)) (root : Nat) : List Nat :=
  if root < table.length then (ComponentSearch.run table root).component.toList
  else List.replicate table.length 0

end PathInvariants.Flow
