import PathInvariants.Strategy.Basic

/-!
# Guided iteration

The iteration is confined to the edges found feasible so far. A round first looks for feasible edges
out of the nodes that changed, joining without widening, and then runs the ascending and descending
passes over the feasible edges. The analysis ends with a round that finds nothing new.
-/

namespace PathInvariants.Guided

open Analysis

variable {Ω : Type}

structure Memory where
  feasible : List (Nat × Nat)
  changed : Worklist
deriving DecidableEq, Repr

def Memory.empty : Memory := ⟨[], .empty⟩

def markChanged (n : Nat) : Analysis Ω Memory Unit := do
  let label := (← arena).label n
  modifyMemory fun m => { m with changed := m.changed.push n label }

def isFeasible (n succ : Nat) : Analysis Ω Memory Bool := return (← memory).feasible.contains (n, succ)

/-- Tries an edge that is not known to be feasible. -/
def tryEdge (su : Setup) (n : Nat) (start : Value) (succ : Nat) : Analysis Ω Memory Unit := do
  unless ← isFeasible n succ do
    modifyStats fun s => { s with ascendingSteps := s.ascendingSteps + 1 }
    let image ← transformEdge su n succ start
    unless image.isBottom do
      modifyMemory fun m => { m with feasible := (n, succ) :: m.feasible }
      push n
      let previous ← value su succ .stable
      let next ← ofFault (image.join previous)
      unless next.leq previous do
        store su succ previous next
        markChanged succ

/-- Looks for feasible edges out of a node. -/
def findEdges (su : Setup) (n : Nat) : Analysis Ω Memory Unit := do
  unless ← isComputed n do
    setComputed n true
    let start ← value su n .stable
    unless start.isBottom do ((← arena).successors n).forM (tryEdge su n start)

def computeNode (su : Setup) (n : Nat) : Analysis Ω Memory Unit := do
  setComputed n true
  let start ← value su n .stable
  unless start.isBottom do
    ((← arena).successors n).forM fun succ => do
      if ← isFeasible n succ then
        if ← ascendEdge su n start succ then markChanged succ

def narrowNode (su : Setup) (n : Nat) : Analysis Ω Memory Unit := do
  setComputed n true
  let start ← value su n .stable
  ((← arena).successors n).forM fun succ => do
    if ← isFeasible n succ then descendEdge su n start succ

/-- Takes the changed nodes one by one and looks for feasible edges out of them. -/
def drainChanged (su : Setup) : (fuel : Nat) → Analysis Ω Memory Unit
  | 0 => throw .outOfFuel
  | fuel + 1 => do
    match (← memory).changed.pop? with
    | none => return
    | some (n, changed) =>
      modifyMemory fun m => { m with changed }
      findEdges su n
      drainChanged su fuel

def round (su : Setup) : Analysis Ω Memory Unit := do
  modifyStats fun s => { s with rounds := s.rounds + 1 }
  resetComputed
  drainChanged su su.resources.fuel
  resetComputed
  ascend su (computeNode su) false
  descendRounds su (narrowNode su) (su.options.roundsFor .guided)
  checkDeadline su

/-- Rounds until nothing has changed. -/
def rounds (su : Setup) : (fuel : Nat) → Analysis Ω Memory Unit
  | 0 => throw .outOfFuel
  | fuel + 1 => do
    unless (← memory).changed.isEmpty do
      round su
      rounds su fuel

def computeFunction (su : Setup) : Analysis Ω Memory Unit := do
  modifyMemory fun _ => .empty
  markChanged 0
  rounds su su.resources.fuel

def strategy : Strategy Ω Memory := ⟨.empty, computeFunction, computeNode, narrowNode, fun _ => false⟩

end PathInvariants.Guided
