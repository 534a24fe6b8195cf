import PathInvariants.Strategy.Basic

/-!
# Path focusing

Invariants live at cut points only. The oracle hands out one feasible path between two of them at a
time whose image is not covered yet.
-/

namespace PathInvariants.Focusing

open Analysis

variable {Ω : Type} [PathOracle Ω]

/-- Cyclic paths seen once during the current computation of a node. -/
structure Memory where
  seen : List Sighting
deriving DecidableEq, Repr

/-- Propagates the value of `n` along a path, and tells whether the node is to join only. -/
def propagate (su : Setup) (n : Nat) (p : Path) (onlyJoin : Bool) : Analysis Ω Memory Bool := do
  let succ ← destinationOf p
  modifyStats fun s => { s with ascendingSteps := s.ascendingSteps + 1 }
  let env ← env succ
  let image := (← transform su p (← value su n .stable)).withEnv env
  let step : LoopStep := ⟨image, onlyJoin, (← memory).seen⟩
  let step ← if succ = n then loopStep su n 0 0 p step else pure step
  modifyMemory fun _ => ⟨step.seen⟩
  let previous ← value su succ .stable
  let joined := previous.joinOver env [step.image]
  let widens := (← isWidening succ) && (succ != n || !step.onlyJoin)
  let next ← if widens then widen su previous joined else pure joined
  if previous.isBottom then setValue su succ .initial next
  setValue su succ .stable (← meetKnown su succ next)
  push succ
  setComputed succ false
  return step.onlyJoin

/-- Follows the paths out of `n` that the oracle finds. -/
def followPaths (su : Setup) (n : Nat) : (fuel : Nat) → (onlyJoin : Bool) → Analysis Ω Memory Unit
  | 0, _ => throw .outOfFuel
  | fuel + 1, onlyJoin => do
    setComputed n true
    match ← query su n false .any with
    | none => return
    | some (p, _) =>
      if 1 < p.length then followPaths su n fuel (← propagate su n p onlyJoin)

def computeNode (su : Setup) (n : Nat) : Analysis Ω Memory Unit := do
  if ← startsPaths n then
    modifyMemory fun _ => ⟨[]⟩
    followPaths su n su.resources.fuel false
  else setComputed n true

/-- Propagates the value of `n` along a path into the descending slot of its end. -/
def propagateDown (su : Setup) (n : Nat) (p : Path) : Analysis Ω Memory Unit := do
  let succ ← destinationOf p
  modifyStats fun s => { s with descendingSteps := s.descendingSteps + 1 }
  let image := (← transform su p (← value su n .stable)).withEnv (← env succ)
  joinDescending su succ (← meetKnown su succ image)
  push succ
  setComputed succ false

def followPathsDown (su : Setup) (n : Nat) : (fuel : Nat) → Analysis Ω Memory Unit
  | 0 => throw .outOfFuel
  | fuel + 1 => do
    setComputed n true
    match ← query su n true .any with
    | none => return
    | some (p, _) =>
      if 1 < p.length then
        propagateDown su n p
        followPathsDown su n fuel

def narrowNode (su : Setup) (n : Nat) : Analysis Ω Memory Unit := do
  if ← startsPaths n then followPathsDown su n su.resources.fuel else setComputed n true

def computeFunction (su : Setup) : Analysis Ω Memory Unit := do
  ascend su (computeNode su) true
  descendRounds su (narrowNode su) (su.options.roundsFor .focusing)

def strategy : Strategy Ω Memory := ⟨⟨[]⟩, computeFunction, computeNode, narrowNode, fun _ => false⟩

end PathInvariants.Focusing
