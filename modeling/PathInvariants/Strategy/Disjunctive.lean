import PathInvariants.Placement
import PathInvariants.Strategy.Basic

/-!
# Disjunctive path focusing

Invariants at cut points are unions. A path that leaves one disjunct of its source is merged into
the disjunct of its destination that the placement picks. A round first records the paths out of
changed nodes whose image is not covered; the ascending and descending passes take recorded paths
only. The analysis ends with a round in which no node changed.
-/

namespace PathInvariants.Disjunctive

open Analysis

variable {Ω : Type} [PathOracle Ω]

structure Memory where
  /-- The recorded paths of each node. -/
  recorded : List PathSet
  /-- The nodes that changed in the current round. -/
  changed : Worklist
  placement : Placement
  /-- Cyclic paths seen once during the current computation of a node. -/
  seen : List Sighting
deriving DecidableEq, Repr

def Memory.new (maxDisjuncts : Nat) : Memory := ⟨[], .empty, .new maxDisjuncts, []⟩

def markChanged (n : Nat) : Analysis Ω Memory Unit := do
  let label := (← arena).label n
  modifyMemory fun m => { m with changed := m.changed.push n label }

/-- Picks the disjunct of a target slot that a contribution goes to. -/
def place (p : Path) (start : Nat) (image : Value) (target : Disjunction) : Analysis Ω Memory Nat := do
  let (index, placement) := (← memory).placement.assign p start image target
  modifyMemory fun m => { m with placement }
  return index

/-- The image of a disjunct of `n` along a path, in the environment of its end. -/
def imageOf (su : Setup) (n index : Nat) (p : Path) (succ : Nat) : Analysis Ω Memory Value := do
  let env ← env succ
  return (← transform su p (← disjunct su n .stable index)).withEnv env

/-- Records a path and merges its image into the descending slot of its end. -/
def recordPath (su : Setup) (n : Nat) (p : Path) (index : Nat) : Analysis Ω Memory Unit := do
  let succ ← destinationOf p
  let image ← imageOf su n index p succ
  let target ← slot su succ .descending
  let chosen ← place p index image target
  setSlot su succ .descending (target.joinOver (← env succ) [image] chosen)
  modifyMemory fun m => { m with recorded := m.recorded.modify n fun s => s.insertPending p }
  push n

def recordPaths (su : Setup) (n : Nat) : (fuel : Nat) → Analysis Ω Memory Unit
  | 0 => throw .outOfFuel
  | fuel + 1 => do
    match ← query su n true .any with
    | none => return
    | some (p, index) =>
      if 1 < p.length then
        recordPath su n p index
        recordPaths su n fuel

/-- Records every path out of `n` whose image is not covered. The descending slots of the cut points
that follow serve as scratch space. -/
def findPaths (su : Setup) (n : Nat) : Analysis Ω Memory Unit := do
  if ← startsPaths n then
    ((← arena).cuts.successors n).forM fun s => do setSlot su s .descending (← slot su s .stable)
    recordPaths su n su.resources.fuel

/-- Propagates a disjunct of `n` along a path. -/
def propagate (su : Setup) (n : Nat) (p : Path) (index : Nat) : Analysis Ω Memory Unit := do
  modifyStats fun s => { s with ascendingSteps := s.ascendingSteps + 1 }
  let succ ← destinationOf p
  let env ← env succ
  let image ← imageOf su n index p succ
  let chosen ← place p index image (← slot su succ .stable)
  let seen := (← memory).seen
  let step : LoopStep := ⟨image, !seen.contains (index, p), seen⟩
  let step ← if succ = n then loopStep su n index chosen p step else pure step
  modifyMemory fun m => { m with seen := step.seen }
  let previous ← disjunct su succ .stable chosen
  let joined := previous.joinOver env [step.image]
  let widens := (← isWidening succ) && (succ != n || !step.onlyJoin)
  let next ← if widens then widenToThresholds su previous joined else pure joined
  let next ← meetKnown su succ next
  if previous.isBottom then setDisjunct su succ .initial chosen next
  setDisjunct su succ .stable chosen next
  push succ
  setComputed succ false
  markChanged succ

/-- Asks for a recorded path out of `n`. Nothing is asked before the first round. -/
def nextRecorded (su : Setup) (n : Nat) (descending : Bool) : Analysis Ω Memory (Option (Path × Nat)) := do
  match (← memory).recorded[n]? with
  | none => return none
  | some paths =>
    match ← query su n descending (.within paths) with
    | some (p, index) => return if 1 < p.length then some (p, index) else none
    | none => return none

def followPaths (su : Setup) (n : Nat) : (fuel : Nat) → Analysis Ω Memory Unit
  | 0 => throw .outOfFuel
  | fuel + 1 => do
    match ← nextRecorded su n false with
    | none => return
    | some (p, index) =>
      propagate su n p index
      followPaths su n fuel

def computeNode (su : Setup) (n : Nat) : Analysis Ω Memory Unit := do
  setComputed n true
  if ← startsPaths n then
    modifyMemory fun m => { m with seen := [] }
    followPaths su n su.resources.fuel

/-- Propagates a disjunct of `n` along a path into the descending slot of its end. -/
def propagateDown (su : Setup) (n : Nat) (p : Path) (index : Nat) : Analysis Ω Memory Unit := do
  modifyStats fun s => { s with descendingSteps := s.descendingSteps + 1 }
  let succ ← destinationOf p
  let image ← imageOf su n index p succ
  let target ← slot su succ .descending
  let chosen ← place p index image target
  let image ← meetKnown su succ image
  let env ← env succ
  setSlot su succ .descending
    (if target.isBottomAt chosen then target.set chosen image else target.joinOver env [image] chosen)
  push succ
  setComputed succ false

def followPathsDown (su : Setup) (n : Nat) : (fuel : Nat) → Analysis Ω Memory Unit
  | 0 => throw .outOfFuel
  | fuel + 1 => do
    match ← nextRecorded su n true with
    | none => return
    | some (p, index) =>
      propagateDown su n p index
      followPathsDown su n fuel

def narrowNode (su : Setup) (n : Nat) : Analysis Ω Memory Unit := do
  setComputed n true
  if ← startsPaths n then followPathsDown su n su.resources.fuel

/-- Takes the changed nodes one by one and records the new paths out of them. -/
def drainChanged (su : Setup) : (fuel : Nat) → Analysis Ω Memory Unit
  | 0 => throw .outOfFuel
  | fuel + 1 => do
    match (← memory).changed.pop? with
    | none => return
    | some (n, changed) =>
      modifyMemory fun m => { m with changed }
      findPaths su n
      drainChanged su fuel

/-- Descending passes while settling still changes something, at most `count` of them. -/
def descendAgain (su : Setup) : (count : Nat) → Analysis Ω Memory Unit
  | 0 => do
    let _ ← settle su
  | count + 1 => do
    if ← settle su then
      descend su (narrowNode su)
      descendAgain su count

def round (su : Setup) : Analysis Ω Memory Unit := do
  modifyStats fun s => { s with rounds := s.rounds + 1 }
  modifyMemory fun m => { m with recorded := m.recorded.map PathSet.clearPending }
  resetComputed
  clearWorklist
  drainChanged su su.resources.fuel
  modifyMemory fun m => { m with recorded := m.recorded.map PathSet.commit }
  resetComputed
  ascend su (computeNode su) false
  descend su (narrowNode su)
  descendAgain su (su.options.roundsFor .disjunctive)
  checkDeadline su

/-- Rounds until no node has changed. -/
def rounds (su : Setup) : (fuel : Nat) → Analysis Ω Memory Unit
  | 0 => throw .outOfFuel
  | fuel + 1 => do
    unless (← memory).changed.isEmpty do
      round su
      rounds su fuel

def computeFunction (su : Setup) : Analysis Ω Memory Unit := do
  let count ← nodeCount
  modifyMemory fun m =>
    { m with recorded := List.replicate count .empty, changed := .empty, placement := m.placement.clear }
  markChanged 0
  rounds su su.resources.fuel

def strategy (maxDisjuncts : Nat) : Strategy Ω Memory :=
  ⟨.new maxDisjuncts, computeFunction, computeNode, narrowNode, fun m => m.placement.degraded⟩

end PathInvariants.Disjunctive
