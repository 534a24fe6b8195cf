import PathInvariants.Engine.Iteration

/-!
# Strategies

A strategy says what it means to compute a node and to narrow one, and in which order the passes
run. This module also holds the steps that several techniques share.
-/

namespace PathInvariants

structure Strategy (Ω S : Type) where
  initial : S
  computeFunction : Setup → Analysis Ω S Unit
  computeNode : Setup → Nat → Analysis Ω S Unit
  narrowNode : Setup → Nat → Analysis Ω S Unit
  /-- Whether a contribution had to be merged where it does not fit exactly. -/
  isDegraded : S → Bool

namespace Strategy

variable {Ω S : Type}

/-- Analyzes the function from scratch. -/
def run (st : Strategy Ω S) (su : Setup) : Analysis Ω S Unit := do
  Analysis.prepare su
  st.computeFunction su

/-- Analyzes with a fresh memory and tells whether precision was degraded. -/
def runFresh (st : Strategy Ω S) (su : Setup) (e : Engine Ω) : Except Failure Bool × Engine Ω :=
  let (result, final) := (st.run su).run.run ⟨e, st.initial⟩
  (result.map fun _ => st.isDegraded final.memory, final.engine)

end Strategy

namespace Analysis

variable {Ω S : Type}

/-- The next value of a node that receives `image`: a widening at widening points and a join
elsewhere, met with what is known. -/
def nextValue (su : Setup) (succ : Nat) (previous image : Value) : Analysis Ω S Value := do
  let next ← if ← isWidening succ then widen su previous image else ofFault (image.join previous)
  meetKnown su succ next

/-- Stores a value that has grown and schedules its node. -/
def store (su : Setup) (succ : Nat) (previous next : Value) : Analysis Ω S Unit := do
  if previous.isBottom then setValue su succ .initial next
  setValue su succ .stable next
  push succ
  setComputed succ false

/-- Propagates the value of `n` along an edge and tells whether its target has grown. -/
def ascendEdge (su : Setup) (n : Nat) (start : Value) (succ : Nat) : Analysis Ω S Bool := do
  modifyStats fun s => { s with ascendingSteps := s.ascendingSteps + 1 }
  let image ← transformEdge su n succ start
  let previous ← value su succ .stable
  let next ← nextValue su succ previous image
  if next.leq previous then return false
  store su succ previous next
  return true

/-- Joins a value into the descending slot. -/
def joinDescending (su : Setup) (n : Nat) (image : Value) : Analysis Ω S Unit := do
  let descending ← value su n .descending
  let joined ← if descending.isBottom then pure image else ofFault (descending.join image)
  setValue su n .descending joined

/-- Propagates the value of `n` along an edge into the descending slot of its target. -/
def descendEdge (su : Setup) (n : Nat) (start : Value) (succ : Nat) : Analysis Ω S Unit := do
  modifyStats fun s => { s with descendingSteps := s.descendingSteps + 1 }
  let image ← transformEdge su n succ start
  joinDescending su succ image
  push succ

/-- Restarts from the widening seeds of the first result, which becomes a known property. -/
def restartFromSeeds (su : Setup) (compute narrow : Nat → Analysis Ω S Unit) (rounds : Nat) :
    Analysis Ω S Unit := do
  keepStable su
  if ← findSeeds su then
    let _ ← settle su
    resetComputed
    clearWorklist
    (List.range (← nodeCount)).forM fun n => do
      unless (← slot su n .stable).isBottom do push n
    ascend su compute false
    descendRounds su narrow rounds
  else restoreKnown su

/-- Whether paths start at a node: a cut point that another one follows, but no error site. -/
def startsPaths (n : Nat) : Analysis Ω S Bool := do
  let cuts := (← arena).cuts
  return cuts.isCut n && !cuts.isErrorSite n && !(cuts.successors n).isEmpty

/-- A disjunct of departure with a path that leads back to its start. -/
abbrev Sighting := Nat × Path

/-- The outcome of a step on a cyclic path: the image to go on with, whether to join only, and the
cyclic paths seen. -/
structure LoopStep where
  image : Value
  onlyJoin : Bool
  seen : List Sighting

/-- A step on a path from `n` back to itself. The first sighting of the path is only recorded. The
second widens the target disjunct with the image, takes the image of the widened value, and leaves
the source disjunct as it was. -/
def loopStep (su : Setup) (n source target : Nat) (p : Path) (step : LoopStep) : Analysis Ω S LoopStep := do
  if step.seen.contains (source, p) then
    let env ← env n
    let backup ← disjunct su n .stable source
    let previous ← disjunct su n .stable target
    let widened ← widenToThresholds su previous (previous.joinOver env [step.image])
    setDisjunct su n .stable target widened
    let image := (← transform su p widened).withEnv env
    setDisjunct su n .stable source backup
    return ⟨image, true, step.seen.filter (· != (source, p))⟩
  else return { step with seen := (source, p) :: step.seen }

end Analysis

end PathInvariants
