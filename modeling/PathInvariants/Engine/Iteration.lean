import PathInvariants.Engine.State

/-!
# Iteration

The operations that all techniques share: transformation along paths, widening, the ascending and
descending passes over the worklist, the search for widening seeds, and oracle queries.
-/

namespace PathInvariants.Analysis

variable {Ω S : Type}

/-- Gives a node its environment and fresh bottom slots. -/
def prepareNode (su : Setup) (n : Nat) : Analysis Ω S Unit := do
  let node ← ofViolation ((← engine).context.node n)
  let node ← ofFault (node.track su.transfer.kindOf (su.transfer.liveVariables node.block))
  let node := node.setSlots su.key (.filled (.single (.bottom su.options.domain node.env)))
  modifyEngine fun e => { e with context := e.context.setNode n node }

/-- Makes the invariants of another run the known property of a node. -/
def importKnown (su : Setup) (known : Key) (n : Nat) : Analysis Ω S Unit := do
  let s ← ofViolation ((← engine).context.slots n known)
  let hull ← ofFault s.stable.hull
  setSlot su n .known (.single (hull.withEnv (← env n)))

/-- Starts from scratch: the entry at top and every other node at bottom. -/
def prepare (su : Setup) : Analysis Ω S Unit := do
  let nodes := List.range (← nodeCount)
  nodes.forM (prepareNode su)
  unless nodes.isEmpty do
    let top := Disjunction.single (← top su 0)
    setSlots su 0 { (← slots su 0) with stable := top, descending := top, initial := top }
  match su.options.known with
  | some known =>
    if known ≠ su.key ∧ (← engine).context.hasRun known then nodes.forM (importKnown su known)
  | none => pure ()
  clearWorklist
  modifyEngine fun e => { e with computed := nodes.map fun _ => false }

/-- Transforms a value along a path and collects the guards met on the way. -/
def transform (su : Setup) (p : Path) (v : Value) : Analysis Ω S Value := do
  modifyEngine fun e => { e with thresholds := su.transfer.thresholdsAlong p e.thresholds }
  checkDeadline su
  return su.transfer.along p v

/-- Transforms a value along a path of arena nodes. -/
def transformNodes (su : Setup) (nodes : List Nat) (v : Value) : Analysis Ω S Value := do
  transform su ⟨← nodes.mapM block⟩ v

/-- Transforms a value along an edge, to the environment of its target. -/
def transformEdge (su : Setup) (n succ : Nat) (v : Value) : Analysis Ω S Value := do
  return (← transformNodes su [n, succ] v).withEnv (← env succ)

/-- Widens with the thresholds collected so far. -/
def widenToThresholds (su : Setup) (previous next : Value) : Analysis Ω S Value := do
  let widened ← ofFault (Value.widenTo (← engine).thresholds previous next)
  modifyStats fun s => { s with widenings := s.widenings + 1 }
  checkDeadline su
  return widened

/-- Widens, with thresholds if they are in use. -/
def widen (su : Setup) (previous next : Value) : Analysis Ω S Value := do
  let e ← engine
  let widened ← ofFault (Value.widenTo (if e.usesThresholds then e.thresholds else []) previous next)
  modifyStats fun s => { s with widenings := s.widenings + 1 }
  checkDeadline su
  return widened

/-- Meets a value with the known property of a node. -/
def meetKnown (su : Setup) (n : Nat) (v : Value) : Analysis Ω S Value := do
  let known ← value su n .known
  if known.isBottom then return v else ofFault (v.meet known)

/-- Takes nodes from the worklist until it is empty and visits those not computed. -/
def drain (visit : Nat → Analysis Ω S Unit) : (fuel : Nat) → Analysis Ω S Unit
  | 0 => throw .outOfFuel
  | fuel + 1 => do
    match ← pop? with
    | none => return
    | some n =>
      unless ← isComputed n do visit n
      drain visit fuel

/-- The ascending pass, from the entry if asked to. -/
def ascend (su : Setup) (compute : Nat → Analysis Ω S Unit) (fromEntry : Bool) : Analysis Ω S Unit := do
  if fromEntry then push 0
  drain compute su.resources.fuel

/-- Empties the descending slot, which at the entry holds the stable value. -/
def resetDescending (su : Setup) (n : Nat) : Analysis Ω S Unit := do
  if n = 0 then setSlot su n .descending (← slot su n .stable)
  else setSlot su n .descending (.single (← bottom su n))

/-- One descending pass. -/
def descend (su : Setup) (narrow : Nat → Analysis Ω S Unit) : Analysis Ω S Unit := do
  resetComputed
  clearWorklist
  (List.range (← nodeCount)).forM (resetDescending su)
  push 0
  drain narrow su.resources.fuel

/-- The slots after the stable value has given way to the descending one, and whether they changed.
Single values are met with the stable value, so it never grows; the second component of a lookahead
value follows the first. Unions are replaced as a whole. -/
def settled (technique : Technique) (s : Slots Disjunction) : Except Fault (Slots Disjunction × Bool) := do
  match technique with
  | .disjunctive => return if s.stable.same s.descending then (s, false) else ({ s with stable := s.descending }, true)
  | _ =>
    let stable := s.stable.first
    let descending := s.descending.first
    let narrowed ← if descending.leq stable then pure descending else descending.meet stable
    if stable.leq narrowed then return (s, false)
    else
      let followed := if technique = .lookahead then s.stable.set 1 narrowed else s.stable
      return ({ s with stable := followed.set 0 narrowed }, true)

/-- Settles every node and tells whether one of them changed. -/
def settle (su : Setup) : Analysis Ω S Bool := do
  let changes ← (List.range (← nodeCount)).mapM fun n => do
    let (s, changed) ← ofFault (settled su.options.technique (← slots su n))
    setSlots su n s
    return changed
  return changes.any id

/-- Descending passes while settling still changes something, at most `count` of them. -/
def descendAgain (su : Setup) (narrow : Nat → Analysis Ω S Unit) : (count : Nat) → Analysis Ω S Unit
  | 0 => do
    let _ ← settle su
  | count + 1 => do
    if ← settle su then
      descend su narrow
      checkDeadline su
      descendAgain su narrow count

/-- A descending pass, and then up to `rounds + 1` further ones. -/
def descendRounds (su : Setup) (narrow : Nat → Analysis Ω S Unit) (rounds : Nat) : Analysis Ω S Unit := do
  descend su narrow
  descendAgain su narrow (rounds + 1)

/-- Makes the stable values the known properties. -/
def keepStable (su : Setup) : Analysis Ω S Unit := do
  (List.range (← nodeCount)).forM fun n => do
    let s ← slots su n
    setSlots su n { s with known := s.stable }

/-- Makes the known properties the stable values. -/
def restoreKnown (su : Setup) : Analysis Ω S Unit := do
  (List.range (← nodeCount)).forM fun n => do
    let s ← slots su n
    setSlots su n { s with stable := s.known }

/-- The constraints of the initial value of a node that its stable value no longer implies. -/
def seedsAt (su : Setup) (n : Nat) : Analysis Ω S (List LinearConstraint) := do
  let initial ← value su n .initial
  if initial.isBottom then return []
  let stable ← value su n .stable
  return initial.toConstraints.filter fun c => !stable.satisfies c

/-- Puts the initial value of a widening point with seeds into its descending slot, and the seeds
among the thresholds. -/
def plantSeeds (su : Setup) (n : Nat) : Analysis Ω S Bool := do
  let seeds ← seedsAt su n
  if seeds.isEmpty then return false
  setValue su n .descending (← value su n .initial)
  modifyEngine fun e => { e with thresholds := Transfer.addNew e.thresholds seeds }
  return true

/-- Looks for widening seeds. Once there are some, every later widening uses thresholds. -/
def findSeeds (su : Setup) : Analysis Ω S Bool := do
  ((List.range (← nodeCount)).filter (· != 0)).forM fun n => do
    setSlot su n .descending (.single (← bottom su n))
  let found ← (← arena).cuts.wideningNodes.mapM (plantSeeds su)
  if found.any id then modifyEngine fun e => { e with usesThresholds := true }
  return found.any id

/-- A path from an oracle must start where it was asked to, follow edges and stay in the arena. -/
def checkPath (g : ControlFlow) (a : Arena) (start : Block) (p : Path) : Except Violation Unit := do
  if p.source? ≠ some start then throw (.wrongStart p start)
  match p.steps.find? fun s => !g.hasEdge s.1 s.2 with
  | some (x, y) => throw (.notAnEdge p x y)
  | none => pure ()
  if p.blocks.any fun b => (a.index? b).isNone then throw (.leavesFunction p)

/-- Asks the oracle for a path out of `n` and the disjunct it departs from. -/
def query [PathOracle Ω] (su : Setup) (n : Nat) (descending : Bool) (filter : PathFilter) :
    Analysis Ω S (Option (Path × Nat)) := do
  let start ← block n
  let view := (← engine).context.view su.key
  modifyEngine fun e => { e with oracle := PathOracle.push e.oracle }
  let (answer, asked) := PathOracle.query ⟨start, descending, filter⟩ view (← engine).oracle
  let (popped, oracle) := PathOracle.pop asked
  modifyEngine fun e => { e with oracle }
  liftExcept popped
  let answer ← liftExcept answer
  modifyStats fun s => { s with queries := s.queries + 1 }
  checkDeadline su
  match answer with
  | .unsat => return none
  | .unknown =>
    markUnknown
    throw .oracleUnknown
  | .sat p i =>
    ofViolation (checkPath su.graph (← arena) start p)
    return some (p, i)

def indexOf (b : Block) : Analysis Ω S Nat := do
  match (← arena).index? b with
  | some n => return n
  | none => throw (.violation (.notInArena b))

/-- The node at the end of a path. -/
def destinationOf (p : Path) : Analysis Ω S Nat := do
  match p.destination? with
  | some b => indexOf b
  | none => throw (.violation .emptyPath)

end PathInvariants.Analysis
