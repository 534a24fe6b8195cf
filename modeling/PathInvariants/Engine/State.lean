import PathInvariants.Context
import PathInvariants.Options
import PathInvariants.Transfer
import PathInvariants.Worklist

/-!
# Engine states

The bookkeeping of one technique on one function, and the computations on it. A computation that
fails leaves the state it has reached behind, since later steps and runs may look at it. Nodes are
arena indices and the entry is node zero.
-/

namespace PathInvariants

structure Stats where
  ascendingSteps : Nat := 0
  descendingSteps : Nat := 0
  widenings : Nat := 0
  queries : Nat := 0
  rounds : Nat := 0
deriving DecidableEq, Repr

/-- What the surroundings of an analysis provide: the milliseconds that have passed at each reading
of the clock, and a bound on the steps of every loop. -/
structure Resources where
  clock : Nat → Nat
  fuel : Nat

/-- What does not change during an analysis. -/
structure Setup where
  graph : ControlFlow
  transfer : Transfer
  options : Options
  resources : Resources

def Setup.key (su : Setup) : Key := su.options.key

structure Engine (Ω : Type) where
  context : Context
  oracle : Ω
  worklist : Worklist
  /-- Which nodes need no computation. -/
  computed : List Bool
  thresholds : List LinearConstraint
  usesThresholds : Bool
  /-- How often the clock has been read. -/
  readings : Nat
  stats : Stats
  /-- Whether the run has given up. -/
  unknown : Bool
  /-- What has been stored at each node so far, the latest first. Nothing reads this record of the run. -/
  written : List (Nat × Slots Disjunction)

def Engine.new {Ω : Type} (options : Options) (context : Context) (oracle : Ω) : Engine Ω where
  context
  oracle
  worklist := .empty
  computed := List.replicate context.size false
  thresholds := []
  usesThresholds := options.thresholds
  readings := 0
  stats := {}
  unknown := false
  written := []

/-- An engine together with what its strategy remembers. -/
structure Run (Ω S : Type) where
  engine : Engine Ω
  memory : S

abbrev Analysis (Ω S α : Type) := ExceptT Failure (StateM (Run Ω S)) α

namespace Analysis

variable {Ω S α : Type}

def engine : Analysis Ω S (Engine Ω) := return (← get).engine

def memory : Analysis Ω S S := return (← get).memory

def modifyEngine (f : Engine Ω → Engine Ω) : Analysis Ω S Unit := modify fun r => { r with engine := f r.engine }

def modifyMemory (f : S → S) : Analysis Ω S Unit := modify fun r => { r with memory := f r.memory }

def modifyStats (f : Stats → Stats) : Analysis Ω S Unit :=
  modifyEngine fun e => { e with stats := f e.stats }

def liftExcept (r : Except Failure α) : Analysis Ω S α := ExceptT.mk (pure r)

def ofFault : Except Fault α → Analysis Ω S α
  | .ok a => return a
  | .error f => throw (.fault f)

def ofViolation : Except Violation α → Analysis Ω S α
  | .ok a => return a
  | .error v => throw (.violation v)

def arena : Analysis Ω S Arena := return (← engine).context.arena

def nodeCount : Analysis Ω S Nat := return (← engine).context.size

def block (n : Nat) : Analysis Ω S Block := do ofViolation ((← engine).context.block n)

def env (n : Nat) : Analysis Ω S Environment := return (← ofViolation ((← engine).context.node n)).env

def top (su : Setup) (n : Nat) : Analysis Ω S Value := return .top su.options.domain (← env n)

def bottom (su : Setup) (n : Nat) : Analysis Ω S Value := return .bottom su.options.domain (← env n)

def isWidening (n : Nat) : Analysis Ω S Bool := return (← arena).cuts.isWidening n

def slots (su : Setup) (n : Nat) : Analysis Ω S (Slots Disjunction) := do
  ofViolation ((← engine).context.slots n su.key)

def setSlots (su : Setup) (n : Nat) (s : Slots Disjunction) : Analysis Ω S Unit := do
  let context ← ofViolation ((← engine).context.setSlots n su.key s)
  modifyEngine fun e => { e with context, written := (n, s) :: e.written }

def slot (su : Setup) (n : Nat) (slot : Slot) : Analysis Ω S Disjunction := return (← slots su n).get slot

def setSlot (su : Setup) (n : Nat) (slot : Slot) (d : Disjunction) : Analysis Ω S Unit := do
  setSlots su n ((← slots su n).set slot d)

/-- The first disjunct of a slot: the whole value for techniques without unions. -/
def value (su : Setup) (n : Nat) (s : Slot) : Analysis Ω S Value := do
  match (← slot su n s).get? 0 with
  | some v => return v
  | none => throw (.violation (.emptySlot n s))

def setDisjunct (su : Setup) (n : Nat) (s : Slot) (index : Nat) (v : Value) : Analysis Ω S Unit := do
  setSlot su n s ((← slot su n s).set index v)

def setValue (su : Setup) (n : Nat) (s : Slot) (v : Value) : Analysis Ω S Unit := setDisjunct su n s 0 v

/-- A disjunct of a slot, bottom when there are fewer. -/
def disjunct (su : Setup) (n : Nat) (s : Slot) (index : Nat) : Analysis Ω S Value := do
  match (← slot su n s).get? index with
  | some v => return v
  | none => bottom su n

def isComputed (n : Nat) : Analysis Ω S Bool := do
  let computed := (← engine).computed
  match computed[n]? with
  | some b => return b
  | none => throw (.fault (.indexOutOfRange computed.length n))

def setComputed (n : Nat) (b : Bool) : Analysis Ω S Unit := do
  let computed := (← engine).computed
  if n < computed.length then modifyEngine fun e => { e with computed := computed.set n b }
  else throw (.fault (.indexOutOfRange computed.length n))

/-- Marks every node as needing computation. -/
def resetComputed : Analysis Ω S Unit :=
  modifyEngine fun e => { e with computed := e.computed.map fun _ => false }

def push (n : Nat) : Analysis Ω S Unit :=
  modifyEngine fun e => { e with worklist := e.worklist.push n (e.context.arena.label n) }

def pop? : Analysis Ω S (Option Nat) := do
  match (← engine).worklist.pop? with
  | none => return none
  | some (n, worklist) =>
    modifyEngine fun e => { e with worklist }
    return some n

def clearWorklist : Analysis Ω S Unit := modifyEngine fun e => { e with worklist := .empty }

def markUnknown : Analysis Ω S Unit := modifyEngine fun e => { e with unknown := true }

/-- Fails when the budget is used up. -/
def checkDeadline (su : Setup) : Analysis Ω S Unit := do
  let elapsed := su.resources.clock (← engine).readings
  modifyEngine fun e => { e with readings := e.readings + 1 }
  if su.options.isExpired elapsed then
    markUnknown
    throw .timeout

end Analysis

end PathInvariants
