import PathInvariants.Fault
import PathInvariants.Node
import PathInvariants.Technique

/-!
# Analysis failures

How an analysis can end without a result. A recoverable failure gives up one function only. Any
other one is a mistake of the engine or of a collaborator.
-/

namespace PathInvariants

/-- How a block is shown in messages. -/
def Block.render (b : Block) : String := s!"NodeIndex({b})"

/-- A broken promise between the engine and its collaborators. -/
inductive Violation where
  | noNode (n : Nat)
  | noSlots (n : Nat) (key : Key)
  | emptySlot (n : Nat) (slot : Slot)
  | notInArena (b : Block)
  | emptyPath
  | wrongStart (p : Path) (start : Block)
  | notAnEdge (p : Path) (a b : Block)
  | leavesFunction (p : Path)
  | unbalancedPop
  /-- Reported by a collaborator in its own words. -/
  | reported (text : String)
deriving DecidableEq, Repr

namespace Violation

def message : Violation → String
  | noNode n => s!"no node {n} in the arena"
  | noSlots n key => s!"node {n} has no slots for " ++ key.render
  | emptySlot n slot => "empty " ++ slot.render ++ s!" slot at node {n}"
  | notInArena b => "block " ++ Block.render b ++ " is not in the arena"
  | emptyPath => "empty oracle path"
  | wrongStart p start => "oracle path " ++ p.render Block.render ++ " does not start at " ++ Block.render start
  | notAnEdge p a b =>
    "oracle path " ++ p.render Block.render ++ " takes " ++ Block.render a ++ " -> " ++ Block.render b ++
      ", which is not an edge"
  | leavesFunction p => "oracle path " ++ p.render Block.render ++ " leaves the analyzed function"
  | unbalancedPop => "oracle context popped more than pushed"
  | reported text => text

end Violation

inductive Failure where
  | timeout
  | oracleUnknown
  | violation (v : Violation)
  | fault (f : Fault)
  /-- A loop was cut off after its allotted number of steps. -/
  | outOfFuel
deriving DecidableEq, Repr

namespace Failure

def isRecoverable : Failure → Bool
  | timeout | oracleUnknown => true
  | violation _ | fault _ | outOfFuel => false

def message : Failure → String
  | timeout => "analysis timed out"
  | oracleUnknown => "path oracle could not decide the query"
  | violation v => "invariant violation: " ++ v.message
  | fault f => f.message
  | outOfFuel => "analysis out of fuel"

end Failure

end PathInvariants
