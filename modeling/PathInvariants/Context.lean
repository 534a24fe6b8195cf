import PathInvariants.Arena
import PathInvariants.Oracle

/-!
# Analysis contexts

Everything known about one function: its arena, and a node for each block in it. The slots of
several runs live side by side under their keys, so a run can read the results of another.
-/

namespace PathInvariants

structure Context where
  arena : Arena
  nodes : List (Node Disjunction)

namespace Context

def build (g : ControlFlow) : Context :=
  let arena := Arena.build g
  ⟨arena, arena.blocks.map Node.new⟩

def size (c : Context) : Nat := c.nodes.length

def node (c : Context) (n : Nat) : Except Violation (Node Disjunction) :=
  match c.nodes[n]? with
  | some node => .ok node
  | none => .error (.noNode n)

def block (c : Context) (n : Nat) : Except Violation Block := return (← c.node n).block

def slots (c : Context) (n : Nat) (key : Key) : Except Violation (Slots Disjunction) := do
  match (← c.node n).slots? key with
  | some s => .ok s
  | none => .error (.noSlots n key)

def setNode (c : Context) (n : Nat) (node : Node Disjunction) : Context := { c with nodes := c.nodes.set n node }

def setSlots (c : Context) (n : Nat) (key : Key) (s : Slots Disjunction) : Except Violation Context :=
  return c.setNode n ((← c.node n).setSlots key s)

/-- Whether a run with this key has been started on the function. -/
def hasRun (c : Context) (key : Key) : Bool := c.nodes.head?.any fun n => n.hasSlots key

/-- The slots of one run, by block. -/
def view (c : Context) (key : Key) : StateView :=
  let nodeOf (b : Block) : Option (Node Disjunction) := (c.arena.index? b).bind fun n => c.nodes[n]?
  { disjuncts := fun b slot =>
      ((nodeOf b).bind fun n => n.slots? key).elim [] fun s => (s.get slot).toList
    isCut := fun b => (c.arena.index? b).any c.arena.cuts.isCut
    environment := fun b => (nodeOf b).map (·.env) }

end Context

end PathInvariants
