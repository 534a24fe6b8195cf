import PathInvariants.Flow.Graph

/-!
# Cached loop headers

A flow graph together with its loop headers, which are found when they are first asked for and kept
until a block or an edge is added. Roles and payloads have no part in them.
-/

namespace PathInvariants

structure CachedGraph (β ε : Type) where
  graph : FlowGraph β ε
  /-- The loop headers, if they have been asked for since the graph last grew. -/
  cache : Option (Array Bool)
deriving DecidableEq, Repr

namespace CachedGraph

variable {β ε : Type}

def new (entry : β) : CachedGraph β ε := ⟨.new entry, none⟩

def addBlock (c : CachedGraph β ε) (payload : β) : CachedGraph β ε := ⟨c.graph.addBlock payload, none⟩

def addEdge (c : CachedGraph β ε) (a b : Block) (payload : ε) : CachedGraph β ε := ⟨c.graph.addEdge a b payload, none⟩

def setRole (c : CachedGraph β ε) (b : Block) (role : BlockRole) : CachedGraph β ε :=
  { c with graph := c.graph.setRole b role }

def setPayload (c : CachedGraph β ε) (b : Block) (payload : β) : CachedGraph β ε :=
  { c with graph := c.graph.setPayload b payload }

/-- For each block, whether it is a loop header. -/
def loopHeaders (c : CachedGraph β ε) (dominators : Flow.Dominators := Flow.dominatorsByRemoval) : Array Bool :=
  c.cache.getD (c.graph.loopHeaders dominators)

/-- The graph after its loop headers have been asked for. -/
def filled (c : CachedGraph β ε) (dominators : Flow.Dominators := Flow.dominatorsByRemoval) : CachedGraph β ε :=
  { c with cache := some (c.loopHeaders dominators) }

/-- Asks whether a block is a loop header. -/
def isLoopHeader (c : CachedGraph β ε) (b : Block) (dominators : Flow.Dominators := Flow.dominatorsByRemoval) :
    Bool × CachedGraph β ε := ((c.loopHeaders dominators).getD b false, c.filled dominators)

/-- The graph as an analysis sees it. -/
def control (c : CachedGraph β ε) (dominators : Flow.Dominators := Flow.dominatorsByRemoval) : ControlFlow :=
  let headers := Thunk.mk fun _ => c.loopHeaders dominators
  { c.graph.control dominators with isLoopHeader := fun b => headers.get.getD b false }

end CachedGraph

end PathInvariants
