import PathInvariants.Flow.Control
import PathInvariants.Flow.Search

/-!
# Flow graphs

Control-flow graphs built block by block and edge by edge, with a payload on each. Blocks are
numbered in the order they are added and the entry is block zero. A loop header is the target of an
edge whose reachable source it dominates; how dominators are found is left to a parameter.
-/

namespace PathInvariants

structure FlowGraph (β ε : Type) where
  payloads : List β
  roles : List (Block × BlockRole)
  edges : List (Block × Block × ε)
deriving DecidableEq, Repr

namespace FlowGraph

variable {β ε : Type}

def new (entry : β) : FlowGraph β ε := ⟨[entry], [], []⟩

def entry (_ : FlowGraph β ε) : Block := 0

def size (g : FlowGraph β ε) : Nat := g.payloads.length

def payload? (g : FlowGraph β ε) (b : Block) : Option β := g.payloads[b]?

/-- Adds a block, whose number is the former size. -/
def addBlock (g : FlowGraph β ε) (payload : β) : FlowGraph β ε := { g with payloads := g.payloads ++ [payload] }

def setPayload (g : FlowGraph β ε) (b : Block) (payload : β) : FlowGraph β ε :=
  { g with payloads := g.payloads.set b payload }

def addEdge (g : FlowGraph β ε) (a b : Block) (payload : ε) : FlowGraph β ε :=
  { g with edges := g.edges ++ [(a, b, payload)] }

def setRole (g : FlowGraph β ε) (b : Block) (role : BlockRole) : FlowGraph β ε :=
  { g with roles := (b, role) :: g.roles }

/-- The edges out of each block, the latest first. -/
def outgoing (g : FlowGraph β ε) : Array (List (Block × ε)) :=
  g.edges.foldl (fun out e => out.modify e.1 (e.2 :: ·)) (Array.replicate g.size [])

/-- The payload of the latest edge from `a` to `b`. -/
def edge? (g : FlowGraph β ε) (a b : Block) : Option ε := (g.outgoing.getD a []).lookup b

/-- The targets of the edges out of each block, in the order of the edges, each once. -/
def successorTable (g : FlowGraph β ε) : Array (List Block) :=
  g.outgoing.map fun edges => (edges.map (·.1)).reverse.eraseDups

def successors (g : FlowGraph β ε) (b : Block) : List Block := g.successorTable.getD b []

/-- The sources of the edges into `b`, in the order of the edges, each once. -/
def predecessors (g : FlowGraph β ε) (b : Block) : List Block :=
  (g.edges.filterMap fun e => if e.2.1 = b then some e.1 else none).eraseDups

/-- The role of a block with the given successors. One without a role of its own leaves the function
when no edge leads out of it. -/
def roleWith (g : FlowGraph β ε) (successors : List Block) (b : Block) : BlockRole :=
  (g.roles.lookup b).getD (if successors.isEmpty then .exit else .plain)

def role (g : FlowGraph β ε) (b : Block) : BlockRole := g.roleWith (g.successors b) b

/-- Marks the target of an edge if it is among the dominators of the source. -/
def markHeader (dominators : Array (Option (List Block))) (headers : Array Bool) (e : Block × Block × ε) : Array Bool :=
  match dominators.getD e.1 none with
  | some dominating => if dominating.any (· == e.2.1) then headers.setIfInBounds e.2.1 true else headers
  | none => headers

/-- For each block, whether it is a loop header. -/
def loopHeaders (g : FlowGraph β ε) (dominators : Flow.Dominators := Flow.dominatorsByRemoval) : Array Bool :=
  let table := g.successorTable
  g.edges.foldl (markHeader (dominators (fun b => table.getD b []) g.size g.entry)) (Array.replicate g.size false)

/-- The graph as an analysis sees it. Successors and loop headers are found on first use. -/
def control (g : FlowGraph β ε) (dominators : Flow.Dominators := Flow.dominatorsByRemoval) : ControlFlow :=
  let table := Thunk.mk fun _ => g.successorTable
  let headers := Thunk.mk fun _ => g.loopHeaders dominators
  { size := g.size
    entry := g.entry
    successors := fun b => table.get.getD b []
    role := fun b => g.roleWith (table.get.getD b []) b
    isLoopHeader := fun b => headers.get.getD b false }

theorem foldl_outgoing (edges : List (Block × Block × ε)) (out : Array (List (Block × ε))) :
    (edges.foldl (fun out e => out.modify e.1 (e.2 :: ·)) out).size = out.size ∧
      ∀ a < out.size, (edges.foldl (fun out e => out.modify e.1 (e.2 :: ·)) out).getD a [] =
        (edges.filterMap fun e => if e.1 = a then some e.2 else none).reverse ++ out.getD a [] := by
  induction edges generalizing out with
  | nil => simp
  | cons e es ih =>
    obtain ⟨size, entries⟩ := ih (out.modify e.1 (e.2 :: ·))
    rw [Array.size_modify] at size entries
    refine ⟨size, fun a h => ?_⟩
    rw [List.foldl_cons, entries a h]
    by_cases he : e.1 = a
    · subst he
      simp [Array.getD_eq_getD_getElem?, Array.getElem_modify, h]
    · simp [Array.getD_eq_getD_getElem?, Array.getElem?_modify, he]

theorem size_outgoing (g : FlowGraph β ε) : g.outgoing.size = g.size := by
  rw [outgoing, (foldl_outgoing _ _).1, Array.size_replicate]

theorem getD_outgoing (g : FlowGraph β ε) {a : Block} (h : a < g.size) :
    g.outgoing.getD a [] = (g.edges.filterMap fun e => if e.1 = a then some e.2 else none).reverse := by
  rw [outgoing, (foldl_outgoing _ _).2 a (by simpa using h)]
  simp [Array.getD_eq_getD_getElem?, h]

/-- The successors of a block are the targets of its edges. -/
theorem successors_eq (g : FlowGraph β ε) {b : Block} (h : b < g.size) :
    g.successors b = (g.edges.filterMap fun e => if e.1 = b then some e.2.1 else none).eraseDups := by
  have hs : g.successors b = ((g.outgoing.getD b []).map (·.1)).reverse.eraseDups := by
    simp [successors, successorTable, Array.getD_eq_getD_getElem?, size_outgoing, h]
  rw [hs, getD_outgoing g h]
  congr 1
  rw [← List.map_reverse, List.reverse_reverse, List.map_filterMap]
  congr 1
  funext e
  split <;> rfl

theorem mem_successors (g : FlowGraph β ε) {a b : Block} (h : a < g.size) :
    b ∈ g.successors a ↔ ∃ e, (a, b, e) ∈ g.edges := by
  rw [successors_eq g h, List.mem_eraseDups, List.mem_filterMap]
  constructor
  · rintro ⟨⟨a', b', e⟩, he, eq⟩
    split at eq
    · rename_i ha
      cases eq
      exact ⟨e, ha ▸ he⟩
    · cases eq
  · rintro ⟨e, he⟩
    exact ⟨(a, b, e), he, by simp⟩

end FlowGraph

end PathInvariants
