/-!
# Paths

Sequences of blocks, and the sets of paths that an exploration keeps: a committed set, and a pending
one that a round fills and then commits.
-/

namespace PathInvariants

/-- The number of a block of a control-flow graph. -/
abbrev Block := Nat

structure Path where
  blocks : List Block
deriving DecidableEq, Repr

namespace Path

def edge (a b : Block) : Path := ⟨[a, b]⟩

def length (p : Path) : Nat := p.blocks.length

def isEmpty (p : Path) : Bool := p.blocks.isEmpty

def source? (p : Path) : Option Block := p.blocks.head?

def destination? (p : Path) : Option Block := p.blocks.getLast?

/-- The pairs of consecutive blocks. -/
def steps (p : Path) : List (Block × Block) := p.blocks.zip p.blocks.tail

/-- Whether the path leads from a block back to itself. -/
def isCycle (p : Path) : Bool := 1 < p.length && p.source? == p.destination?

def map (f : Block → Block) (p : Path) : Path := ⟨p.blocks.map f⟩

def render (block : Block → String) (p : Path) : String := " -> ".intercalate (p.blocks.map block)

end Path

/-- Committed and pending paths, each listed once. -/
structure PathSet where
  committed : List Path
  pending : List Path
deriving DecidableEq, Repr

namespace PathSet

def empty : PathSet := ⟨[], []⟩

def has (paths : PathSet) (p : Path) : Bool := paths.committed.contains p

def hasPending (paths : PathSet) (p : Path) : Bool := paths.pending.contains p

def insert (paths : PathSet) (p : Path) : PathSet :=
  if paths.has p then paths else { paths with committed := p :: paths.committed }

def insertPending (paths : PathSet) (p : Path) : PathSet :=
  if paths.hasPending p then paths else { paths with pending := p :: paths.pending }

def remove (paths : PathSet) (p : Path) : PathSet :=
  { paths with committed := paths.committed.filter (· != p) }

def removePending (paths : PathSet) (p : Path) : PathSet :=
  { paths with pending := paths.pending.filter (· != p) }

def clear (paths : PathSet) : PathSet := { paths with committed := [] }

def clearPending (paths : PathSet) : PathSet := { paths with pending := [] }

/-- Commits the pending paths. -/
def commit (paths : PathSet) : PathSet := (paths.pending.foldl insert paths).clearPending

end PathSet

/-- Which paths a query may answer with, by membership in a committed set. -/
inductive PathFilter where
  | any
  | within (paths : PathSet)
  | notWithin (paths : PathSet)
deriving DecidableEq, Repr

def PathFilter.admits : PathFilter → Path → Bool
  | any, _ => true
  | within paths, p => paths.has p
  | notWithin paths, p => !paths.has p

end PathInvariants
