import PathInvariants.Disjunction
import PathInvariants.Failure
import PathInvariants.Node

/-!
# Path oracles

An oracle is asked for a feasible path from a block to another cut point whose image the invariant
there does not cover yet. Ascending queries compare with the stable slot and descending ones with
the descending slot; the source is always the stable slot of the start. Queries stand between a push
and a pop.
-/

namespace PathInvariants

structure PathQuery where
  start : Block
  descending : Bool
  filter : PathFilter
deriving DecidableEq, Repr

inductive OracleAnswer where
  /-- Every admitted path is covered. -/
  | unsat
  /-- A path, and the disjunct of the start that it departs from. -/
  | sat (path : Path) (disjunct : Nat)
  | unknown
deriving DecidableEq, Repr

/-- The invariants of a run, as an oracle sees them. -/
structure StateView where
  disjuncts : Block → Slot → List Value
  isCut : Block → Bool
  environment : Block → Option Environment

/-- Oracles with a state of type `Ω`, which a failed operation leaves behind too. -/
class PathOracle (Ω : Type) where
  push : Ω → Ω
  pop : Ω → Except Failure Unit × Ω
  query : PathQuery → StateView → Ω → Except Failure OracleAnswer × Ω

end PathInvariants
