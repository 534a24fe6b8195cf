import PathInvariants.Disjunction
import PathInvariants.Path

/-!
# Placement of contributions

Which disjunct of its destination a path's contribution is merged into. A path and starting disjunct
keep the place they were first given. A new pair goes to the first disjunct that it joins exactly,
then to a fresh one, and once the limit is reached to the last one; the last case may lose precision
and is recorded.
-/

namespace PathInvariants

structure Placement where
  /-- The largest number of disjuncts, at least one. -/
  limit : Nat
  assigned : List ((Path × Nat) × Nat)
  degraded : Bool
deriving DecidableEq, Repr

namespace Placement

def new (limit : Nat) : Placement := ⟨if limit = 0 then 1 else limit, [], false⟩

def clear (p : Placement) : Placement := { p with assigned := [], degraded := false }

def size (p : Placement) : Nat := p.assigned.length

/-- The first disjunct below the limit that a contribution joins exactly. -/
def exactFit? (p : Placement) (contribution : Value) (target : Disjunction) : Option Nat :=
  ((List.range target.size).take p.limit).find? fun i => (target.get i).joinsExactly contribution

/-- The place of a contribution along `path` from the disjunct `start`. -/
def assign (p : Placement) (path : Path) (start : Nat) (contribution : Value) (target : Disjunction) :
    Nat × Placement :=
  match p.assigned.lookup (path, start) with
  | some index => (index, p)
  | none =>
    let record (index : Nat) (degraded : Bool) : Nat × Placement :=
      (index, { p with assigned := ((path, start), index) :: p.assigned, degraded })
    match p.exactFit? contribution target with
    | some index => record index p.degraded
    | none => if target.size < p.limit then record target.size p.degraded else record (p.limit - 1) true

/-- Places a contribution and joins it into its disjunct of the target. -/
def merge (p : Placement) (path : Path) (start : Nat) (contribution : Value) (target : Disjunction) :
    Nat × Placement × Disjunction :=
  let (index, p) := p.assign path start contribution target
  (index, p, target.joinOver contribution.env [contribution] index)

end Placement

end PathInvariants
