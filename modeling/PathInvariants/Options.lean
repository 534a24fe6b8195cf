import PathInvariants.Technique

/-!
# Options

The settings of one analysis run.
-/

namespace PathInvariants

structure Options where
  technique : Technique
  domain : Domain := .intervalEqualities
  seeded : Bool := false
  thresholds : Bool := false
  /-- The budget for one function in milliseconds, if there is one. -/
  timeout : Option Nat := some 3000
  maxDisjuncts : Nat := 5
  /-- The number of further narrowing rounds, in place of the technique's own. -/
  rounds : Option Nat := none
  /-- A run on the same function whose invariants are intersected into this one. -/
  known : Option Key := none
deriving DecidableEq, Repr

namespace Options

def key (o : Options) : Key := ⟨o.technique, o.domain, o.seeded, o.thresholds⟩

/-- Bounds the number of disjuncts; there is always at least one. -/
def withMaxDisjuncts (o : Options) (n : Nat) : Options := { o with maxDisjuncts := if n = 0 then 1 else n }

/-- The narrowing rounds after the first one. -/
def roundsFor (o : Options) (t : Technique) : Nat :=
  o.rounds.getD (match t with
    | .classic | .lookahead | .guided => 5
    | .focusing => 1
    | .disjunctive => 0)

/-- Whether the budget is used up after the given time. -/
def isExpired (o : Options) (elapsed : Nat) : Bool := o.timeout.any fun limit => decide (limit ≤ elapsed)

end Options

end PathInvariants
