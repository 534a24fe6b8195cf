/-!
# Numeric domains

The two families of abstract values: boxes of ranges alone, and boxes reduced with affine
equalities.
-/

namespace PathInvariants

inductive Domain where
  | intervals
  | intervalEqualities
deriving DecidableEq, Repr

def Domain.render : Domain → String
  | .intervals => "Interval"
  | .intervalEqualities => "IntervalEqualities"

end PathInvariants
