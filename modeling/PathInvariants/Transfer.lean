import PathInvariants.Path
import PathInvariants.Value

/-!
# Transfer functions

What blocks and edges do to an abstract value, as the client of an analysis gives it.
-/

namespace PathInvariants

structure Transfer where
  kindOf : Symbol → VariableKind
  /-- The variables that must be tracked at the start of a block. -/
  liveVariables : Block → List Symbol
  /-- From the start of a block to its end. -/
  block : Block → Value → Value
  /-- From the end of a block along an edge out of it. -/
  edge : Block → Block → Value → Value
  /-- The guards of an edge, at which widening may stop. -/
  thresholds : Block → Block → List LinearConstraint

namespace Transfer

/-- Applies a path: the body of each block but the last, then the edge out of it. -/
def along (t : Transfer) (p : Path) (v : Value) : Value :=
  p.steps.foldl (fun v s => t.edge s.1 s.2 (t.block s.1 v)) v

/-- Adds the constraints that are not listed yet, in order. -/
def addNew (listed new : List LinearConstraint) : List LinearConstraint :=
  new.foldl (fun cs c => if cs.contains c then cs else cs ++ [c]) listed

/-- The listed thresholds together with the guards met along a path. -/
def thresholdsAlong (t : Transfer) (p : Path) (listed : List LinearConstraint) : List LinearConstraint :=
  p.steps.foldl (fun cs s => addNew cs (t.thresholds s.1 s.2)) listed

end Transfer

end PathInvariants
