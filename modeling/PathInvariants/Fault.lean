import PathInvariants.Sparse

/-!
# Faults

Misuse of an operation by its caller. A fault ends the computation it arises in, as opposed to an
analysis failure, which ends one analysis only.
-/

namespace PathInvariants

inductive Fault where
  | trackedAsReal (s : Symbol)
  | trackedAsInt (s : Symbol)
  | divisionByZero
  | zeroDivisor
  | notInvertible (s : Symbol)
  | indexOutOfRange (length index : Nat)
deriving DecidableEq, Repr

def Fault.message : Fault → String
  | .trackedAsReal s => s!"{s} is already tracked as a real"
  | .trackedAsInt s => s!"{s} is already tracked as an int"
  | .divisionByZero => "division of an interval by zero"
  | .zeroDivisor => "attempt to divide by zero"
  | .notInvertible s => s!"assignment to {s} is not invertible"
  | .indexOutOfRange length index =>
    s!"index out of bounds: the len is {length} but the index is {index}"

end PathInvariants
