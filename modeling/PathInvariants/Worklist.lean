/-!
# Worklists

Nodes waiting to be computed, each with the label of its component. Lower labels come first, and
among equal labels higher nodes.
-/

namespace PathInvariants

structure Worklist where
  /-- The waiting nodes with their labels, in the order they are taken. -/
  queue : List (Nat × Nat)
deriving DecidableEq, Repr

namespace Worklist

def empty : Worklist := ⟨[]⟩

def isEmpty (w : Worklist) : Bool := w.queue.isEmpty

def size (w : Worklist) : Nat := w.queue.length

def nodes (w : Worklist) : List Nat := w.queue.map (·.1)

/-- Whether `a` is taken before `b`. -/
def before (a b : Nat × Nat) : Bool := a.2 < b.2 || (a.2 == b.2 && b.1 < a.1)

def insert (a : Nat × Nat) : List (Nat × Nat) → List (Nat × Nat)
  | [] => [a]
  | b :: queue => if before a b then a :: b :: queue else if a = b then b :: queue else b :: insert a queue

def push (w : Worklist) (node label : Nat) : Worklist := ⟨insert (node, label) w.queue⟩

def pop? (w : Worklist) : Option (Nat × Worklist) :=
  match w.queue with
  | [] => none
  | a :: queue => some (a.1, ⟨queue⟩)

end Worklist

end PathInvariants
