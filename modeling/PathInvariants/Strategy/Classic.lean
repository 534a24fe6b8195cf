import PathInvariants.Strategy.Basic

/-!
# Classic iteration

Chaotic iteration over edges: a join into every successor and a widening at widening points.
-/

namespace PathInvariants.Classic

open Analysis

variable {Ω : Type}

def computeNode (su : Setup) (n : Nat) : Analysis Ω Unit Unit := do
  setComputed n true
  let start ← value su n .stable
  unless start.isBottom do
    ((← arena).successors n).forM fun succ => do
      let _ ← ascendEdge su n start succ

def narrowNode (su : Setup) (n : Nat) : Analysis Ω Unit Unit := do
  setComputed n true
  let start ← value su n .stable
  ((← arena).successors n).forM (descendEdge su n start)

def computeFunction (su : Setup) : Analysis Ω Unit Unit := do
  let rounds := su.options.roundsFor .classic
  ascend su (computeNode su) true
  descendRounds su (narrowNode su) rounds
  if su.options.seeded then restartFromSeeds su (computeNode su) (narrowNode su) rounds

def strategy : Strategy Ω Unit := ⟨(), computeFunction, computeNode, narrowNode, fun _ => false⟩

end PathInvariants.Classic
