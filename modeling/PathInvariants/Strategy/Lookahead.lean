import PathInvariants.Strategy.Basic

/-!
# Lookahead widening

Every slot carries a main value and a pilot, as its first two disjuncts. Only edges that the main
value can take are followed. At widening points the pilot is widened while the main value
accumulates by join; a pilot that has stopped growing is promoted to main. Branches that the main
value has not reached cannot blur the widening of a loop.
-/

namespace PathInvariants.Lookahead

open Analysis

variable {Ω : Type}

def mainIndex : Nat := 0

def pilotIndex : Nat := 1

/-- A main value with its pilot. -/
structure Pair where
  main : Value
  pilot : Value

def pairAt (su : Setup) (n : Nat) : Analysis Ω Unit Pair := do
  return ⟨← disjunct su n .stable mainIndex, ← disjunct su n .stable pilotIndex⟩

/-- The pair that follows `old` when the images `new` come in. -/
def nextPair (su : Setup) (succ : Nat) (old new : Pair) : Analysis Ω Unit Pair := do
  if ← isWidening succ then
    if !old.pilot.isBottom && new.pilot.leq old.pilot then return ⟨old.pilot, old.pilot⟩
    else
      let main ← ofFault (old.main.join new.main)
      return ⟨main, ← widen su old.pilot new.pilot⟩
  else return ⟨← ofFault (old.main.join new.main), ← ofFault (old.pilot.join new.pilot)⟩

def storePair (su : Setup) (succ : Nat) (old next : Pair) : Analysis Ω Unit Unit := do
  if old.main.isBottom then setValue su succ .initial next.main
  setDisjunct su succ .stable mainIndex next.main
  setDisjunct su succ .stable pilotIndex next.pilot
  push succ
  setComputed succ false

def ascendPair (su : Setup) (n : Nat) (start : Pair) (succ : Nat) : Analysis Ω Unit Unit := do
  modifyStats fun s => { s with ascendingSteps := s.ascendingSteps + 1 }
  let main ← transformEdge su n succ start.main
  unless main.isBottom do
    let pilot ← transformEdge su n succ start.pilot
    let old ← pairAt su succ
    let next ← nextPair su succ old ⟨main, pilot⟩
    let next : Pair := ⟨← meetKnown su succ next.main, ← meetKnown su succ next.pilot⟩
    unless next.main.leq old.main && next.pilot.leq old.pilot do storePair su succ old next

def computeNode (su : Setup) (n : Nat) : Analysis Ω Unit Unit := do
  setComputed n true
  let start ← pairAt su n
  unless start.main.isBottom do ((← arena).successors n).forM (ascendPair su n start)

def narrowNode (su : Setup) (n : Nat) : Analysis Ω Unit Unit := do
  setComputed n true
  let main ← disjunct su n .stable mainIndex
  ((← arena).successors n).forM (descendEdge su n main)

def computeFunction (su : Setup) : Analysis Ω Unit Unit := do
  setDisjunct su 0 .stable pilotIndex (← top su 0)
  let rounds := su.options.roundsFor .lookahead
  ascend su (computeNode su) true
  descendRounds su (narrowNode su) rounds
  if su.options.seeded then restartFromSeeds su (computeNode su) (narrowNode su) rounds

def strategy : Strategy Ω Unit := ⟨(), computeFunction, computeNode, narrowNode, fun _ => false⟩

end PathInvariants.Lookahead
