import PathInvariants.Oracle

/-!
# Scripted oracles

An oracle that answers from a list. Each push moves on to the next entry; past the end every query
is answered that there is no path.
-/

namespace PathInvariants

structure ScriptEntry where
  answer : Except Failure OracleAnswer
  /-- How the pop after the query fails, if it does. -/
  popFailure : Option Failure

structure ScriptOracle where
  current : Option ScriptEntry
  upcoming : List ScriptEntry

namespace ScriptOracle

def new (entries : List ScriptEntry) : ScriptOracle := ⟨none, entries⟩

instance : PathOracle ScriptOracle where
  push o := ⟨o.upcoming.head?, o.upcoming.tail⟩
  pop o := ((o.current.bind (·.popFailure)).elim (.ok ()) .error, o)
  query _ _ o := (o.current.elim (.ok .unsat) (·.answer), o)

end ScriptOracle

end PathInvariants
