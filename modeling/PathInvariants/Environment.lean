import PathInvariants.Fault

/-!
# Environments

The variables an abstract value speaks about, each with one numeric kind.
-/

namespace PathInvariants

inductive NumericKind where
  | int
  | real
deriving DecidableEq, Repr

/-- The kind a client gives a symbol, `none` for what no numeric domain represents. -/
abbrev VariableKind := Option NumericKind

abbrev Environment := Sparse (none : Option NumericKind)

namespace Environment

def empty : Environment := Sparse.const none

def kindOf (env : Environment) (s : Symbol) : Option NumericKind := env.get s

def contains (env : Environment) (s : Symbol) : Bool := (env.get s).isSome

/-- All variables in symbol order. -/
def symbols (env : Environment) : List Symbol := env.support

def ints (env : Environment) : List Symbol := env.support.filter fun s => env.get s == some .int

def reals (env : Environment) : List Symbol := env.support.filter fun s => env.get s == some .real

def isEmpty (env : Environment) : Bool := env.entries.isEmpty

/-- Tracks `s` with the given kind, which must not contradict the one it has. Untracked symbols
are skipped. -/
def add (env : Environment) (s : Symbol) : VariableKind → Except Fault Environment
  | none => .ok env
  | some .int => if env.get s = some .real then .error (.trackedAsReal s) else .ok (env.set s (some .int))
  | some .real => if env.get s = some .int then .error (.trackedAsInt s) else .ok (env.set s (some .real))

/-- Tracks as integers those of the symbols that have no kind yet. -/
def track (env : Environment) (symbols : List Symbol) : Environment :=
  symbols.foldl (fun e s => if e.contains s then e else Sparse.set e s (some .int)) env

def ofInts (symbols : List Symbol) : Environment := track empty symbols

def remove (env : Environment) (s : Symbol) : Environment := Sparse.erase env s

/-- Every variable of `env` has the same kind in `env'`. -/
def isSubset (env env' : Environment) : Bool := env.support.all fun s => env.get s == env'.get s

/-- The least common environment. A symbol with two kinds is a fault; the integers of `env'` are
looked at before its reals. -/
def union (env env' : Environment) : Except Fault Environment := do
  let withInts ← env'.ints.foldlM (fun e s => add e s (some .int)) env
  env'.reals.foldlM (fun e s => add e s (some .real)) withInts

def render (env : Environment) : String := "[" ++ ", ".intercalate env.symbols ++ "]"

end Environment

end PathInvariants
