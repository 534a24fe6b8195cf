import PathInvariants.Oracle.Search
import PathInvariants.Strategy.Classic
import PathInvariants.Strategy.Disjunctive
import PathInvariants.Strategy.Focusing
import PathInvariants.Strategy.Guided
import PathInvariants.Strategy.Lookahead

/-!
# Analyses and their reports

A function whose analysis runs out of time, or whose oracle cannot decide a query, is reported as
unknown and its invariants are discarded. Any other failure ends the analysis of the whole module.
-/

namespace PathInvariants

/-- The final invariant of a block. -/
structure NodeInvariant where
  block : Block
  /-- The disjuncts with some state; at most one for techniques without unions. -/
  disjuncts : List Value
  isCut : Bool
deriving DecidableEq

namespace NodeInvariant

/-- Whether the block is found unreachable. -/
def isBottom (i : NodeInvariant) : Bool := i.disjuncts.isEmpty

/-- The join of the disjuncts, none for an unreachable block. -/
def hull? (i : NodeInvariant) : Except Fault (Option Value) := do
  match i.disjuncts with
  | [] => return none
  | v :: vs => return some (← Disjunction.hull ⟨v, vs⟩)

end NodeInvariant

/-- The verdict on an error site, which is proved when it is unreachable. -/
structure SiteReport where
  block : Block
  role : BlockRole
  isProved : Bool
deriving DecidableEq, Repr

inductive Status where
  | completed
  /-- Abandoned for a recoverable failure. -/
  | unknown (cause : Failure)
deriving DecidableEq, Repr

structure Outcome where
  name : String
  key : Key
  status : Status
  invariants : List NodeInvariant
  sites : List SiteReport
  stats : Stats
  isDegraded : Bool
deriving DecidableEq

namespace Outcome

def isCompleted (o : Outcome) : Bool := o.status == .completed

def invariant? (o : Outcome) (b : Block) : Option NodeInvariant := o.invariants.find? fun i => i.block == b

/-- The join of the disjuncts of a block, none when it is unreachable or was not analyzed. -/
def hull? (o : Outcome) (b : Block) : Except Fault (Option Value) :=
  match o.invariant? b with
  | some i => i.hull?
  | none => return none

end Outcome

/-- Runs the technique that the options ask for, with a fresh memory. -/
def runTechnique {Ω : Type} [PathOracle Ω] (su : Setup) (e : Engine Ω) : Except Failure Bool × Engine Ω :=
  match su.options.technique with
  | .classic => Classic.strategy.runFresh su e
  | .lookahead => Lookahead.strategy.runFresh su e
  | .guided => Guided.strategy.runFresh su e
  | .focusing => Focusing.strategy.runFresh su e
  | .disjunctive => (Disjunctive.strategy su.options.maxDisjuncts).runFresh su e

namespace Context

/-- The invariant of a node under a run. -/
def invariantAt (c : Context) (key : Key) (n : Nat) : Except Violation NodeInvariant := do
  let stable := (← c.slots n key).stable
  let disjuncts := if key.technique = .disjunctive then stable.toList else [stable.first]
  return ⟨← c.block n, disjuncts.filter fun v => !v.isBottom, c.arena.cuts.isCut n⟩

def invariants (c : Context) (key : Key) : Except Violation (List NodeInvariant) :=
  (List.range c.size).mapM (c.invariantAt key)

/-- The verdicts on the error sites, given the invariants of all nodes. -/
def sites (c : Context) (invariants : List NodeInvariant) : List SiteReport :=
  invariants.zipIdx.filterMap fun i =>
    let role := c.arena.cuts.role i.2
    if role.isErrorSite then some ⟨i.1.block, role, i.1.isBottom⟩ else none

end Context

/-- Analyzes a function with the given oracle. The context keeps the slots of the run, also of a
failed one. -/
def analyzeWith {Ω : Type} [PathOracle Ω] (su : Setup) (name : String) (oracle : Ω) (context : Context) :
    Except Failure Outcome × Context :=
  let (result, e) := runTechnique su (.new su.options context oracle)
  let outcome (status : Status) (invariants : List NodeInvariant) (isDegraded : Bool) : Outcome :=
    { name, key := su.key, status, invariants, sites := e.context.sites invariants, stats := e.stats, isDegraded }
  match result with
  | .error f => (if f.isRecoverable then .ok (outcome (.unknown f) [] false) else .error f, e.context)
  | .ok isDegraded =>
    match e.context.invariants su.key with
    | .error v => (.error (.violation v), e.context)
    | .ok invariants => (.ok (outcome .completed invariants isDegraded), e.context)

/-- Analyzes a function with the searching oracle. -/
def analyze (su : Setup) (name : String) (context : Context) : Except Failure Outcome × Context :=
  analyzeWith su name (SearchOracle.new su.graph su.transfer) context

/-- One function of a module. -/
structure FunctionUnit where
  name : String
  graph : ControlFlow
  transfer : Transfer

structure Report where
  outcomes : List Outcome
deriving DecidableEq

namespace Report

/-- The names of the functions given up, ascending. -/
def ignored (r : Report) : List String :=
  Symbol.sort ((r.outcomes.filter fun o => !o.isCompleted).map (·.name))

def isIgnored (r : Report) (name : String) : Bool := r.ignored.contains name

def outcome? (r : Report) (name : String) : Option Outcome := r.outcomes.find? fun o => o.name == name

end Report

/-- Analyzes the functions of a module in order, each in a context of its own. -/
def analyzeModule (options : Options) (resources : Resources) (units : List FunctionUnit) : Except Failure Report :=
  return ⟨← units.mapM fun u => (analyze ⟨u.graph, u.transfer, options, resources⟩ u.name (.build u.graph)).1⟩

end PathInvariants
