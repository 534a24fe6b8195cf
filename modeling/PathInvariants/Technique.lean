import PathInvariants.Domain

/-!
# Techniques

The five ways to choose what an iteration computes next, and the key that names an analysis run.
-/

namespace PathInvariants

inductive Technique where
  | classic
  | lookahead
  | guided
  | focusing
  | disjunctive
deriving DecidableEq, Repr

def Technique.render : Technique → String
  | .classic => "classic"
  | .lookahead => "lookahead-widening"
  | .guided => "guided"
  | .focusing => "path-focusing"
  | .disjunctive => "path-focusing-disjunctive"

/-- Names one run, so that several of them can keep their results side by side. -/
structure Key where
  technique : Technique
  domain : Domain
  /-- Whether the run restarts from widening seeds. -/
  seeded : Bool
  /-- Whether widening stops at guards. -/
  thresholds : Bool
deriving DecidableEq, Repr

def Key.render (k : Key) : String :=
  k.technique.render ++ "/" ++ k.domain.render ++ (if k.seeded then "+seeds" else "") ++
    (if k.thresholds then "+thresholds" else "")

end PathInvariants
