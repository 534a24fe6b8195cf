import PathInvariants.Flow.Cache
import PathInvariants.Interval.Membership
import PathInvariants.Oracle.Script
import PathInvariants.Program
import PathInvariants.Proofs.AnalysisRuns
import PathInvariants.Proofs.ArenaBlocks
import PathInvariants.Proofs.CanonicalEqualities
import PathInvariants.Proofs.ClassicSoundness
import PathInvariants.Proofs.ClassicTermination
import PathInvariants.Proofs.CutPaths
import PathInvariants.Proofs.DisjunctiveSoundness
import PathInvariants.Proofs.DisjunctiveSteps
import PathInvariants.Proofs.DomainSoundness
import PathInvariants.Proofs.EndlessPasses
import PathInvariants.Proofs.EngineTermination
import PathInvariants.Proofs.EqualityRank
import PathInvariants.Proofs.Executions
import PathInvariants.Proofs.FocusingSoundness
import PathInvariants.Proofs.FocusingSteps
import PathInvariants.Proofs.FocusingTermination
import PathInvariants.Proofs.GuidedSoundness
import PathInvariants.Proofs.KnownProperties
import PathInvariants.Proofs.LookaheadSoundness
import PathInvariants.Proofs.Narrowing
import PathInvariants.Proofs.OracleQueries
import PathInvariants.Proofs.Outcomes
import PathInvariants.Proofs.PassTermination
import PathInvariants.Proofs.Preparation
import PathInvariants.Proofs.ReducedRows
import PathInvariants.Proofs.SymbolRanges
import PathInvariants.Proofs.TotalRuns
import PathInvariants.Proofs.UnboundSymbols
import PathInvariants.Proofs.ValueLattice
import PathInvariants.Proofs.ValueOrder
import PathInvariants.Proofs.WideningChains
import PathInvariants.Proofs.WideningHeight
import PathInvariants.Report
import PathInvariants.Proofs.PairedRuns
import PathInvariants.Proofs.Disciplines
import PathInvariants.Proofs.AffineHulls
import PathInvariants.Proofs.RowSpans
import PathInvariants.Proofs.CheckedRows
import PathInvariants.Proofs.CheckedValues
import PathInvariants.Proofs.DisjunctBounds
import PathInvariants.Proofs.FurnishedContexts
import PathInvariants.Proofs.InternalErrors
import PathInvariants.Proofs.NonInterference
import PathInvariants.Proofs.AffineTransfer
import PathInvariants.Proofs.Entailment
import PathInvariants.Proofs.ExactPlacement
import PathInvariants.Proofs.ConstraintExport
import PathInvariants.Proofs.ThresholdWidening
import PathInvariants.Proofs.DescendingPasses
import PathInvariants.Proofs.AscendingSteps
import PathInvariants.Proofs.ComponentLabels
import PathInvariants.Proofs.ComponentSearch
import PathInvariants.Proofs.PathListing
import PathInvariants.Proofs.FlowEquations
import PathInvariants.Proofs.ReachableBlocks
import PathInvariants.Proofs.Dominators
import PathInvariants.Proofs.EdgeTables
import PathInvariants.Proofs.LoopHeaders
import PathInvariants.Proofs.BoxLattice
import PathInvariants.Proofs.BoxOperations
import PathInvariants.Proofs.ValueRepresentation
import PathInvariants.Proofs.LinearForms
import PathInvariants.Proofs.ExactPropagation
