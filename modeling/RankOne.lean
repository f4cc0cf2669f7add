import RankOne.CoeffId
import RankOne.CoeffTable
import RankOne.Config
import RankOne.Constraint
import RankOne.Cursor
import RankOne.Cursor.Session
import RankOne.Event
import RankOne.Fault
import RankOne.Hint
import RankOne.HintRegistry
import RankOne.Interner
import RankOne.Layout
import RankOne.LinearExpression
import RankOne.Proofs.AppendLog
import RankOne.Proofs.Chains
import RankOne.Proofs.Coverage
import RankOne.Proofs.CoveredHints
import RankOne.Proofs.Declarations
import RankOne.Proofs.Dependencies
import RankOne.Proofs.EarlyHints
import RankOne.Proofs.Evaluation
import RankOne.Proofs.Freedom
import RankOne.Proofs.Gathering
import RankOne.Proofs.Growth
import RankOne.Proofs.History
import RankOne.Proofs.Interning
import RankOne.Proofs.LeveledAppends
import RankOne.Proofs.LevelingOutcome
import RankOne.Proofs.Linearity
import RankOne.Proofs.Machine.Agreement
import RankOne.Proofs.Machine.Basic
import RankOne.Proofs.Partition
import RankOne.Proofs.Persistence
import RankOne.Proofs.Producers
import RankOne.Proofs.RearrangedVerdicts
import RankOne.Proofs.Rearrangement
import RankOne.Proofs.RefusedHints
import RankOne.Proofs.RefusedLevelings
import RankOne.Proofs.Registry
import RankOne.Proofs.Rejection
import RankOne.Proofs.Reordering
import RankOne.Proofs.ResidueField
import RankOne.Proofs.Satisfaction
import RankOne.Proofs.SolvedHints
import RankOne.Proofs.Storage
import RankOne.Proofs.Turns
import RankOne.Proofs.UndeclaredWires
import RankOne.Proofs.UniqueReading
import RankOne.Proofs.Walks
import RankOne.Proofs.ZeroTerms
import RankOne.Provenance
import RankOne.Rendering
import RankOne.Scalar.Quadratic
import RankOne.Scalar.Residue
import RankOne.Schedule
import RankOne.System
import RankOne.System.Call
import RankOne.System.Coverage
import RankOne.System.Leveling
import RankOne.System.Sweep
import RankOne.System.Witness
import RankOne.Text.NonspacingMark
import RankOne.Text.Quoted
import RankOne.Text.Unprintable
import RankOne.Wire
import RankOne.WireMap
