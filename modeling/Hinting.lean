import Hinting.Analysis
import Hinting.Block
import Hinting.Body
import Hinting.BuildError
import Hinting.CallGraph
import Hinting.CallStack
import Hinting.Environment
import Hinting.Fault
import Hinting.FixedPoint
import Hinting.Flow
import Hinting.Font
import Hinting.FunctionTable
import Hinting.Graphics
import Hinting.Label
import Hinting.Listing
import Hinting.Log
import Hinting.Mnemonic
import Hinting.Proofs.Action
import Hinting.Proofs.AnalysisRuns
import Hinting.Proofs.AnalysisSimulation
import Hinting.Proofs.Arms
import Hinting.Proofs.BlockReading
import Hinting.Proofs.BranchPolicies
import Hinting.Proofs.Branches
import Hinting.Proofs.CallCounting
import Hinting.Proofs.CallDiscipline
import Hinting.Proofs.Canonical
import Hinting.Proofs.CountedCalls
import Hinting.Proofs.Coverage
import Hinting.Proofs.Decoding
import Hinting.Proofs.DispatchOrder
import Hinting.Proofs.Extraction
import Hinting.Proofs.FaultLocation
import Hinting.Proofs.FlowGraph
import Hinting.Proofs.FlowShape
import Hinting.Proofs.FontProgram
import Hinting.Proofs.Frame
import Hinting.Proofs.GlyphOrder
import Hinting.Proofs.Grammar
import Hinting.Proofs.IndexedTable
import Hinting.Proofs.Limits
import Hinting.Proofs.Linker
import Hinting.Proofs.Linking
import Hinting.Proofs.ListingText
import Hinting.Proofs.Loading
import Hinting.Proofs.Lookup
import Hinting.Proofs.Nesting
import Hinting.Proofs.Numerals
import Hinting.Proofs.PathSearch
import Hinting.Proofs.PeakDepth
import Hinting.Proofs.Precision
import Hinting.Proofs.PrecisionRun
import Hinting.Proofs.PrecisionStep
import Hinting.Proofs.ProjectionVectors
import Hinting.Proofs.Reachability
import Hinting.Proofs.ReachedEnvironments
import Hinting.Proofs.Rebuilding
import Hinting.Proofs.ReductionAlgebra
import Hinting.Proofs.ReductionSafety
import Hinting.Proofs.Regions
import Hinting.Proofs.RegisterRanges
import Hinting.Proofs.Rereading
import Hinting.Proofs.RoundTrip
import Hinting.Proofs.RunSimulation
import Hinting.Proofs.RunStep
import Hinting.Proofs.StableText
import Hinting.Proofs.StackDepth
import Hinting.Proofs.StatementBound
import Hinting.Proofs.StatementEffects
import Hinting.Proofs.StatementFaults
import Hinting.Proofs.StatementShape
import Hinting.Proofs.Walker
import Hinting.Proofs.WalkerAgreement
import Hinting.Proofs.WalkerReuse
import Hinting.Proofs.WordCutting
import Hinting.Proofs.Words
import Hinting.Proofs.WriteHistory
import Hinting.Reduction
import Hinting.Run
import Hinting.Semantics.Arithmetic
import Hinting.Semantics.Dispatch
import Hinting.Semantics.EnvAction
import Hinting.Semantics.Points
import Hinting.Semantics.Registers
import Hinting.SortedMap
import Hinting.Statement
import Hinting.Text.Blank
import Hinting.Text.Concealed
import Hinting.Text.Numeral
import Hinting.Text.Quoted
import Hinting.Token
import Hinting.Trace
import Hinting.Value
import Hinting.ValueStack
import Hinting.Proofs.WordArithmetic
import Hinting.Proofs.RoundingModes
import Hinting.Proofs.FixedPointQuotients
import Hinting.Proofs.StackRotations
