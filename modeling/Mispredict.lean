import Mispredict.Main
import Mispredict.Proofs.Join
import Mispredict.Proofs.Step
import Mispredict.Proofs.Fixpoint
import Mispredict.Proofs.Leak
import Mispredict.Proofs.Stored
import Mispredict.Proofs.TraceShape
import Mispredict.Proofs.Built
import Mispredict.Proofs.Path
import Mispredict.Proofs.VisitOrder
import Mispredict.Proofs.Order
import Mispredict.Proofs.PathJoin
import Mispredict.Proofs.Moment
import Mispredict.Proofs.Move
import Mispredict.Proofs.Agreement
import Mispredict.Proofs.CommittedPart
import Mispredict.Proofs.CommittedRun
import Mispredict.Proofs.Rollback
import Mispredict.Proofs.Limits
import Mispredict.Proofs.Finite
import Mispredict.Proofs.Termination
import Mispredict.Proofs.Lexical
import Mispredict.Proofs.Grammar
import Mispredict.Proofs.SourceLine
import Mispredict.Proofs.Language
import Mispredict.Proofs.Rendering
import Mispredict.Proofs.RoundTrip
import Mispredict.Proofs.Window
import Mispredict.Proofs.ControlFlow
import Mispredict.Proofs.Unrolling
import Mispredict.Proofs.LightMoves
import Mispredict.Proofs.LightWindow
import Mispredict.Proofs.UnrolledMoves
import Mispredict.Proofs.Fence
import Mispredict.Proofs.Lockstep
import Mispredict.Proofs.Spread
import Mispredict.Proofs.Origin
import Mispredict.Proofs.Layers
import Mispredict.Proofs.Climb
import Mispredict.Proofs.Definite
import Mispredict.Proofs.Faithful
import Mispredict.Proofs.LightLayers
import Mispredict.Proofs.UnrolledLayers
import Mispredict.Proofs.Masking
import Mispredict.Proofs.Runs
import Mispredict.Proofs.LightRuns
import Mispredict.Proofs.UnrolledRuns
import Mispredict.Proofs.Verdicts
import Mispredict.Proofs.Layouts
import Mispredict.Proofs.Buildable
import Mispredict.Proofs.ProgramFlow
import Mispredict.Proofs.Contexts
import Mispredict.Proofs.Walks
import Mispredict.Proofs.WalkBounds
import Mispredict.Proofs.Innermost
import Mispredict.Proofs.Unbound
import Mispredict.Proofs.Bare
import Mispredict.Proofs.TextOnly
import Mispredict.Proofs.Failures
import Mispredict.Proofs.ReadBack
import Mispredict.Proofs.Words
import Mispredict.Proofs.Stacks
import Mispredict.Proofs.Related
import Mispredict.Proofs.Mentioned
import Mispredict.Proofs.LightForm
import Mispredict.Proofs.Representation
import Mispredict.Proofs.Tables
import Mispredict.Proofs.Listing
import Mispredict.Proofs.Projection
import Mispredict.Proofs.Merge
import Mispredict.Proofs.Views
import Mispredict.Proofs.Precedence
import Mispredict.Proofs.Spelling
import Mispredict.Proofs.Distribution
import Mispredict.Proofs.Tracked
import Mispredict.Proofs.Folding
import Mispredict.Proofs.Pieces
import Mispredict.Proofs.Refusal
import Mispredict.Proofs.Columns
import Mispredict.Proofs.WorkLoop
