import ExprGraph.Decimal.ReadBack
import ExprGraph.Interpreter
import ExprGraph.Program.Draft
import ExprGraph.SSA.Build
import ExprGraph.SSA.Text
import ExprGraph.Proofs.Evaluator
import ExprGraph.Proofs.Machine.Refinement
import ExprGraph.Proofs.Machine.Discipline
import ExprGraph.Proofs.SSA.Erasure
import ExprGraph.Proofs.SSA.Highest
import ExprGraph.Proofs.SSA.RenameExecution
import ExprGraph.Proofs.SSA.LoweredCode
import ExprGraph.Proofs.SSA.Temporaries
import ExprGraph.Proofs.SSA.Relabelling
import ExprGraph.Proofs.SSA.LoweredExecution
import ExprGraph.Proofs.SSA.BuildExecution
import ExprGraph.Proofs.Machine.Changes
import ExprGraph.Proofs.Machine.Reached
import ExprGraph.Proofs.Machine.Faults
import ExprGraph.Proofs.Machine.Replay
import ExprGraph.Proofs.Machine.Depth
import ExprGraph.Proofs.SSA.Scope
import ExprGraph.Proofs.SSA.VersionOrder
import ExprGraph.Proofs.SSA.WellFormed
import ExprGraph.Proofs.Machine.Trail
import ExprGraph.Proofs.Machine.Ancestors
import ExprGraph.Proofs.Machine.Sites
import ExprGraph.Proofs.Machine.Arguments
import ExprGraph.Proofs.Renaming
import ExprGraph.Proofs.Machine.RenamedRuns
import ExprGraph.Proofs.SSA.RenamedCode
import ExprGraph.Proofs.Shape
import ExprGraph.Proofs.SSA.TemporaryNumbers
import ExprGraph.Proofs.SSA.History
import ExprGraph.Proofs.SSA.Counter
import ExprGraph.Proofs.SSA.Acceptance
import ExprGraph.Proofs.Machine.ArrayArguments
import ExprGraph.Proofs.SSA.Idempotence
import ExprGraph.Proofs.SSA.Joins
import ExprGraph.Proofs.SSA.Readable
import ExprGraph.Proofs.Machine.Sessions
import ExprGraph.Proofs.Comparisons
import ExprGraph.Proofs.Interning
import ExprGraph.Proofs.ClosedPrograms
import ExprGraph.Proofs.Drafts
import ExprGraph.Proofs.Indices
import ExprGraph.Proofs.Machine.Elements
import ExprGraph.Proofs.Frames
