import ConstFlow.Main
import ConstFlow.Constants.History
import ConstFlow.Dataflow.Assignment
import ConstFlow.Dataflow.Counting
import ConstFlow.Dataflow.Liveness
import ConstFlow.Document.Types
import ConstFlow.Lattice.Laws
import ConstFlow.Proofs.Collections.MapEquality
import ConstFlow.Proofs.Constants.ValueOrder
import ConstFlow.Proofs.Constants.ValuationOrder
import ConstFlow.Proofs.Dataflow.FactLaws
import ConstFlow.Proofs.Constants.Monotonicity
import ConstFlow.Proofs.Dataflow.LeastSolution
import ConstFlow.Proofs.Dataflow.Solving
import ConstFlow.Proofs.Dataflow.VisitBound
import ConstFlow.Proofs.Constants.Termination
import ConstFlow.Proofs.Program.Editing
import ConstFlow.Proofs.Flow.ControlFlow
import ConstFlow.Proofs.Flow.Rewriting
import ConstFlow.Proofs.Constants.DefiniteAssignment
import ConstFlow.Proofs.Constants.Folding
import ConstFlow.Proofs.Flow.Paths
import ConstFlow.Proofs.Collections.SetEquality
import ConstFlow.Proofs.Dataflow.PathLiveness
import ConstFlow.Proofs.Dataflow.PathAssignment
import ConstFlow.Proofs.Flow.Execution
import ConstFlow.Proofs.Constants.Soundness
import ConstFlow.Proofs.Dataflow.Fuel
import ConstFlow.Proofs.Collections.Positions
import ConstFlow.Proofs.Dataflow.VisitOrder
import ConstFlow.Proofs.Dataflow.ForwardJumps
import ConstFlow.Proofs.Flow.Cycles
import ConstFlow.Proofs.Dataflow.AlwaysChanging
import ConstFlow.Proofs.Constants.DeadDefinitions
import ConstFlow.Proofs.Flow.LabelBinding
import ConstFlow.Proofs.Constants.Inflow
import ConstFlow.Proofs.Constants.Exactness
import ConstFlow.Proofs.Constants.WordArithmetic
import ConstFlow.Proofs.Constants.ReadsAndWrites
import ConstFlow.Proofs.Constants.CanonicalForm
import ConstFlow.Proofs.Lattice.BoundedLattice
import ConstFlow.Proofs.Lattice.LawReports
import ConstFlow.Proofs.Constants.ValueLattice
