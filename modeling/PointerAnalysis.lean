import PointerAnalysis.Analysis
import PointerAnalysis.AssignmentGraph.Codec
import PointerAnalysis.Config.Codec
import PointerAnalysis.Context.Codec
import PointerAnalysis.Proofs.Analysis
import PointerAnalysis.Proofs.AssignmentGraph.RoundTrip
import PointerAnalysis.Proofs.ConstraintGraph.Edits
import PointerAnalysis.Proofs.ContextGraph.CallStrings
import PointerAnalysis.Proofs.IdSet
import PointerAnalysis.Proofs.OriginMarking
import PointerAnalysis.Proofs.Solver.Agreement
import PointerAnalysis.Proofs.Solver.Coarse
import PointerAnalysis.Proofs.Solver.Cycles
import PointerAnalysis.Proofs.Solver.Depth
import PointerAnalysis.Proofs.Solver.FirstField
import PointerAnalysis.Proofs.Solver.Provenance
import PointerAnalysis.Proofs.Solver.Quotient
import PointerAnalysis.Proofs.Solver.Records
import PointerAnalysis.Proofs.Solver.Representatives
import PointerAnalysis.Proofs.Solver.Termination
