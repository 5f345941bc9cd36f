import Workflow.Connect
import Workflow.Main
import Workflow.NodeType.Transition.Lemmas
import Workflow.Proofs.Compile.Ended
import Workflow.Proofs.Compile.ReadBack
import Workflow.Proofs.Compile.Redrawn
import Workflow.Proofs.Compile.Renamed
import Workflow.Proofs.Compile.Sorted
import Workflow.Proofs.Compile.Transitions
import Workflow.Proofs.Document.RoundTrip
import Workflow.Proofs.Document.YamlText
import Workflow.Proofs.Edit.Compiled
import Workflow.Proofs.Edit.Dropped
import Workflow.Proofs.Edit.Failed
import Workflow.Proofs.Edit.Listed
import Workflow.Proofs.Edit.Named
import Workflow.Proofs.Edit.Reinserted
import Workflow.Proofs.Edit.Reloaded
import Workflow.Proofs.Edit.Reproduced
import Workflow.Proofs.Edit.Stored
import Workflow.Proofs.Graph.Ledger
import Workflow.Proofs.Graph.Verdicts
import Workflow.Proofs.Import.Accepted
import Workflow.Proofs.Import.Registered
import Workflow.Proofs.Import.Relabelled
import Workflow.Proofs.Import.Settled
import Workflow.Proofs.Import.Skipped
import Workflow.Proofs.NodeType.Cells
import Workflow.Proofs.NodeType.Covered
import Workflow.Proofs.NodeType.Reinstated
import Workflow.Proofs.Program.Agreement
import Workflow.Proofs.Snapshot.RoundTrip
import Workflow.Proofs.Transform.Inverse
