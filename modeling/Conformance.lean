import Conformance.Main
import Conformance.Value.Text
import Conformance.Proofs.Agreement
import Conformance.Proofs.DepthLimit
import Conformance.Proofs.Extent
import Conformance.Proofs.Leaves
import Conformance.Proofs.Noninterference
import Conformance.Proofs.Pruning
import Conformance.Proofs.Alike
import Conformance.Proofs.Equality
import Conformance.Proofs.Edit
import Conformance.Proofs.Repair
import Conformance.Proofs.Nodes
import Conformance.Proofs.Loosening
import Conformance.Proofs.Decodability
import Conformance.Proofs.RoundTrip
import Conformance.Proofs.EmptyLines
import Conformance.Proofs.Nesting
import Conformance.Proofs.AssertionMessage
import Conformance.Proofs.Runs
import Conformance.Proofs.Locality
import Conformance.Proofs.Documents
import Conformance.Proofs.Modifiers
import Conformance.Proofs.NormalForm
import Conformance.Proofs.ExactIntegers
import Conformance.Proofs.Reordering
import Conformance.Proofs.Verdicts
import Conformance.Proofs.FollowedPaths
import Conformance.Proofs.ListedLines
import Conformance.Proofs.ClassForest
import Conformance.Proofs.KindNames
import Conformance.Proofs.GuardStack
import Conformance.Proofs.DistinctKeys
