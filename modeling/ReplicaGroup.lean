import ReplicaGroup.Main
import ReplicaGroup.Node
import ReplicaGroup.OrderedSet.Lemmas
import ReplicaGroup.Proofs.Store.Versions
import ReplicaGroup.Proofs.Scan.Selection
import ReplicaGroup.Proofs.Table
import ReplicaGroup.Proofs.Capture
import ReplicaGroup.Proofs.Engine.Answers
import ReplicaGroup.Proofs.Engine.Apply
import ReplicaGroup.Proofs.Log
import ReplicaGroup.Proofs.Refinement
import ReplicaGroup.Proofs.Joining
import ReplicaGroup.Proofs.Agreement
import ReplicaGroup.Proofs.Convergence
import ReplicaGroup.Proofs.Release
import ReplicaGroup.Proofs.Scan.Results
import ReplicaGroup.Proofs.Site.Routing
import ReplicaGroup.Proofs.Transfer.Delivery
import ReplicaGroup.Proofs.Sequencer
import ReplicaGroup.Proofs.Isolation
import ReplicaGroup.Proofs.Engine.Feeding
import ReplicaGroup.Proofs.Engine.Pruning
import ReplicaGroup.Proofs.Engine.Modes
import ReplicaGroup.Proofs.GroupVersion
import ReplicaGroup.Proofs.Stamping
import ReplicaGroup.Proofs.Wire.Transmission
import ReplicaGroup.Proofs.Client.Entries
import ReplicaGroup.Proofs.Answering
import ReplicaGroup.Proofs.Retiring
import ReplicaGroup.Proofs.Store.Cleanup
import ReplicaGroup.Proofs.Scan.Protocol
import ReplicaGroup.Proofs.Scan.Paging
import ReplicaGroup.Proofs.Store.Sizes
import ReplicaGroup.Proofs.Conflict
import ReplicaGroup.Proofs.Transfer.Grants
import ReplicaGroup.Proofs.Store.Presence
import ReplicaGroup.Proofs.Engine.Moves
