import Concord.Main
import Concord.Simulation.Cluster
import Concord.Transport.Loopback
import Concord.Node
import Concord.Proofs.Basic.Binding
import Concord.Proofs.Basic.Descent
import Concord.Proofs.Basic.Locks
import Concord.Proofs.Basic.Payloads
import Concord.Proofs.Basic.Reporting
import Concord.Proofs.Chained.Descent
import Concord.Proofs.Chained.Locks
import Concord.Proofs.Agreement
import Concord.Proofs.Order
import Concord.Proofs.Progress
import Concord.Proofs.Refusals
import Concord.Proofs.Chained.ThreeChain
import Concord.Proofs.Chained.Holes
import Concord.Proofs.Chained.Identities
import Concord.Proofs.Chained.Reports
import Concord.Proofs.Chained.Ballots
import Concord.Proofs.Validity
import Concord.Proofs.Canonical
import Concord.Proofs.Retention
import Concord.Proofs.Reception
import Concord.Proofs.Intersection
import Concord.Proofs.Starting
import Concord.Proofs.Chained.Highest
import Concord.Proofs.Chained.Bridges
import Concord.Proofs.Early
import Concord.Proofs.Attestation
import Concord.Proofs.MessageLog
import Concord.Proofs.Conservation
import Concord.Proofs.Presence
import Concord.Proofs.Framing
import Concord.Proofs.Rotation
import Concord.Proofs.Chained.Prepared
