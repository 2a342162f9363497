import MilvusCatalog.Lib.GoString
import MilvusCatalog.Lib.Etcd
import MilvusCatalog.Lib.Transition
import MilvusCatalog.Lib.Attempt
import MilvusCatalog.Lib.Journal
import MilvusCatalog.Placement
import MilvusCatalog.Rebalance
import MilvusCatalog.Ownership
import MilvusCatalog.Membership
import MilvusCatalog.Coordinator
import MilvusCatalog.Cluster
import MilvusCatalog.Table
import MilvusCatalog.Fencing
import MilvusCatalog.SplitBrain
import MilvusCatalog.Tenure
import MilvusCatalog.Isolation
import MilvusCatalog.LiveOwners
import MilvusCatalog.Continuity
import MilvusCatalog.Departure
import MilvusCatalog.Adoption
import MilvusCatalog.Gate
import MilvusCatalog.LeaseWindow
import MilvusCatalog.TimedServing
import MilvusCatalog.Release
import MilvusCatalog.Convergence.Owners
import MilvusCatalog.Convergence.Phases
import MilvusCatalog.Convergence.Rounds
import MilvusCatalog.Convergence.Stabilize
import MilvusCatalog.Convergence.Settle
import MilvusCatalog.Convergence.Failover
import MilvusCatalog.Migration.Keys
import MilvusCatalog.Migration.Subtree
import MilvusCatalog.Migration.CopyDiff
import MilvusCatalog.Migration.Copy
import MilvusCatalog.Migration.Diff
import MilvusCatalog.Migration.Count
import MilvusCatalog.Migration.Batches
import MilvusCatalog.Migration.Restart
import MilvusCatalog.Client.Router
import MilvusCatalog.Nsmeta
import MilvusCatalog.Client.RefCount
import MilvusCatalog.Client.Discovery
import MilvusCatalog.Client.Pool
import MilvusCatalog.Client.ReadOrder
import MilvusCatalog.Client.Recovery
import MilvusCatalog.Client.Closing
import MilvusCatalog.Client.Returns
import MilvusCatalog.Client.Seeds
import MilvusCatalog.Client.Stamps
import MilvusCatalog.Client.Delivery
