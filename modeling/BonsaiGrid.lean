import BonsaiGrid.Raft.Durable
import BonsaiGrid.Raft.Lease
import BonsaiGrid.Server.Migration
import BonsaiGrid.Wan.Structures
import BonsaiGrid.Wan.Outbound
import BonsaiGrid.Cp.Locks
import BonsaiGrid.Server.Closing
import BonsaiGrid.Server.Cdc
import BonsaiGrid.Server.SplitBrain
import BonsaiGrid.Server.Agreement
import BonsaiGrid.Server.Quorum
import BonsaiGrid.Server.Survival
import BonsaiGrid.Server.Handover
import BonsaiGrid.Store.Answers
import BonsaiGrid.Server.Locks
import BonsaiGrid.Store.Precedence
import BonsaiGrid.Store.Counters
import BonsaiGrid.Store.MapStore
import BonsaiGrid.Server.FlakeIds
import BonsaiGrid.Wan.Writers
import BonsaiGrid.Server.CpGroups
import BonsaiGrid.Server.NearCache
import BonsaiGrid.Server.Shows
import BonsaiGrid.Server.Transactions
import BonsaiGrid.Query.Like
import BonsaiGrid.Query.Partial
import BonsaiGrid.Cp.Permits
import BonsaiGrid.Wan.Wire
