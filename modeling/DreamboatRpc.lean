import DreamboatRpc.Apps.KeyValueLinearizable
import DreamboatRpc.Client.Accounting
import DreamboatRpc.Client.Allocation
import DreamboatRpc.Client.Encoders
import DreamboatRpc.Client.Freeze
import DreamboatRpc.Client.HeapAccess
import DreamboatRpc.Client.IdRange
import DreamboatRpc.Client.SmallestFree
import DreamboatRpc.Client.TableSafety
import DreamboatRpc.Client.Transport
import DreamboatRpc.Common.Logger
import DreamboatRpc.Common.Timer
import DreamboatRpc.Namesvr.Encoding
import DreamboatRpc.Namesvr.Kept
import DreamboatRpc.Namesvr.Provenance
import DreamboatRpc.Raft.AppliedPosition
import DreamboatRpc.Raft.CatchUp
import DreamboatRpc.Raft.ClientRequests
import DreamboatRpc.Raft.CommitIndex
import DreamboatRpc.Raft.DeadEnd
import DreamboatRpc.Raft.Deployment
import DreamboatRpc.Raft.Durability
import DreamboatRpc.Raft.ElectionRestriction
import DreamboatRpc.Raft.EntryLookup
import DreamboatRpc.Raft.Idempotence
import DreamboatRpc.Raft.LeaderKnown
import DreamboatRpc.Raft.LogMatching
import DreamboatRpc.Raft.LogOrder
import DreamboatRpc.Raft.MatchIndex
import DreamboatRpc.Raft.OtherTerms
import DreamboatRpc.Raft.Quorum
import DreamboatRpc.Raft.SilentNode
import DreamboatRpc.Raft.TermMonotone
import DreamboatRpc.Raft.VoteRecord
import DreamboatRpc.Rpc.Params
import DreamboatRpc.Server.Backlog
import DreamboatRpc.Server.Decoding
import DreamboatRpc.Server.Delivery
import DreamboatRpc.Server.FailedAccept
import DreamboatRpc.Server.FaultIsolation
import DreamboatRpc.Server.Framing
import DreamboatRpc.Server.HandlerSlots
import DreamboatRpc.Server.Serialised
import DreamboatRpc.Server.ThreadPool
