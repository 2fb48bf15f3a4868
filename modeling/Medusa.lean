import Medusa.Lib.Since
import Medusa.Lib.Interleave
import Medusa.Lib.BigEndian
import Medusa.Lib.Ranking
import Medusa.Lib.AssocList
import Medusa.Lib.Mealy
import Medusa.Lib.FencedLock
import Medusa.Lib.Spread
import Medusa.Lib.Reduction
import Medusa.Lib.Overwrite
import Medusa.Lib.Cache
import Medusa.Lib.Varint
import Medusa.Lib.Lease
import Medusa.Lib.ItemStream
import Medusa.Lib.EventLog
import Medusa.Lib.Cursor
import Medusa.Lib.Faults
import Medusa.Partition
import Medusa.Frame
import Medusa.Proto
import Medusa.Schema
import Medusa.Reread
import Medusa.Messages
import Medusa.Outcome
import Medusa.Transport
import Medusa.Entry
import Medusa.Store
import Medusa.Queue
import Medusa.Sweep
import Medusa.Legacy
import Medusa.QueueRefine
import Medusa.QueueCrash
import Medusa.Wal
import Medusa.EntryCodec
import Medusa.Recovery
import Medusa.LegacyHistory
import Medusa.Replay
import Medusa.WalFile
import Medusa.Lifetimes
import Medusa.Checkpoint
import Medusa.Processors
import Medusa.Lock
import Medusa.Aggregate
import Medusa.Membership
import Medusa.Cluster
import Medusa.MembershipRuns
import Medusa.Detector
import Medusa.Service
import Medusa.Node
import Medusa.Rpc
import Medusa.Epochs
import Medusa.Writes
import Medusa.Gossip
import Medusa.Rejoin
import Medusa.SyncPass
import Medusa.Schedules
import Medusa.Handoff
import Medusa.Completion
import Medusa.Maintenance
import Medusa.Retention
import Medusa.Upkeep
import Medusa.Replicas
import Medusa.Departures
import Medusa.ScaleOut
import Medusa.Changes
import Medusa.Rebalance
import Medusa.Agreement
import Medusa.WriteThrough
import Medusa.Listeners
import Medusa.Dispatcher
import Medusa.PruneRace
import Medusa.AntiEntropy
import Medusa.Map
import Medusa.Totals
import Medusa.Calls
import Medusa.SizeCap
import Medusa.ReadThrough
import Medusa.Eviction
import Medusa.Isolation
import Medusa.Ttl
import Medusa.Copies
import Medusa.PushOrder
import Medusa.Routing
import Medusa.RoundTrip
import Medusa.Failover
import Medusa.Answers
import Medusa.Remote
import Medusa.Placement
import Medusa.TableLayout
import Medusa.Relocation
