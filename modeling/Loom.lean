import Loom.Prelude.GoMap
import Loom.Prelude.Machine
import Loom.Prelude.Traversal
import Loom.Prelude.Segment
import Loom.Prelude.Compatible
import Loom.Prelude.Ring
import Loom.Prelude.Service
import Loom.Core.Config
import Loom.Core.Message
import Loom.Core.Digest
import Loom.Core.Dag
import Loom.Core.Commitor
import Loom.Core.Aggregator
import Loom.Core.Quorum
import Loom.Core.Core
import Loom.Core.SigService
import Loom.Pool.Queue
import Loom.Store.Store
import Loom.Pair.State
import Loom.Pair.Cache
import Loom.Pair.Order
import Loom.Pair.Invariant
import Loom.Pair.Once
import Loom.Pair.Rounds
import Loom.Pair.Waits
import Loom.Pair.Leaders
import Loom.Pair.Panics
import Loom.Pair.Ledger
import Loom.Pair.Commit
import Loom.Pair.Traversals
import Loom.Pair.Pulls
import Loom.Pair.Refine
import Loom.Pair.Lines
import Loom.Pair.History
import Loom.Pair.Progress
import Loom.Pair.Anchors
import Loom.Pair.Turns
import Loom.System.World
import Loom.System.Schedule
import Loom.System.Traffic
import Loom.System.References
import Loom.System.Chain
import Loom.System.Backing
import Loom.System.Election
import Loom.System.Books
import Loom.System.Lines
import Loom.System.Openings
import Loom.System.Rounds
import Loom.System.Agreement
import Loom.System.Coin
import Loom.System.Integrity
import Loom.System.Deliveries
import Loom.System.Liveness
import Loom.System.Commits
import Loom.System.Work
import Loom.System.Transactions
import Loom.Remote.Wire
import Loom.Remote.Net
import Loom.Remote.Room
import Loom.Remote.Shares
import Loom.Remote.Echoes
import Loom.Remote.Broadcast
import Loom.Remote.Crash
import Loom.Remote.Quorums
import Loom.Remote.Retriever
import Loom.Remote.LoopBack
import Loom.Remote.Retries
import Loom.Remote.Requests
import Loom.Network.Sender
import Loom.Network.Transport
import Loom.Network.Progress
import Loom.System.Stack
import Loom.System.Deadlock
