import AvalancheParallel.Consensus.DecisionLoop
import AvalancheParallel.Consensus.ConflictSafety
import AvalancheParallel.Consensus.ParentOrder
import AvalancheParallel.Consensus.FailedVertices
import AvalancheParallel.Consensus.ConflictDecisions
import AvalancheParallel.Bootstrap.Execution
import AvalancheParallel.Chain.TransactionRetention
import AvalancheParallel.Chain.Acceptance
import AvalancheParallel.Secp256k1fx.Threshold
import AvalancheParallel.Secp256k1fx.Keychain
import AvalancheParallel.Chain.Identity
import AvalancheParallel.Chain.Selection
import AvalancheParallel.Chain.HeightIndex
import AvalancheParallel.Chain.Replay
import AvalancheParallel.Chain.LatestBlocks
import AvalancheParallel.Chain.PassLaws
import AvalancheParallel.Chain.Ancestry
import AvalancheParallel.Chain.DoubleSpend
import AvalancheParallel.Chain.Finality
import AvalancheParallel.Consensus.Dependencies
import AvalancheParallel.Chain.Ledger
import AvalancheParallel.Chain.CreateRequests
import AvalancheParallel.Chain.Serializability
import AvalancheParallel.Chain.ParallelProcessing
import AvalancheParallel.Chain.Admission
import AvalancheParallel.Consensus.BatchProcessing
import AvalancheParallel.Consensus.Retries
import AvalancheParallel.Consensus.ParallelDag
import AvalancheParallel.Consensus.DagRetries
import AvalancheParallel.Foundation.EarlyExits
import AvalancheParallel.Foundation.Schedules
import AvalancheParallel.Consensus.VertexProcessor
import AvalancheParallel.Chain.BlockGraph
import AvalancheParallel.Chain.BlockHeights
import AvalancheParallel.Consensus.DagLocks
import AvalancheParallel.Vertex.Builder
import AvalancheParallel.Worker.Pool
import AvalancheParallel.Worker.Wire
import AvalancheParallel.Worker.Dispatch
import AvalancheParallel.Chain.NodeLifecycle
import AvalancheParallel.Snowball.Tree
import AvalancheParallel.Snowball.EagerReset
import AvalancheParallel.Foundation.ParentTree
import AvalancheParallel.Snowman.Topological
import AvalancheParallel.Snowman.BlockTree
import AvalancheParallel.Snowman.Decisions
import AvalancheParallel.Snowman.History
import AvalancheParallel.Snowman.VotePropagation
import AvalancheParallel.Snowman.PreferredBranch
import AvalancheParallel.Snowman.VoteLoop
import AvalancheParallel.Snowman.Consensus
import AvalancheParallel.Bootstrap.Queue
import AvalancheParallel.Foundation.DependencyOrder
import AvalancheParallel.Foundation.Forest
import AvalancheParallel.Poll.EarlyTermination
import AvalancheParallel.Sampler.Uniform
import AvalancheParallel.Sampler.Weighted
import AvalancheParallel.Sampler.WithoutReplacement
import AvalancheParallel.Sampler.Reuse
import AvalancheParallel.Foundation.ListUpdate
import AvalancheParallel.Sampler.UniformReplacer
import AvalancheParallel.Foundation.BinaryHeap
import AvalancheParallel.Sampler.WeightedHeap
import AvalancheParallel.Sampler.HeapSampling
import AvalancheParallel.Sampler.HeapUpdates
import AvalancheParallel.Utils.OrderedTypes
import AvalancheParallel.Utils.Slices
import AvalancheParallel.Foundation.ExchangeSort
import AvalancheParallel.Foundation.IndexedList
import AvalancheParallel.Utils.Bag
import AvalancheParallel.Utils.SampleableSet
import AvalancheParallel.Utils.SetJson
import AvalancheParallel.Foundation.LinkedMap
import AvalancheParallel.Poll.PollSet
import AvalancheParallel.Foundation.BubbleSort
import AvalancheParallel.Engine.Scheduler
import AvalancheParallel.Engine.JobAccounts
import AvalancheParallel.Foundation.Streaks
import AvalancheParallel.Snowball.Nnary
import AvalancheParallel.Foundation.HeapOrder
import AvalancheParallel.Sampler.HeapPriorities
import AvalancheParallel.Snowman.VoteCounting
import AvalancheParallel.Database.Batch
import AvalancheParallel.Foundation.BTree
import AvalancheParallel.Foundation.SeparatedRanges
import AvalancheParallel.Bootstrap.BlockExecution
import AvalancheParallel.Bootstrap.Bootstrapper
import AvalancheParallel.Bootstrap.OutstandingRequests
import AvalancheParallel.Engine.AncestorTree
import AvalancheParallel.Engine.SnowmanEngine
import AvalancheParallel.Engine.VoteBubbling
import AvalancheParallel.Engine.WaitingJobs
import AvalancheParallel.Codec.Marshaling
import AvalancheParallel.Codec.RoundTrip
import AvalancheParallel.Codec.Sizes
