import DpdkGraph.BufferedFile
import DpdkGraph.SparseRows
import DpdkGraph.QuickSort
import DpdkGraph.Intervals
import DpdkGraph.Reshard
import DpdkGraph.AdjacencyFile
import DpdkGraph.ReshardFiles
import DpdkGraph.RoundTrip
import DpdkGraph.SlotAgreement
import DpdkGraph.Barrier
import DpdkGraph.ControlChannel
import DpdkGraph.ControlFraming
import DpdkGraph.Delivery
import DpdkGraph.Iterations
import DpdkGraph.Segmentation
import DpdkGraph.EdgeVisibility
import DpdkGraph.PartitionTransparency
import DpdkGraph.ExternalSort
import DpdkGraph.FirstSharding
import DpdkGraph.ShardIntervals
import DpdkGraph.GlobalTop
import DpdkGraph.PartitionWindows
import DpdkGraph.Renumbering
import DpdkGraph.MessageOrder
import DpdkGraph.BlockIndex
import DpdkGraph.ByteStream
import DpdkGraph.CommandFraming
import DpdkGraph.FileTransfer
import DpdkGraph.InEdgePointers
import DpdkGraph.SchedulePackage
import DpdkGraph.BlockLoading
import DpdkGraph.LoadCompleteness
import DpdkGraph.LoadCompletion
import DpdkGraph.FinishShard
import DpdkGraph.FirstRoundTrip
import DpdkGraph.RoundTripLimits
import DpdkGraph.DuplicateFilter
import DpdkGraph.CommunityDetection
import DpdkGraph.CrossCounts
import DpdkGraph.HopDistance
import DpdkGraph.InputOrder
import DpdkGraph.MainBlockCopy
import DpdkGraph.OrderIndependence
import DpdkGraph.ShovelGrowth
import DpdkGraph.SinkCapacity
import DpdkGraph.Sssp
import DpdkGraph.SsspRuns
import DpdkGraph.BinaryEdgeList
import DpdkGraph.BlockDecoding
import DpdkGraph.CallRuns
import DpdkGraph.DynamicCounts
import DpdkGraph.DynamicRecords
import DpdkGraph.DynamicRuns
import DpdkGraph.DynamicSizes
import DpdkGraph.DynamicVectors
import DpdkGraph.EdgeListConversion
import DpdkGraph.LabelAnalysis
import DpdkGraph.MetisConversion
import DpdkGraph.ReadCompletion
import DpdkGraph.WindowChoice
import DpdkGraph.CallPlays
import DpdkGraph.CrossEdges
import DpdkGraph.CallHistory
import DpdkGraph.LabelRules
import DpdkGraph.ConnectedLabels
import DpdkGraph.Rounds
import DpdkGraph.SettledLabels
import DpdkGraph.ExchangeBound
import DpdkGraph.ExchangeCompletion
import DpdkGraph.DampedSums
import DpdkGraph.PageRank
import DpdkGraph.SettlingTime
import DpdkGraph.StoredInput
import DpdkGraph.Scoring
import DpdkGraph.Partitioner
import DpdkGraph.PartitionerBooks
import DpdkGraph.PartitionedShards
import DpdkGraph.FirstShards
import DpdkGraph.ThreadPool
import DpdkGraph.PooledExchange
