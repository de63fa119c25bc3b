import HoloMarket.Lib.Machine
import HoloMarket.Lib.SlotIndex
import HoloMarket.Lib.AssocList
import HoloMarket.Lib.DeviceBuffer
import HoloMarket.Lib.SlotOrder
import HoloMarket.Lib.EdgeFlow
import HoloMarket.Lib.LastWriter
import HoloMarket.Lib.GreedyScan
import HoloMarket.Lib.ExtFloat
import HoloMarket.Core.MemoryArena
import HoloMarket.Core.LobBook
import HoloMarket.Net.OmsCore
import HoloMarket.Net.OmsRefinement
import HoloMarket.Net.PnlBook
import HoloMarket.Net.BinanceGateway
import HoloMarket.Net.RejectTracking
import HoloMarket.Math.HodgeKernel
import HoloMarket.Math.Incidence
import HoloMarket.Math.Coexact
import HoloMarket.Net.UserDataFeed
import HoloMarket.Net.Settled
import HoloMarket.Net.Reconcile
import HoloMarket.Net.ExecutionEngine
import HoloMarket.Net.PairMonitor
import HoloMarket.Net.OrderCells
import HoloMarket.Net.OrderLife
import HoloMarket.Net.DeskInv
import HoloMarket.Net.DeskSteps
import HoloMarket.Net.DeskBook
import HoloMarket.Net.PairInv
import HoloMarket.Net.PairSteps
import HoloMarket.Net.PairSignal
import HoloMarket.Net.WorldInv
import HoloMarket.Net.PairMoves
import HoloMarket.Net.PairOutcome
import HoloMarket.Net.GivenUp
import HoloMarket.Net.Conservation
import HoloMarket.Lib.DeltaLedger
import HoloMarket.Net.FillCharges
import HoloMarket.Core.LobCore
import HoloMarket.Lib.RowScan
import HoloMarket.Net.CsvReplay
import HoloMarket.Net.RowIsolation
import HoloMarket.App.Backtest
import HoloMarket.App.Schedule
import HoloMarket.Lib.Seqlock
import HoloMarket.Math.GpuLobMirror
import HoloMarket.Math.SnapshotFresh
import HoloMarket.Math.FloerBoundary
import HoloMarket.Math.FloerRanks
import HoloMarket.Lib.Leases
import HoloMarket.Net.Inflight
import HoloMarket.Net.Exclusive
import HoloMarket.Net.Unreleased
import HoloMarket.Net.LiveOrders
import HoloMarket.Lib.SharedCells
import HoloMarket.Math.CudaPipeline
import HoloMarket.Math.SignalRing
import HoloMarket.Net.SignalRouter
import HoloMarket.App.MainLive
import HoloMarket.App.SignalTick
import HoloMarket.Core.RingQueue
import HoloMarket.Net.FillAccounting
import HoloMarket.Net.GatewaySends
import HoloMarket.Net.HaltLatch
import HoloMarket.Net.Registry
import HoloMarket.Net.Restart
import HoloMarket.Lib.DecimalText
import HoloMarket.Net.CsvWriter
import HoloMarket.Net.WireQuantity
import HoloMarket.Net.PairCalls
import HoloMarket.Net.CallEffects
import HoloMarket.Net.OpenOrders
import HoloMarket.Net.HedgeSizing
import HoloMarket.Net.RouterGreedy
import HoloMarket.Net.RouterFloats
import HoloMarket.App.RiskCheck
import HoloMarket.Math.TriangleSearch
import HoloMarket.Math.CompleteLaplacian
import HoloMarket.Math.NeighbourMerge
import HoloMarket.Math.CliqueColumns
import HoloMarket.Math.NormalizedLaplacian
import HoloMarket.Math.FloerOrder
import HoloMarket.Lib.Increments
import HoloMarket.Net.FillSnapshots
import HoloMarket.App.MakerPrice
import HoloMarket.Net.NumericFields
import HoloMarket.App.PnlTracker
import HoloMarket.Lib.JsonText
import HoloMarket.Net.SignedParams
import HoloMarket.Math.SignalHistory
import HoloMarket.Lib.Binary64
import HoloMarket.Infra.AggTrades
import HoloMarket.Lib.UnstableSort
import HoloMarket.Infra.MergedFile
import HoloMarket.Research.WalkForward
import HoloMarket.Lib.PseudoInverse
import HoloMarket.Lib.SparseMatrix
import HoloMarket.Research.HodgeDecomposition
import HoloMarket.Lib.RowMajor
import HoloMarket.Lib.Truncation
import HoloMarket.Research.TensorTrain
import HoloMarket.Lib.RowSpace
import HoloMarket.Math.FloerElimination
import HoloMarket.Lib.OrderStatistic
import HoloMarket.Core.LatencyTrace
import HoloMarket.Lib.DoubleRounding
import HoloMarket.Core.LatencyDoubles
import HoloMarket.Net.NumberText
import HoloMarket.Net.BinanceFeed
import HoloMarket.Net.QuoteText
import HoloMarket.Math.HarmonicProjection
import HoloMarket.Math.CompleteHodge
import HoloMarket.Research.EngineSignal
import HoloMarket.Math.YangMills
import HoloMarket.Math.SignalEnergy
import HoloMarket.App.LiveBook
import HoloMarket.Core.LatencyRecorders
import HoloMarket.Core.LatencyDumps
import HoloMarket.Lib.RunBounds
import HoloMarket.Net.PairRequests
import HoloMarket.Net.RequestLog
import HoloMarket.Net.HaltedExposure
import HoloMarket.Net.PairProgress
import HoloMarket.Net.ThrottledLog
import HoloMarket.Lib.TracePast
import HoloMarket.Net.UserDataSession
import HoloMarket.App.TradeSizing
import HoloMarket.Lib.SampleVariance
import HoloMarket.App.BacktestReport
import HoloMarket.Math.FlowVector
import HoloMarket.Lib.AtomicFile
import HoloMarket.Infra.HistoricalRange
import HoloMarket.Lib.WeightedLaplacian
import HoloMarket.Research.SpectralPruning
import HoloMarket.Lib.TextScan
import HoloMarket.Infra.SharpeGrid
