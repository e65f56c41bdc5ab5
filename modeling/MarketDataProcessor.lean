import MarketDataProcessor.Foundations.StepRun
import MarketDataProcessor.Foundations.Progress
import MarketDataProcessor.Foundations.Fairness
import MarketDataProcessor.Foundations.BoundedQueue
import MarketDataProcessor.Foundations.OrderedMap
import MarketDataProcessor.Foundations.Transducer
import MarketDataProcessor.Foundations.WrapCounter
import MarketDataProcessor.Foundations.History
import MarketDataProcessor.Foundations.BinaryFormat
import MarketDataProcessor.Foundations.ExpAverage
import MarketDataProcessor.Core.RingBuffer
import MarketDataProcessor.Core.RingBufferSafety
import MarketDataProcessor.Core.RingBufferReadings
import MarketDataProcessor.Core.RingCalls
import MarketDataProcessor.Core.FullReading
import MarketDataProcessor.Core.ThreadBase
import MarketDataProcessor.Core.Destruction
import MarketDataProcessor.Core.Double
import MarketDataProcessor.Core.Binary64
import MarketDataProcessor.Core.MarketTick
import MarketDataProcessor.Book.OrderBook
import MarketDataProcessor.Book.Replay
import MarketDataProcessor.Book.LevelBalance
import MarketDataProcessor.Book.Commute
import MarketDataProcessor.Book.Symmetry
import MarketDataProcessor.Book.BookProcessor
import MarketDataProcessor.Book.Emission
import MarketDataProcessor.Book.RefusedUpdates
import MarketDataProcessor.Book.Restore
import MarketDataProcessor.Book.SideHeuristic
import MarketDataProcessor.Book.ReferencePrice
import MarketDataProcessor.Book.MalformedPrices
import MarketDataProcessor.Book.BookWorker
import MarketDataProcessor.Processing.StageAccounting
import MarketDataProcessor.Processing.Normalizer
import MarketDataProcessor.Processing.StageSystem
import MarketDataProcessor.Processing.TickParser
import MarketDataProcessor.Processing.StopBound
import MarketDataProcessor.Processing.Workload
import MarketDataProcessor.Processing.NormalizerSpec
import MarketDataProcessor.Processing.Shutdown
import MarketDataProcessor.Processing.NormalizerMemory
import MarketDataProcessor.Processing.SymbolHash
import MarketDataProcessor.Pipeline.Liquidity
import MarketDataProcessor.Pipeline.RealPrices
import MarketDataProcessor.Pipeline.Confluence
import MarketDataProcessor.Pipeline.SymbolIsolation
import MarketDataProcessor.Pipeline.TickPath
import MarketDataProcessor.Pipeline.OrderlyStop
import MarketDataProcessor.Pipeline.Completion
import MarketDataProcessor.Pipeline.RecordReplay
import MarketDataProcessor.Pipeline.RingPipeline
import MarketDataProcessor.Strategy.EngineWorker
import MarketDataProcessor.Strategy.MovingAverage
import MarketDataProcessor.Strategy.SignalRules
import MarketDataProcessor.Strategy.Settling
import MarketDataProcessor.Pipeline.OrderedStreams
import MarketDataProcessor.Feed.FeedSimulator
import MarketDataProcessor.Feed.Alternation
import MarketDataProcessor.Feed.PostgresFeedReader
import MarketDataProcessor.Feed.Watermark
import MarketDataProcessor.Feed.AtMostOnce
import MarketDataProcessor.Feed.OtherSources
import MarketDataProcessor.Feed.ReaderThread
import MarketDataProcessor.Feed.Backlog
import MarketDataProcessor.Feed.Delivery
import MarketDataProcessor.Pipeline.SymbolRoundTrip
import MarketDataProcessor.Infra.BatchWriter
import MarketDataProcessor.Infra.DbWriter
import MarketDataProcessor.Infra.Freshness
import MarketDataProcessor.Pipeline.VolumeRange
import MarketDataProcessor.Infra.MetricsCollector
import MarketDataProcessor.Infra.DerivedRates
import MarketDataProcessor.Tools.ProcessorMain
import MarketDataProcessor.Tools.ShutdownProgress
import MarketDataProcessor.Tools.HealthCheck
import MarketDataProcessor.Tools.Provenance
import MarketDataProcessor.Tools.DatabaseView
import MarketDataProcessor.Tools.ClosedLoop
import MarketDataProcessor.Tools.FeedThread
import MarketDataProcessor.Tools.Startup
