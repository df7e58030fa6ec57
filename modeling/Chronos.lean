import Chronos.Runs
import Chronos.AtomicObject
import Chronos.MpmcInvariant
import Chronos.MpmcTickets
import Chronos.MpmcOwnership
import Chronos.MpmcLinear
import Chronos.MpmcLockstep
import Chronos.MpmcBounded
import Chronos.MpmcRetries
import Chronos.MpmcSizes
import Chronos.GridStrategy
import Chronos.GridLedger
import Chronos.GridInventory
import Chronos.GridHedge
import Chronos.GridCancel
import Chronos.GridLifecycle
import Chronos.OrderBook
import Chronos.OrderIds
import Chronos.GridPrices
import Chronos.ExactDecimal
import Chronos.DoubleTrip
import Chronos.Position
import Chronos.ExactPrices
import Chronos.RoundPrice
import Chronos.GridCrossing
import Chronos.GridRange
import Chronos.GridProfit
import Chronos.GridPositive
import Chronos.GridTick
import Chronos.GridSettles
import Chronos.GridFill
import Chronos.RiskEngine
import Chronos.Seqlock
import Chronos.RiskWriter
import Chronos.RiskHotReads
import Chronos.RiskColdReads
import Chronos.RiskAtRest
import Chronos.RiskConcurrent
import Chronos.RiskFreshReads
import Chronos.EventPipeline
import Chronos.EventStream
import Chronos.LogBuffer
import Chronos.ReplayHeap
import Chronos.AppConfig
import Chronos.ConfiguredGrids
import Chronos.ConfiguredLimits
import Chronos.ConfigShapes
import Chronos.ConfiguredExchange
import Chronos.SlotLedger
import Chronos.GridAccounts
import Chronos.Interleaved
import Chronos.GridStrategies
import Chronos.YamlEdits
import Chronos.ConfigKeys
import Chronos.ByteCodec
import Chronos.LogRecords
import Chronos.LogReadback
import Chronos.Budget
import Chronos.RiskWaitFree
import Chronos.BookProgress
import Chronos.MpmcLockFree
import Chronos.MpmcDelivery
import Chronos.TickPath
import Chronos.MpmcStalls
import Chronos.Lifecycle
import Chronos.Session
import Chronos.PnlLaws
import Chronos.GridRungs
