import Zilionixx.BitList
import Zilionixx.Codec
import Zilionixx.ByteNumber
import Zilionixx.Bits
import Zilionixx.Cursor
import Zilionixx.Cser
import Zilionixx.CserBinary
import Zilionixx.Transaction
import Zilionixx.Event
import Zilionixx.EventSerializer
import Zilionixx.EventCodec
import Zilionixx.Rules
import Zilionixx.EventCheck
import Zilionixx.EventStore
import Zilionixx.DecidedState
import Zilionixx.GasPower
import Zilionixx.Vecmt
import Zilionixx.VectorDag
import Zilionixx.EventModule
import Zilionixx.DriverModule
import Zilionixx.SealModule
import Zilionixx.BlockCallbacks
import Zilionixx.BlockOrder
import Zilionixx.BlockStep
import Zilionixx.BlockRun
import Zilionixx.Cheaters
import Zilionixx.SkipIndex
import Zilionixx.EvmModule
import Zilionixx.EvmStateReader
import Zilionixx.GasRefunds
import Zilionixx.Profiles
import Zilionixx.Uptime
import Zilionixx.CserTyped
import Zilionixx.EmitterTxs
import Zilionixx.StateTransition
import Zilionixx.EmitterIntervals
import Zilionixx.Emission
import Zilionixx.DagHeads
import Zilionixx.GasAccounting
import Zilionixx.ImplicitTree
import Zilionixx.KvTable
import Zilionixx.LogFilter
import Zilionixx.MedianTime
import Zilionixx.NodeService
import Zilionixx.ReceiptPositions
import Zilionixx.SealLoop
import Zilionixx.TxTurns
import Zilionixx.CserTrace
import Zilionixx.DriverLogs
import Zilionixx.EmitterReserve
import Zilionixx.EvmWriter
import Zilionixx.Lru
import Zilionixx.PendingCounters
import Zilionixx.SkippedTxs
import Zilionixx.Spill
import Zilionixx.TxReencode
import Zilionixx.CheckQueue
import Zilionixx.ChunkedReader
import Zilionixx.ForgetfulCache
import Zilionixx.GasPrice
import Zilionixx.InternalNonces
import Zilionixx.IoDb
import Zilionixx.Migration
import Zilionixx.ParentMetric
import Zilionixx.PoolGasLimit
import Zilionixx.UniqueId
import Zilionixx.UsedGasRecovery
import Zilionixx.Broadcast
import Zilionixx.TxList
import Zilionixx.ReorgLoop
import Zilionixx.TxPricedList
