import Espbase.Boot.CheckCrashLoop
import Espbase.Boot.DelayedPmEnable
import Espbase.Boot.OtaGates
import Espbase.Boot.OtaRollbackWatchdog
import Espbase.Boot.OtaTimer
import Espbase.Boot.PmLostPress
import Espbase.Boot.PmOverride
import Espbase.Boot.PmTimer
import Espbase.Emulated.Agreement
import Espbase.Emulated.Delivery
import Espbase.Emulated.Destructor
import Espbase.Emulated.NvsStore
import Espbase.Emulated.StdlibMainLoop
import Espbase.Emulated.WaitIdle
import Espbase.EspTask.HandleProtocol
import Espbase.EspTask.Join
import Espbase.EspTask.StartResult
import Espbase.EspTask.System
import Espbase.EspTimer
import Espbase.History.CircularHistoryBuffer
import Espbase.History.LogStream
import Espbase.History.NetworkLogger
import Espbase.History.Replay
import Espbase.History.StreamClient
import Espbase.History.Streaming
import Espbase.Lib.BracketScan
import Espbase.Lib.Bytes
import Espbase.Lib.Chunks
import Espbase.Lib.CompactJson
import Espbase.Lib.Decimal
import Espbase.Lib.DocPlace
import Espbase.Lib.Durable
import Espbase.Lib.Fifo
import Espbase.Lib.Handles
import Espbase.Lib.Interleaving
import Espbase.Lib.JsonComments
import Espbase.Lib.JsonDoc
import Espbase.Lib.JsonString
import Espbase.Lib.KeyTree
import Espbase.Lib.KeyTreeAt
import Espbase.Lib.KeyTreeGraft
import Espbase.Lib.Loop
import Espbase.Lib.Mutex
import Espbase.Lib.QuoteScan
import Espbase.Lib.Ring
import Espbase.Lib.Simulation
import Espbase.Lib.StringItems
import Espbase.Lib.TreeDoc
import Espbase.Lib.Wrappers
import Espbase.MainLoop.DelayedFirings
import Espbase.MainLoop.Delivery
import Espbase.MainLoop.Histories
import Espbase.MainLoopTask.InflightCount
import Espbase.MainLoopTask.NoStall
import Espbase.MainLoopTask.NotifyHeard
import Espbase.MainLoopTask.System
import Espbase.MainLoopTask.Teardown
import Espbase.NvsStore.EspResult
import Espbase.NvsStore.Ownership
import Espbase.NvsStore.SchemaMigration
import Espbase.PmLock
import Espbase.ShutdownRegistry
import Espbase.StackJson.ArrayElements
import Espbase.StackJson.ArrayOpaque
import Espbase.StackJson.ArrayStream
import Espbase.StackJson.ArrayTokens
import Espbase.StackJson.Buffer
import Espbase.StackJson.Builder
import Espbase.StackJson.Capture
import Espbase.StackJson.CatchAll
import Espbase.StackJson.Coerce
import Espbase.StackJson.CommentSpace
import Espbase.StackJson.CompactText
import Espbase.StackJson.DataRoundTrip
import Espbase.StackJson.Decode
import Espbase.StackJson.DecodeLimit
import Espbase.StackJson.DecodeResults
import Espbase.StackJson.DecodeUnicode
import Espbase.StackJson.DocLookups
import Espbase.StackJson.DynamicBuffer
import Espbase.StackJson.DynamicDocument
import Espbase.StackJson.DynamicValues
import Espbase.StackJson.EmitCalls
import Espbase.StackJson.EmitLevel
import Espbase.StackJson.EmitNodes
import Espbase.StackJson.EmitRules
import Espbase.StackJson.Emits
import Espbase.StackJson.EscapedRead
import Espbase.StackJson.EscapedWrite
import Espbase.StackJson.Escapers
import Espbase.StackJson.FlagBlind
import Espbase.StackJson.FlagLights
import Espbase.StackJson.Flags
import Espbase.StackJson.FlatPath
import Espbase.StackJson.IntegerText
import Espbase.StackJson.Items
import Espbase.StackJson.KeyRoundTrip
import Espbase.StackJson.LastValue
import Espbase.StackJson.Lookups
import Espbase.StackJson.Members
import Espbase.StackJson.MergeOrder
import Espbase.StackJson.NestedPaths
import Espbase.StackJson.NumberWrite
import Espbase.StackJson.Outcome
import Espbase.StackJson.Overflow
import Espbase.StackJson.ParseRun
import Espbase.StackJson.Parser
import Espbase.StackJson.ParserReuse
import Espbase.StackJson.PrettyBuffer
import Espbase.StackJson.PrettyDoc
import Espbase.StackJson.PrettyDocument
import Espbase.StackJson.PrettyEmits
import Espbase.StackJson.PrettyIndent
import Espbase.StackJson.PrettyPrints
import Espbase.StackJson.PrettyRefused
import Espbase.StackJson.PrettyText
import Espbase.StackJson.PrettyValue
import Espbase.StackJson.PrettyWrite
import Espbase.StackJson.PrinterWrite
import Espbase.StackJson.RoundTrip
import Espbase.StackJson.ScalarLookup
import Espbase.StackJson.Scan
import Espbase.StackJson.SpanBuffer
import Espbase.StackJson.SpanView
import Espbase.StackJson.Stable
import Espbase.StackJson.StackBuffer
import Espbase.StackJson.SubParse
import Espbase.StackJson.TextLookups
import Espbase.StackJson.Value
import Espbase.StackJson.ValueText
import Espbase.StackJson.ValueWrite
import Espbase.YieldingTask.Activation
import Espbase.YieldingTask.Wakeup
