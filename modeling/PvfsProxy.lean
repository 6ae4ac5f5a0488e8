import PvfsProxy.Lib.StableSort
import PvfsProxy.Lib.Machine
import PvfsProxy.Llist
import PvfsProxy.Proxy2
import PvfsProxy.Lib.RoundRobin
import PvfsProxy.Striping
import PvfsProxy.StripingRanges
import PvfsProxy.SchedulerMain
import PvfsProxy.Sfqd
import PvfsProxy.SfqdSlots
import PvfsProxy.Lib.StartTimeFair
import PvfsProxy.Lib.Bypass
import PvfsProxy.SfqdFairness
import PvfsProxy.SfqdBypass
import PvfsProxy.SfqdTags
import PvfsProxy.SfqdFull
import PvfsProxy.SfqdFullOrder
import PvfsProxy.SfqdFullRun
import PvfsProxy.SfqdFullDepth
import PvfsProxy.SfqdFullProgress
import PvfsProxy.SfqdFullBypass
import PvfsProxy.Dsfq
import PvfsProxy.DsfqBypass
import PvfsProxy.DsfqRemote
import PvfsProxy.ServerConfig
import PvfsProxy.Broadcast
import PvfsProxy.DsfqBroadcast
import PvfsProxy.DsfqThreshold
import PvfsProxy.DsfqTransfer
import PvfsProxy.DsfqLines
import PvfsProxy.Heap
import PvfsProxy.HeapOrder
import PvfsProxy.Sfqd2
import PvfsProxy.Sfqd2Classes
import PvfsProxy.Sfqd2Lines
import PvfsProxy.Sfqd3
import PvfsProxy.HeapQueues
import PvfsProxy.Vdsfq
import PvfsProxy.VdsfqBroadcast
import PvfsProxy.VdsfqNetwork
import PvfsProxy.VdsfqLines
import PvfsProxy.Twolsfqd
import PvfsProxy.TwolsfqdDispatch
import PvfsProxy.SchedulerLines
import PvfsProxy.Schedulers
import PvfsProxy.SchedulerSizes
import PvfsProxy.SocketPool
import PvfsProxy.Message
import PvfsProxy.MainLoop
import PvfsProxy.Sfqd3Depths
import PvfsProxy.Sfqd3Order
import PvfsProxy.Sfqd3Shares
import PvfsProxy.Frame
import PvfsProxy.Handlers
import PvfsProxy.Responses
import PvfsProxy.Receiving
import PvfsProxy.TwolsfqdRuns
import PvfsProxy.TwolsfqdCredits
import PvfsProxy.TwolsfqdDeadlines
import PvfsProxy.TwolsfqdMoves
import PvfsProxy.TwolsfqdPlaces
import PvfsProxy.TwolsfqdWindows
import PvfsProxy.TwolsfqdLocks
import PvfsProxy.Sockets
import PvfsProxy.Lib.SwapRemove
import PvfsProxy.Pool
import PvfsProxy.PoolPairing
import PvfsProxy.PoolClosing
import PvfsProxy.PoolOwnership
import PvfsProxy.SfqdDisconnect
import PvfsProxy.HookItems
import PvfsProxy.HookCalls
import PvfsProxy.HookStates
import PvfsProxy.HookSteps
import PvfsProxy.HookRuns
import PvfsProxy.Lib.CString
import PvfsProxy.IpRanges
import PvfsProxy.IpLocations
import PvfsProxy.CostModel
import PvfsProxy.PoolArrays
import PvfsProxy.Lib.Loops
import PvfsProxy.Lib.LinkedNodes
import PvfsProxy.LlistNodes
import PvfsProxy.SchedulerConfig
import PvfsProxy.RequestLists
import PvfsProxy.ConfigText
import PvfsProxy.Lib.Formats
import PvfsProxy.Dump
import PvfsProxy.DumpBounds
import PvfsProxy.DumpEncoding
import PvfsProxy.DumpShares
import PvfsProxy.Lib.SlotLine
import PvfsProxy.Lib.SlotTable
import PvfsProxy.Dictionary
import PvfsProxy.Lib.Scanf
import PvfsProxy.Iniparser
import PvfsProxy.IniparserLines
import PvfsProxy.IniparserText
import PvfsProxy.IniparserDump
import PvfsProxy.IniparserKeys
import PvfsProxy.Configuration
import PvfsProxy.ConfigurationLoad
import PvfsProxy.ClientApplications
import PvfsProxy.HeapShape
import PvfsProxy.Lib.CumulativeQuantile
import PvfsProxy.TwolsfqdResponses
