import Wineing.GuardedRuns
import Wineing.ControlRecord
import Wineing.LazyVersioning
import Wineing.LazySingleWriter
import Wineing.LazyAtomicRegister
import Wineing.LazyCompareAndSet
import Wineing.ControlProtocol
import Wineing.ResponseSizes
import Wineing.WineingThreads
import Wineing.ControlLog
import Wineing.ControlLoopRefinement
import Wineing.MarketOverrun
import Wineing.ResponseForwarding
import Wineing.ShutdownProgress
import Wineing.MarketReplay
import Wineing.TapeSelection
import Wineing.TapeBounds
import Wineing.LazyCalls
import Wineing.CommandLine
import Wineing.LazyWrapAround
import Wineing.ControlSequence
import Wineing.RejectedRequests
import Wineing.ControlProgress
import Wineing.TapeFiles
import Wineing.ResourceLedger
import Wineing.WineingProcess
import Wineing.SocketLifetimes
import Wineing.MessageBuffers
import Wineing.FormatStrings
import Wineing.ControlLogging
import Wineing.ClientCorrelation
import Wineing.AccessTraces
import Wineing.MalformedCommandLine
import Wineing.FailedCalls
import Wineing.ClientReceiveLoops
import Wineing.RequestCodec
import Wineing.RemoteSession
import Wineing.SessionOverrun
import Wineing.ShutdownTermination
import Wineing.LazyLocking
import Wineing.FailedSends
import Wineing.ProcessEnding
import Wineing.WineingMain
import Wineing.ReplayOrder
import Wineing.CallProgress
