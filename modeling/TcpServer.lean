import TcpServer.Lib.Machine
import TcpServer.Lib.Threads
import TcpServer.Lib.SharedOwner
import TcpServer.Thread.AtomicPtrArray
import TcpServer.Thread.LockGuard
import TcpServer.Event.Dispatcher
import TcpServer.Event.Post
import TcpServer.Event.DeferredDelete
import TcpServer.Event.ThreadLocalDelete
import TcpServer.Event.Drain
import TcpServer.Event.Steps
import TcpServer.Event.RunPostCallbacks
import TcpServer.Event.FileEvent
import TcpServer.Buffer.Slice
import TcpServer.Buffer.SliceDeque
import TcpServer.Buffer.OwnedImpl
import TcpServer.Buffer.Evolution
import TcpServer.Buffer.Effects
import TcpServer.Buffer.Transfers
import TcpServer.Buffer.Reservation
import TcpServer.Buffer.Pool
import TcpServer.Buffer.Accounting
import TcpServer.Buffer.FragmentMemory
import TcpServer.Buffer.FreeList
import TcpServer.Buffer.Commit
import TcpServer.Buffer.Search
import TcpServer.Buffer.CopyOut
import TcpServer.Buffer.DequeLayout
import TcpServer.Server.WorkerStartup
import TcpServer.Server.WorkerThread
import TcpServer.Server.Initialize
import TcpServer.Server.StartupOrder
import TcpServer.Server.StartupSettles
import TcpServer.Server.WorkerHandlers
import TcpServer.Lib.Numerals
import TcpServer.Network.Address
import TcpServer.Network.AddressEquality
import TcpServer.Network.SockAddr
import TcpServer.Network.Utility
import TcpServer.Network.Copy
import TcpServer.Lib.Keyed
import TcpServer.Server.LifecycleNotifier
import TcpServer.Server.ListenerLookup
import TcpServer.Server.ListenerManager
import TcpServer.Lib.GreedyMatch
import TcpServer.Server.CompatibleAddress
import TcpServer.Server.SocketInheritance
import TcpServer.Server.DuplicateAddress
import TcpServer.Server.ConnectionHandler
import TcpServer.Server.DualStack
import TcpServer.Buffer.Contents
import TcpServer.Buffer.Integers
import TcpServer.Buffer.Refinement
import TcpServer.Buffer.DrainTracker
import TcpServer.Lib.Chain
import TcpServer.Lib.Chunks
import TcpServer.Network.UdpRead
import TcpServer.Network.UdpSegments
import TcpServer.Network.UdpPackets
import TcpServer.Network.UdpMessages
import TcpServer.Common.WeightedCluster
import TcpServer.Lib.Intervals
import TcpServer.Lib.OrderedSet
import TcpServer.Common.IntervalSet
import TcpServer.Lib.Indices
import TcpServer.Common.RemoveCharacters
import TcpServer.Common.TrieLookupTable
import TcpServer.Lib.LongestPrefix
import TcpServer.Common.TrieLongestPrefix
import TcpServer.Common.AccessLogDateTimeFormatter
import TcpServer.Lib.Tokens
import TcpServer.Common.Tokens
import TcpServer.Common.Assert
import TcpServer.Common.DateFormatter
import TcpServer.Common.DateFormatterCache
import TcpServer.Lib.FormattedInput
import TcpServer.Network.PortRanges
import TcpServer.Network.LocalAddress
import TcpServer.Network.PipePaths
import TcpServer.Lib.PrefixCode
import TcpServer.Network.SocketOption
import TcpServer.Lib.Prefetch
import TcpServer.Common.UuidText
import TcpServer.Common.RandomGenerator
import TcpServer.Event.Timer
import TcpServer.Buffer.SliceSize
import TcpServer.Common.MurmurHash
import TcpServer.Common.Primes
import TcpServer.Network.DottedDecimal
import TcpServer.Common.Itoa
import TcpServer.Common.Strtoull
import TcpServer.Common.RaiiElements
import TcpServer.Lib.InPlace
import TcpServer.Common.EscapeToOstream
import TcpServer.Network.FlipOrder
