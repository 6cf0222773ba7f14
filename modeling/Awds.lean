import Awds.Lib.Run
import Awds.Lib.Multimap
import Awds.Gea.Basic
import Awds.Posix.Loop
import Awds.Posix.Step
import Awds.Posix.Accounting
import Awds.Posix.Status
import Awds.Posix.Depend
import Awds.Posix.EventTime
import Awds.Posix.Fd
import Awds.Posix.Queue
import Awds.Posix.Clock
import Awds.Lib.Descriptors
import Awds.Posix.UdpHandle
import Awds.Lib.Inet
import Awds.Lib.FirstBest
import Awds.Posix.GuessIface
import Awds.Posix.Address
import Awds.Lib.LinkedList
import Awds.Posix.PendList
import Awds.Lib.Allocator
import Awds.Posix.Lifetime
import Awds.Lib.CString
import Awds.Lib.Segments
import Awds.Posix.GeaStart
import Awds.Posix.ParseCmd
import Awds.Ns2.Machine
import Awds.Ns2.Step
import Awds.Ns2.Invariant
import Awds.Ns2.Udp
import Awds.Ns2.Depend
import Awds.Ns2.Node
import Awds.Ns2.EventTime
import Awds.Lib.StableQueue
import Awds.Lib.BinaryHeap
import Awds.Lib.SearchTree
import Awds.Ns2.Scheduler
import Awds.Ns2.Heap
import Awds.Ns2.Splay
import Awds.Ns2.Calendar
import Awds.Ns2.OnScheduler
import Awds.Gea.Program
import Awds.Gea.Twin
import Awds.Gea.Agree
import Awds.Gea.RunToCompletion
import Awds.Lib.BigEndian
import Awds.Gea.FixNum
import Awds.Gea.Duration
import Awds.Gea.MultiShoot
import Awds.Lib.Connect
import Awds.Lib.Xml
import Awds.Topo.Panel
import Awds.Topo.Node
import Awds.Topo.Shape
import Awds.Topo.Grow
import Awds.Topo.Labels
import Awds.Topo.Update
import Awds.Topo.Calls
import Awds.Topo.Represent
import Awds.Topo.Parser
import Awds.Topo.Stream
import Awds.Topo.Integrity
import Awds.Topo.Counters
import Awds.Topo.Edits
import Awds.Topo.Save
import Awds.Topo.Load
import Awds.Topo.RoundTrip
import Awds.Topo.Positions
import Awds.Topo.Quality
import Awds.Topo.RemoveEdge
import Awds.Topo.Reads
import Awds.Topo.AttributeOrder
import Awds.Topo.Partition
import Awds.Lib.Bfs
import Awds.Topo.Distances
import Awds.Topo.Locality
import Awds.Topo.Browse
import Awds.Topo.Commands
import Awds.Topo.Sessions
import Awds.Lib.Layout
import Awds.Wireshark.Dissector
import Awds.Wireshark.Format
import Awds.Wireshark.Lossless
import Awds.Wireshark.Columns
