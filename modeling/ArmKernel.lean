import ArmKernel.Boot.Exceptions
import ArmKernel.Boot.Reset
import ArmKernel.Context.Resume
import ArmKernel.Context.Switch
import ArmKernel.Events.Epoll
import ArmKernel.Events.EpollRuns
import ArmKernel.Events.Instances
import ArmKernel.Events.Lifetime
import ArmKernel.Events.RbTree
import ArmKernel.Fs.Bitmap
import ArmKernel.Fs.BitmapRuns
import ArmKernel.Fs.BlockCache
import ArmKernel.Fs.BlockMap
import ArmKernel.Fs.BlocksCount
import ArmKernel.Fs.CacheOrder
import ArmKernel.Fs.Coherence
import ArmKernel.Fs.FileBlocks
import ArmKernel.Fs.FileContents
import ArmKernel.Fs.FileLoop
import ArmKernel.Fs.FileRead
import ArmKernel.Fs.FileRuns
import ArmKernel.Fs.InodeSlots
import ArmKernel.Fs.Mounts
import ArmKernel.Fs.Open
import ArmKernel.Fs.OpenFlags
import ArmKernel.Fs.Ownership
import ArmKernel.Fs.ReadBounds
import ArmKernel.Fs.RoundTrip
import ArmKernel.Fs.Sessions
import ArmKernel.Fs.Upkeep
import ArmKernel.Http.Handle
import ArmKernel.Http.Request
import ArmKernel.Http.Response
import ArmKernel.Http.Truncated
import ArmKernel.Http.Url
import ArmKernel.Ipc.Identifiers
import ArmKernel.Ipc.MsgQueue
import ArmKernel.Ipc.MsgRuns
import ArmKernel.Ipc.MsgSizes
import ArmKernel.Ipc.MsgWakes
import ArmKernel.Ipc.Pipe
import ArmKernel.Ipc.PipeRuns
import ArmKernel.Ipc.PipeWakes
import ArmKernel.Ipc.SharedMem
import ArmKernel.Ipc.SharedMemRuns
import ArmKernel.Irq.Distributor
import ArmKernel.Json.Bounds
import ArmKernel.Json.Literals
import ArmKernel.Json.Parse
import ArmKernel.Json.Print
import ArmKernel.Json.PrintArray
import ArmKernel.Json.Reading
import ArmKernel.Json.RoundTrip
import ArmKernel.Json.Tree
import ArmKernel.Kv.Commit
import ArmKernel.Kv.Corruption
import ArmKernel.Kv.Index
import ArmKernel.Kv.IndexRuns
import ArmKernel.Kv.Overlay
import ArmKernel.Kv.Storage
import ArmKernel.Kv.Transaction
import ArmKernel.Kv.TxnHeap
import ArmKernel.Libc.Blocks
import ArmKernel.Libc.Buffers
import ArmKernel.Libc.Calls
import ArmKernel.Libc.Capacity
import ArmKernel.Libc.Edits
import ArmKernel.Libc.HeapRuns
import ArmKernel.Libc.HeapShape
import ArmKernel.Libc.Input
import ArmKernel.Libc.Malloc
import ArmKernel.Libc.RoundTrip
import ArmKernel.Libc.Stdio
import ArmKernel.Libc.StdioRuns
import ArmKernel.Libc.StringCompare
import ArmKernel.Libc.StringCopy
import ArmKernel.Libc.Strings
import ArmKernel.Libc.Tiling
import ArmKernel.Mm.Alloc
import ArmKernel.Mm.Capacity
import ArmKernel.Mm.ExtentRuns
import ArmKernel.Mm.Extents
import ArmKernel.Mm.Faults
import ArmKernel.Mm.Protect
import ArmKernel.Mm.Recency
import ArmKernel.Mm.Regions
import ArmKernel.Mm.Replacement
import ArmKernel.Mm.Victims
import ArmKernel.Mmu.Sections
import ArmKernel.Mmu.Translation
import ArmKernel.Mqtt.ConnectBounds
import ArmKernel.Mqtt.ConnectPacket
import ArmKernel.Mqtt.Network
import ArmKernel.Mqtt.Protocol
import ArmKernel.Mqtt.RemainingLength
import ArmKernel.Sched.Budget
import ArmKernel.Sched.Deadlines
import ArmKernel.Sched.Fair
import ArmKernel.Sched.FairAccounting
import ArmKernel.Sched.FairQueue
import ArmKernel.Sched.FairRuns
import ArmKernel.Sched.FairWeights
import ArmKernel.Sched.Mlfq
import ArmKernel.Sched.MlfqLines
import ArmKernel.Sched.MlfqRuns
import ArmKernel.Sched.Policies
import ArmKernel.Sched.Quantum
import ArmKernel.Sched.Realtime
import ArmKernel.Sched.Records
import ArmKernel.Sched.Releases
import ArmKernel.Sched.RtList
import ArmKernel.Sched.Scheduler
import ArmKernel.Sched.Selection
import ArmKernel.Ssl.DeviceManager
import ArmKernel.Support.Arm
import ArmKernel.Support.BitSet
import ArmKernel.Support.Bytes
import ArmKernel.Support.Chain
import ArmKernel.Support.Chars
import ArmKernel.Support.Circular
import ArmKernel.Support.Cursor
import ArmKernel.Support.Decimal
import ArmKernel.Support.Fields
import ArmKernel.Support.Heap
import ArmKernel.Support.Lines
import ArmKernel.Support.Network
import ArmKernel.Support.OutBuffer
import ArmKernel.Support.RbErase
import ArmKernel.Support.RbInsert
import ArmKernel.Support.RbMemory
import ArmKernel.Support.RbTree
import ArmKernel.Support.Registry
import ArmKernel.Support.Ring
import ArmKernel.Support.Roster
import ArmKernel.Support.Run
import ArmKernel.Support.Segment
import ArmKernel.Support.Simulation
import ArmKernel.Support.Slots
import ArmKernel.Support.Updates
import ArmKernel.Support.Word
import ArmKernel.Sync.Clock
import ArmKernel.Sync.Condition
import ArmKernel.Sync.HandOff
import ArmKernel.Sync.LockSpec
import ArmKernel.Sync.LockSystem
import ArmKernel.Sync.Monitor
import ArmKernel.Sync.Mutex
import ArmKernel.Sync.Recursive
import ArmKernel.Sync.RecursiveSystem
import ArmKernel.Sync.RwLock
import ArmKernel.Sync.RwSystem
import ArmKernel.Sync.SemRuns
import ArmKernel.Sync.SemSystem
import ArmKernel.Sync.Semaphore
import ArmKernel.Sync.Suspension
import ArmKernel.Sync.TaskControl
import ArmKernel.Sync.WaitLines
import ArmKernel.Sync.WaitQueue
import ArmKernel.Tasks.Accounting
import ArmKernel.Tasks.Table
import ArmKernel.Ws.Clients
import ArmKernel.Ws.Frame
import ArmKernel.Ws.FrameBounds
import ArmKernel.Ws.Handshake
import ArmKernel.Ws.HandshakeHead
import ArmKernel.Ws.RequestHead
import ArmKernel.Ws.Server
