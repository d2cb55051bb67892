import ComputerScience.CPrimer.ListAdt
import ComputerScience.CPrimer.SGets
import ComputerScience.Kvraft.Appends
import ComputerScience.Kvraft.MakePartition
import ComputerScience.Kvraft.Partition
import ComputerScience.Labgob.CheckType
import ComputerScience.Labrpc.Delivery
import ComputerScience.Labrpc.Killed
import ComputerScience.Labrpc.Network
import ComputerScience.Labrpc.Request
import ComputerScience.Lib.Backtrack
import ComputerScience.Lib.CString
import ComputerScience.Lib.CallLog
import ComputerScience.Lib.Cells
import ComputerScience.Lib.Chain
import ComputerScience.Lib.Dancing
import ComputerScience.Lib.Decimal
import ComputerScience.Lib.Dfs
import ComputerScience.Lib.Fields
import ComputerScience.Lib.ForkJoin
import ComputerScience.Lib.Goto
import ComputerScience.Lib.Grouping
import ComputerScience.Lib.Http
import ComputerScience.Lib.Linearizability
import ComputerScience.Lib.Loop
import ComputerScience.Lib.Occurrences
import ComputerScience.Lib.Pool
import ComputerScience.Lib.Rearrange
import ComputerScience.Lib.TransitionSystem
import ComputerScience.Lib.Utf8
import ComputerScience.Lib.While
import ComputerScience.Lib.Word
import ComputerScience.MachineControl.Pcount
import ComputerScience.MapReduce.Apps
import ComputerScience.MapReduce.Sequential
import ComputerScience.Matmult.Bmm
import ComputerScience.Matmult.Mm
import ComputerScience.Mountain.Sampler
import ComputerScience.Mountain.Stride
import ComputerScience.Multiplexer.Mux
import ComputerScience.Multiplexer.MuxSafety
import ComputerScience.Netprog.EchoSession
import ComputerScience.Netprog.ProcessServer
import ComputerScience.Optimization.SumRows
import ComputerScience.Porcupine.Bitset
import ComputerScience.Porcupine.CheckEvents
import ComputerScience.Porcupine.CheckOperations
import ComputerScience.Porcupine.CheckSingle
import ComputerScience.Porcupine.Checker
import ComputerScience.Porcupine.Histories
import ComputerScience.Porcupine.KvModel
import ComputerScience.Porcupine.LinkedEntries
import ComputerScience.Porcupine.Parallel
import ComputerScience.Porcupine.Prefixes
import ComputerScience.Pqsort.Blocks
import ComputerScience.Pqsort.Dcopy
import ComputerScience.Pqsort.DcopyWidths
import ComputerScience.Pqsort.Group
import ComputerScience.Pqsort.Layout
import ComputerScience.Pqsort.Partition
import ComputerScience.Pqsort.PartitionCall
import ComputerScience.Pqsort.PartitionParallel
import ComputerScience.Pqsort.SortTask
import ComputerScience.Pqsort.SweepAccess
import ComputerScience.Pqsort.TaskPeak
import ComputerScience.Pqsort.TaskQueue
import ComputerScience.Pqsort.Tqsort
import ComputerScience.Psum.Agree
import ComputerScience.Psum.Mutex
import ComputerScience.Psum.Routines
import ComputerScience.PubSub.ServerV1
import ComputerScience.PubSub.ServerV1Law
import ComputerScience.PubSub.ServerV2
import ComputerScience.RaftConfig.Connectivity
import ComputerScience.RaftConfig.Logs
import ComputerScience.RaftConfig.SnapLogs
import ComputerScience.Replicated.CallV2
import ComputerScience.Replicated.CallV3
import ComputerScience.Replicated.Fanout
import ComputerScience.Rio.Buffered
import ComputerScience.Rio.Cpfile
import ComputerScience.Rio.Echo
import ComputerScience.Rio.LineCopy
import ComputerScience.Rio.Posix
import ComputerScience.Rio.Robust
import ComputerScience.Rio.Sending
import ComputerScience.Rio.Unbuffered
import ComputerScience.Scheduler.CircularWait
import ComputerScience.Scheduler.DynamicServers
import ComputerScience.Scheduler.FixedServers
import ComputerScience.Scheduler.IdleNames
import ComputerScience.Scheduler.PerTaskDone
import ComputerScience.Scheduler.Retry
import ComputerScience.Scheduler.RetryNames
import ComputerScience.Shell.Eval
import ComputerScience.Shell.Parseline
import ComputerScience.Signals.Procmask
import ComputerScience.Signals.Reaping
import ComputerScience.Signals.Waiting
import ComputerScience.Sio.Ltoa
import ComputerScience.Sync.Counters
import ComputerScience.Sync.EchoCnt
import ComputerScience.Sync.Prethreaded
import ComputerScience.Sync.PrethreadedEcho
import ComputerScience.Sync.Races
import ComputerScience.Sync.ReadersWriters
import ComputerScience.Sync.Sbuf
import ComputerScience.Sync.SbufWrap
import ComputerScience.Tiny.Adder
import ComputerScience.Tiny.Doit
import ComputerScience.Tiny.Headers
import ComputerScience.Tiny.Transaction
