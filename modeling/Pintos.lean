import Pintos.Lib.Interaction
import Pintos.Lib.Placement
import Pintos.Lib.Transition
import Pintos.Devices.PartitionScan
import Pintos.Filesys.FlatFile
import Pintos.Filesys.Sectors
import Pintos.Filesys.Formatting
import Pintos.Kernel.ListRuns
import Pintos.Kernel.HashTable
import Pintos.Threads.MallocRuns
import Pintos.Userprog.PageMaps
import Pintos.Userprog.Stack
import Pintos.Prj0.BitmapRuns
import Pintos.Prj0.HashCommands
import Pintos.Prj0.NameTable
import Pintos.Prj0.Cores
import Pintos.Prj0.Names
import Pintos.Prj0.ListIntegrity
import Pintos.Prj1.IntqRuns
import Pintos.Prj2.FileCalls
import Pintos.Prj2.UserPointers
import Pintos.Prj3.Invariant
import Pintos.Prj3.ThreadStates
import Pintos.Prj3.SemaOrder
import Pintos.Prj3.Preemption
import Pintos.Prj3.Deadline
import Pintos.Prj3.UpContexts
import Pintos.Prj3.TimeSlice
import Pintos.Prj3.Crowd
import Pintos.Prj3.SleepQueue
import Pintos.Prj3.Semaphores
import Pintos.Prj3.Locks
import Pintos.Prj3.Broadcasts
import Pintos.Prj3.Aging
import Pintos.Prj3.LoadAverage
import Pintos.Prj3.Fairness
import Pintos.Archive.RoundTrip
import Pintos.Prj3.SignalOrder
import Pintos.Prj3.FrontReads
import Pintos.Prj0.SwapPlaces
import Pintos.Prj0.Shuffle
import Pintos.Prj0.UniqueBlocks
import Pintos.Prj0.ListSort
import Pintos.Userprog.ProgramName
import Pintos.Threads.Sizes
import Pintos.Prj2.Fibonacci
import Pintos.Filesys.DenyRuns
import Pintos.Filesys.CreateAtomic
import Pintos.Archive.Untrusted
import Pintos.Filesys.Extracting
import Pintos.Kernel.HashIter
import Pintos.Lib.HeapOrder
import Pintos.Lib.LongDivision
import Pintos.Libc.Arithmetic
import Pintos.Libc.BinarySearch
import Pintos.Libc.FormatInteger
import Pintos.Libc.HeapSort
import Pintos.Libc.ReadNumber
import Pintos.Libc.Vsnprintf
import Pintos.Devices.Rtc
import Pintos.Prj2.ExecResult
import Pintos.Prj2.Lifecycle
