import Pintos.Lib.ListOps
import Pintos.Lib.ListSort
import Pintos.Lib.HashMap
import Pintos.Lib.Arithmetic
import Pintos.Threads.Semaphore
import Pintos.Threads.SetPriority
import Pintos.Threads.Condition
import Pintos.Threads.MlfqsBounds
import Pintos.Devices.Timer
import Pintos.Filesys.Remount
import Pintos.Filesys.Extract
import Pintos.Userprog.Exec
import Pintos.Userprog.FilesysLock
import Pintos.Userprog.Arguments
import Pintos.Userprog.PageTableMap
import Pintos.Threads.Init
import Pintos.Threads.PageAllocator
import Pintos.Threads.HeapInvariant
import Pintos.Userprog.Syscall
import Pintos.Vm.Mmap
import Pintos.Vm.StackGrowth
import Pintos.Vm.FrameLock
import Pintos.Vm.FrameTable
import Pintos.Vm.Eviction
import Pintos.Vm.PageIn
import Pintos.Lib.Memmove
