import StreakKernel.AcpuClock.Voltage
import StreakKernel.AndroidAlarm.NotLost
import StreakKernel.Ashmem.PageSet
import StreakKernel.Ashmem.Purge
import StreakKernel.Ashmem.Representation
import StreakKernel.Binder.AllocRun
import StreakKernel.ByteQueue.Queue
import StreakKernel.Datamover.Order
import StreakKernel.EarlySuspend.Alternation
import StreakKernel.FdTable.Safety
import StreakKernel.FileLocks.Deadlock
import StreakKernel.FileLocks.Ranges
import StreakKernel.Kgsl.Overrun
import StreakKernel.ListSort.Calls
import StreakKernel.Logger.Concurrent
import StreakKernel.Logger.Sequential
import StreakKernel.Memblock.Alloc
import StreakKernel.Mmap.VmaMerge
import StreakKernel.NandEcc.Correct
import StreakKernel.PidMap.History
import StreakKernel.PidMap.Next
import StreakKernel.Pmem.BitmapRun
import StreakKernel.Pmem.BuddyRun
import StreakKernel.RbTree.Erase
import StreakKernel.Reassembly.Datagram
import StreakKernel.ResourceTree.Allocate
import StreakKernel.RpcRouter.Delivery
import StreakKernel.RpcRouter.Interleaving
import StreakKernel.RwSem.Exclusion
import StreakKernel.Selinux.Canonical
import StreakKernel.Smd.Framing
import StreakKernel.SocketFilter.Nlattr
import StreakKernel.SysvSem.Undo
import StreakKernel.SysvSem.WakeUp
import StreakKernel.TextSearch.Kmp
import StreakKernel.TimerWheel.Idle
import StreakKernel.TimerWheel.Rounding
import StreakKernel.Wakelock.Suspend
import StreakKernel.Wakelock.UserTimeout
