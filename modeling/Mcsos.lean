import Mcsos.Arch.SyscallEntry
import Mcsos.Block.Durability
import Mcsos.Block.Requests
import Mcsos.Core.Kmain
import Mcsos.Elf.Rejected
import Mcsos.Elf.WriteXorExecute
import Mcsos.Kmem.Safety
import Mcsos.Kmem.Coalesce
import Mcsos.Kmem.FreeExact
import Mcsos.Kmem.Validate
import Mcsos.Kmem.Stats
import Mcsos.M16.FailClosed
import Mcsos.M16.Leak
import Mcsos.M16.Capacity
import Mcsos.M16.SingleByte
import Mcsos.M16.ReadBound
import Mcsos.Mcsfs1.Fsck
import Mcsos.Mcsfs1.Names
import Mcsos.Mcsfs1.ReadDelivered
import Mcsos.Mcsfs1.CreateUnique
import Mcsos.Mcsfs1.BitmapBounds
import Mcsos.Mcsfs1.Space
import Mcsos.Pmm.BootMap
import Mcsos.Pmm.FirstFit
import Mcsos.Pmm.Reserve
import Mcsos.Sched.Coroutines
import Mcsos.Sched.RoundRobin
import Mcsos.Sync.Mutex
import Mcsos.Sync.Spinlock
import Mcsos.Syscall.UserRange
import Mcsos.Vfs.Append
import Mcsos.Vfs.FailedCalls
import Mcsos.Vfs.Paths
import Mcsos.Vfs.Seek
import Mcsos.Vmm.Addresses
import Mcsos.Vmm.Rights
import Mcsos.Klib.Memory
