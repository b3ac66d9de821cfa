import Acess2.KernelHeapReallocateLimits
import Acess2.RWLockWaiters
import Acess2.SemaphoreConservation
import Acess2.PhysMemRange
import Acess2.PhysMemOwnership
import Acess2.PhysMemCompleteness
import Acess2.VfsHandleSets
import Acess2.VfsMountTree
import Acess2.VfsMarshal
import Acess2.VfsSelectExact
import Acess2.VfsSelectWakeups
import Acess2.ChildReaping
import Acess2.ThreadsPriority
import Acess2.ThreadEvents
import Acess2.IpcMessages
import Acess2.Timers
import Acess2.InodeCache
import Acess2.VfsMMap
import Acess2.PhysMemLimit
import Acess2.IoCacheSize
import Acess2.LvmVolumes
import Acess2.LvmSubVolumes
import Acess2.Fifo
import Acess2.DgramPipes
import Acess2.Ptys
import Acess2.BinaryMapping
import Acess2.Ipv4
import Acess2.RouteTable
import Acess2.FatNodeCache
import Acess2.FatRead
import Acess2.HwAddrLearning
import Acess2.UdpPorts
import Acess2.VfsMountOptions
import Acess2.VfsSelectNode
import Acess2.KernelHeapSizes
import Acess2.TcpNames
import Acess2.TcpPorts
import Acess2.PhysMemReferences
import Acess2.VTermScrolling
import Acess2.Vt100Progress
import Acess2.Divisions
import Acess2.LibcMemory
