import HermesShm.Base.Transition
import HermesShm.Base.Pool
import HermesShm.Base.Fairness
import HermesShm.Base.Scoped
import HermesShm.Base.Word
import HermesShm.Base.ByteMem
import HermesShm.Base.Cells
import HermesShm.Base.Arena
import HermesShm.Base.Chain
import HermesShm.Base.Lifo
import HermesShm.Base.Codec
import HermesShm.Base.Custody
import HermesShm.Base.Ledger
import HermesShm.Base.RegionMem
import HermesShm.Base.Mapping
import HermesShm.Base.SharedMemory
import HermesShm.Base.Traced
import HermesShm.Base.Deque
import HermesShm.Base.Sorting
import HermesShm.Base.FixedPoint
import HermesShm.Base.Text
import HermesShm.Base.Lockstep
import HermesShm.Types.BigBitfield
import HermesShm.Types.RealNumber
import HermesShm.Types.OptAtomic
import HermesShm.Thread.TicketLock
import HermesShm.Thread.TicketLockOrder
import HermesShm.Thread.TicketLockRest
import HermesShm.Thread.TicketLockProgress
import HermesShm.Thread.RwLock
import HermesShm.Thread.RwLockExclusion
import HermesShm.Thread.RwLockRest
import HermesShm.Thread.RwLockProgress
import HermesShm.Thread.ScopedLock
import HermesShm.Ipc.NodeHeap
import HermesShm.Ipc.HipcVector
import HermesShm.Ipc.HipcVectorSequence
import HermesShm.Ipc.VectorResize
import HermesShm.Ipc.HipcList
import HermesShm.Ipc.HipcListSequence
import HermesShm.Ipc.Slist
import HermesShm.Ipc.SlistSequence
import HermesShm.Ipc.UnorderedMap
import HermesShm.Ipc.UnorderedMapRefines
import HermesShm.Ipc.UnorderedMapCopy
import HermesShm.Ipc.UnorderedMapCopySound
import HermesShm.Ipc.UnorderedMapCopyRuns
import HermesShm.Ipc.RingQueue
import HermesShm.Ipc.RingQueueInv
import HermesShm.Ipc.RingQueueDelivery
import HermesShm.Ipc.RingQueueGrowth
import HermesShm.Ipc.RingQueueProgress
import HermesShm.Ipc.SpscFifo
import HermesShm.Ipc.SpscFifoOrder
import HermesShm.Ipc.MpscLifo
import HermesShm.Ipc.MpscLifoOrder
import HermesShm.Ipc.RingPtrQueue
import HermesShm.Ipc.RingPtrQueueOrder
import HermesShm.Ipc.RingQueueSerial
import HermesShm.Ipc.CircularQueue
import HermesShm.Ipc.SplitTicketQueue
import HermesShm.Ipc.SplitTicketQueueSound
import HermesShm.Ipc.KeySet
import HermesShm.Ipc.MpmcKeySet
import HermesShm.Ipc.MpmcKeySetSound
import HermesShm.Ipc.QueueMove
import HermesShm.Ipc.QueueMoveSound
import HermesShm.Ipc.Lifetime
import HermesShm.Ipc.HipcString
import HermesShm.Ipc.VectorLifetime
import HermesShm.Ipc.VectorLifetimeSound
import HermesShm.Ipc.RingLifetime
import HermesShm.Ipc.RingLifetimeSound
import HermesShm.Ipc.Containers
import HermesShm.Ipc.ContainersSound
import HermesShm.Ipc.StringMemory
import HermesShm.Ipc.StringAssignment
import HermesShm.Ipc.StringResize
import HermesShm.Ipc.StringCompare
import HermesShm.Ipc.FixedString
import HermesShm.Ipc.VectorAssignment
import HermesShm.Ipc.Assignment
import HermesShm.Ipc.RingQueueDeque
import HermesShm.Ipc.RingQueuePeek
import HermesShm.Ipc.RingPtrQueueSerial
import HermesShm.Ipc.DynamicQueue
import HermesShm.Ipc.LifoListIterator
import HermesShm.Ipc.Algorithm
import HermesShm.Ipc.HeapSort
import HermesShm.Ipc.IsSorted
import HermesShm.Memory.MpPage
import HermesShm.Memory.HeapAllocator
import HermesShm.Memory.HeapThreads
import HermesShm.Memory.ListQueue
import HermesShm.Memory.PageAllocator
import HermesShm.Memory.Pages
import HermesShm.Memory.Blocks
import HermesShm.Memory.StackAllocator
import HermesShm.Memory.ScalablePageAllocator
import HermesShm.Memory.ScalablePageAllocatorSound
import HermesShm.Memory.ThreadIds
import HermesShm.Memory.ThreadLocalAllocator
import HermesShm.Memory.ThreadLocalPlacement
import HermesShm.Memory.DoubleFree
import HermesShm.Memory.Reallocate
import HermesShm.Memory.ObjectCalls
import HermesShm.Memory.ObjectCallsSound
import HermesShm.Memory.ObjectCallsCores
import HermesShm.Memory.FallbackList
import HermesShm.Memory.FallbackListInv
import HermesShm.Memory.PageAllocatorThreads
import HermesShm.Memory.PageAllocatorThreadsSound
import HermesShm.Memory.AllocatorRegistry
import HermesShm.Memory.MemoryManager
import HermesShm.Memory.MemoryManagerSound
import HermesShm.Memory.Accounting
import HermesShm.Memory.InProcess
import HermesShm.Memory.InProcessView
import HermesShm.Memory.InProcessRuns
import HermesShm.Memory.StackProcesses
import HermesShm.Memory.PageBytes
import HermesShm.Memory.PageProcesses
import HermesShm.Memory.PageInit
import HermesShm.Memory.PageRuns
import HermesShm.Memory.PosixShmMmap
import HermesShm.Memory.PosixShmMmapSound
import HermesShm.Memory.PosixShmMmapSteps
import HermesShm.Memory.PosixShmMmapRuns
import HermesShm.Memory.PosixShmMmapShared
import HermesShm.Memory.PosixShmMmapLife
import HermesShm.Memory.PageReuse
import HermesShm.Memory.FailedAllocation
import HermesShm.Memory.ShmPointer
import HermesShm.Memory.BaseAllocator
import HermesShm.Memory.NearestAllocator
import HermesShm.Memory.PointerConversion
import HermesShm.Util.Singleton
import HermesShm.Util.ConfigParse
import HermesShm.Util.HostNames
import HermesShm.Util.ExpandPath
import HermesShm.Util.Formatter
import HermesShm.Serialization.LocalSerialize
import HermesShm.Serialization.RoundTrip
import HermesShm.Serialization.LoadTarget
import HermesShm.Serialization.FixedStringRuns
