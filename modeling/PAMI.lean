import PAMI.Atomic.BarrierSafety
import PAMI.Collsel.MessageMap
import PAMI.Collsel.RoundTrip
import PAMI.Common.Conversion
import PAMI.Common.Intersection
import PAMI.Common.NodeTopologies
import PAMI.Composite.MultiColorCompositeT
import PAMI.Cshmem.BufferHandout
import PAMI.Datatype.CursorStack
import PAMI.Datatype.TypeEnumerator
import PAMI.Executor.Allgather
import PAMI.Executor.AllgathervRuns
import PAMI.Executor.AllreduceSystem
import PAMI.Executor.AlltoallvRuns
import PAMI.Executor.BarrierSafety
import PAMI.Executor.GatherRuns
import PAMI.Executor.Scan
import PAMI.Executor.ScatterRuns
import PAMI.Fifo.FifoMemory
import PAMI.Fifo.Sequence
import PAMI.Generic.DeviceRuns
import PAMI.M2m.Manytomany
import PAMI.Memory.MemoryAllocator
import PAMI.Memory.References
import PAMI.Protocol.AsyncBroadcastRuns
import PAMI.Protocol.DeterministicFence
import PAMI.Protocol.EagerOrder
import PAMI.Protocol.EagerReceive
import PAMI.Protocol.PutOverSend
import PAMI.Protocol.TypedGet
import PAMI.Pwq.MulticastRuns
import PAMI.Pwq.TransferRuns
import PAMI.Queue.CircularQueue
import PAMI.Queue.Deque
import PAMI.Queue.MultiQueueSafety
import PAMI.Schedule.DstUnion
import PAMI.Schedule.PhaseLaw
import PAMI.Schedule.RingExecution
import PAMI.Schedule.TreeUnions
import PAMI.Shmem.CollectiveRelease
import PAMI.Shmem.DispatchOrder
import PAMI.Shmem.Packet
import PAMI.Shmem.PacketOrder
import PAMI.TspColl.AlltoallRuns
import PAMI.TspColl.Broadcast
import PAMI.TspColl.GatherToRoot
import PAMI.TspColl.LongAllreduce
import PAMI.TspColl.PrefixSums
import PAMI.TspColl.ShortAllreduce
import PAMI.WorkQueue.RingReduced
import PAMI.WorkQueue.SharedQueueRuns
import PAMI.WorkQueue.SharedQueueWraps
import PAMI.WorkQueue.TypedQueue
