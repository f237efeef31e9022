import AtomicSim.AtomicUpdate
import AtomicSim.Barriers
import AtomicSim.Compile.Aggregate
import AtomicSim.Compile.Aliases
import AtomicSim.Compile.Canonical
import AtomicSim.Compile.GetElementPtr
import AtomicSim.Compile.Interning
import AtomicSim.Compile.Lanes
import AtomicSim.Compile.Padding
import AtomicSim.Compile.Scalars
import AtomicSim.Compile.Stride
import AtomicSim.Deadlock
import AtomicSim.Heap
import AtomicSim.Independence
import AtomicSim.Interleaving
import AtomicSim.Ir.Program
import AtomicSim.Ir.Settling
import AtomicSim.Native.Condvar
import AtomicSim.Native.Join
import AtomicSim.Native.Llvm
import AtomicSim.Native.LostUpdate
import AtomicSim.Native.Strings
import AtomicSim.Polling
import AtomicSim.Progress
import AtomicSim.RaceFreedom
import AtomicSim.SingleThread
import AtomicSim.ThreadLocals
import AtomicSim.Util.Allocator
import AtomicSim.Util.FreeList
import AtomicSim.Util.Mutex
import AtomicSim.Util.RangeErase
import AtomicSim.Util.RangeQueries
import AtomicSim.Util.Recursor
