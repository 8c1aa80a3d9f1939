import MiniKernel.Theory.Word
import MiniKernel.Theory.ByteMemory
import MiniKernel.Theory.Program
import MiniKernel.Theory.Unrolling
import MiniKernel.Theory.Transition
import MiniKernel.Theory.WordSet
import MiniKernel.Theory.Comparison
import MiniKernel.Theory.MemoryBits
import MiniKernel.Theory.Numeral
import MiniKernel.Theory.Text
import MiniKernel.Kernel.SortedArray
import MiniKernel.Kernel.SortedRuns
import MiniKernel.Kernel.SortedCells
import MiniKernel.Kernel.Frames
import MiniKernel.Kernel.Paging
import MiniKernel.Kernel.FrameOwnership
import MiniKernel.Kernel.FrameSet
import MiniKernel.Kernel.FrameRepeat
import MiniKernel.Kernel.FlatPaging
import MiniKernel.Kernel.BootLayout
import MiniKernel.Kernel.BootIdentity
import MiniKernel.Kernel.BootOverrun
import MiniKernel.Kernel.Translation
import MiniKernel.Kernel.Cpu
import MiniKernel.Kernel.Interrupts
import MiniKernel.Kernel.Dispatch
import MiniKernel.Kernel.StubContext
import MiniKernel.Kernel.SwitchThread
import MiniKernel.Kernel.TimerFrame
import MiniKernel.Kernel.ThreadContext
import MiniKernel.Theory.LinkedQueue
import MiniKernel.Kernel.Scheduler
import MiniKernel.Kernel.ReadyQueue
import MiniKernel.Kernel.RoundRobin
import MiniKernel.Kernel.ThreadStatements
import MiniKernel.Kernel.Preemption
import MiniKernel.Kernel.Memory
import MiniKernel.Kernel.Heap
import MiniKernel.Kernel.SortedKeys
import MiniKernel.Theory.Tiling
import MiniKernel.Kernel.HeapBlocks
import MiniKernel.Kernel.HeapIndex
import MiniKernel.Kernel.HeapInvariant
import MiniKernel.Kernel.HeapPages
import MiniKernel.Kernel.HeapServe
import MiniKernel.Kernel.HeapGrow
import MiniKernel.Kernel.HeapFree
import MiniKernel.Kernel.HeapRuns
import MiniKernel.Kernel.HeapIsolation
import MiniKernel.Kernel.HeapSafety
import MiniKernel.Kernel.HeapBestFit
import MiniKernel.Kernel.HeapInPlace
import MiniKernel.Kernel.HeapAligned
import MiniKernel.Kernel.HeapCoalesce
import MiniKernel.Kernel.HeapTrim
import MiniKernel.Kernel.HeapRelease
import MiniKernel.Kernel.HeapExpand
import MiniKernel.Kernel.HeapBounds
import MiniKernel.Kernel.HeapGrowth
import MiniKernel.Kernel.BitsetStorage
import MiniKernel.Kernel.HeapLimits
import MiniKernel.Kernel.HeapEnds
import MiniKernel.Kernel.HeapEndless
import MiniKernel.Kernel.PageWalk
import MiniKernel.Kernel.PageTables
import MiniKernel.Kernel.Screen
import MiniKernel.Kernel.Console
import MiniKernel.Kernel.ConsoleThreads
import MiniKernel.Kernel.Keyboard
import MiniKernel.Kernel.Vsprintf
import MiniKernel.Kernel.FormatText
import MiniKernel.Kernel.VsprintfWrites
import MiniKernel.Kernel.VsprintfRun
import MiniKernel.Kernel.NumberText
import MiniKernel.Kernel.Printk
import MiniKernel.Kernel.KernelMessages
import MiniKernel.Kernel.FaultMessage
import MiniKernel.Kernel.SharedBuffer
import MiniKernel.Kernel.InterruptRequests
import MiniKernel.Kernel.HeapRoundTrip
import MiniKernel.Kernel.Kmalloc
import MiniKernel.Kernel.Placement
import MiniKernel.Kernel.MainRun
import MiniKernel.Kernel.Segments
import MiniKernel.Kernel.Timer
