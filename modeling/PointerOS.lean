import PointerOS.ByteMemory
import PointerOS.LinkedList
import PointerOS.CircularList
import PointerOS.BuddyBlocks
import PointerOS.Buddy
import PointerOS.BuddyLists
import PointerOS.BuddyInvariant
import PointerOS.BuddyRuns
import PointerOS.Slab
import PointerOS.SlabLists
import PointerOS.SlabCarve
import PointerOS.SlabObjects
import PointerOS.Kmalloc
import PointerOS.HeapInvariant
import PointerOS.HeapSteps
import PointerOS.HeapBlocks
import PointerOS.HeapRuns
import PointerOS.BuddyRequests
import PointerOS.BuddyCanonical
import PointerOS.KmallocSizes
import PointerOS.SlabCaches
import PointerOS.Bitmap
import PointerOS.Pmm
import PointerOS.BootInfo
import PointerOS.BootBlock
import PointerOS.InitPmm
import PointerOS.RealMemory
import PointerOS.BootData
import PointerOS.RadixTree
import PointerOS.PageTables
import PointerOS.PrivateTables
import PointerOS.Vmm
import PointerOS.EntryLookup
import PointerOS.VmmSteps
import PointerOS.VmmCalls
import PointerOS.Isolation
import PointerOS.KernelHalf
import PointerOS.FrameSource
import PointerOS.PageWindow
import PointerOS.IntLoop
import PointerOS.GapList
import PointerOS.LinkedSearch
import PointerOS.Vmalloc
import PointerOS.VmallocNodes
import PointerOS.VmallocRegions
import PointerOS.Stack
import PointerOS.Threads
import PointerOS.KernelHeap
import PointerOS.StackNodes
import PointerOS.Scheduler
import PointerOS.Descriptors
import PointerOS.ReadyRing
import PointerOS.CreationFrame
import PointerOS.Mutexes
import PointerOS.SchedulerRuns
import PointerOS.SchedulerBoard
import PointerOS.SchedulerBoot
import PointerOS.SchedulerState
import PointerOS.LostThreads
import PointerOS.RoundRobin
import PointerOS.StackGrowth
import PointerOS.SpaceSwitch
import PointerOS.Creation
import PointerOS.Teardown
import PointerOS.AddressSpaces
import PointerOS.StackRegions
import PointerOS.RegionPlacement
import PointerOS.SpaceRuns
import PointerOS.ReservedFrames
import PointerOS.PageTree
import PointerOS.MappingLaw
import PointerOS.DirectMap
import PointerOS.DirectMapLaw
import PointerOS.MapUnmap
import PointerOS.LargePages
import PointerOS.Madt
import PointerOS.IoApic
import PointerOS.Ramdisk
import PointerOS.LfbWindow
import PointerOS.HeapPages
import PointerOS.Digits
import PointerOS.FormatText
import PointerOS.Kprintf
import PointerOS.SerialPrint
import PointerOS.Exhaustion
import PointerOS.PageRuns
import PointerOS.Dfs
import PointerOS.Klog
import PointerOS.KlogThreads
import PointerOS.InterruptFlag
import PointerOS.ContextSwitch
import PointerOS.SavedFrames
import PointerOS.Lfb
import PointerOS.Terminal
import PointerOS.StackCode
import PointerOS.Interrupts
import PointerOS.InterruptReturn
import PointerOS.Syscalls
import PointerOS.SyscallRuns
import PointerOS.BootPaging
import PointerOS.LogConsole
import PointerOS.AcpiTables
import PointerOS.Segments
