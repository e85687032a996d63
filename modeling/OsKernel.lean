import OsKernel.ByteMemory
import OsKernel.Runs
import OsKernel.Procedures
import OsKernel.WordExpr
import OsKernel.Numerals
import OsKernel.Types
import OsKernel.PmmBitmap
import OsKernel.BitmapPages
import OsKernel.MemoryMap
import OsKernel.Pmm
import OsKernel.PmmAccounting
import OsKernel.PmmSearch
import OsKernel.PmmFreeRange
import OsKernel.PmmOwnership
import OsKernel.PmmInit
import OsKernel.PmmReserved
import OsKernel.PmmMaps
import OsKernel.PmmInitBounds
import OsKernel.PathWalk
import OsKernel.Overwrite
import OsKernel.Traced
import OsKernel.Vmm
import OsKernel.VmmTables
import OsKernel.VmmSpace
import OsKernel.VmmPaths
import OsKernel.VmmRefinement
import OsKernel.VmmRights
import OsKernel.VmmTree
import OsKernel.VmmIsolation
import OsKernel.VmmFailure
import OsKernel.VmmRange
import OsKernel.VmmCanonical
import OsKernel.VmmOrder
import OsKernel.VmmAccess
import OsKernel.VmmMemory
import OsKernel.VmmConservation
import OsKernel.FirstFit
import OsKernel.FirstFitGaps
import OsKernel.FirstFitReuse
import OsKernel.Kmalloc
import OsKernel.MemoryCopy
import OsKernel.Lexicographic
import OsKernel.MemoryCompare
import OsKernel.StringCopy
import OsKernel.KmallocLayout
import OsKernel.KmallocHeap
import OsKernel.KmallocCanonical
import OsKernel.KmallocGaps
import OsKernel.KmallocAlign
import OsKernel.KmallocDoubleFree
import OsKernel.KmallocArith
import OsKernel.SelfTest
import OsKernel.SelfTestHeap
import OsKernel.KmallocUnread
import OsKernel.Pcb
import OsKernel.PcbIdentity
import OsKernel.Scheduler
import OsKernel.RoundRobin
import OsKernel.SchedulerRequeue
import OsKernel.SchedulerFairness
import OsKernel.TextLayout
import OsKernel.Vga
import OsKernel.VgaText
import OsKernel.VgaTerminal
import OsKernel.VgaColour
import OsKernel.VgaBackspace
import OsKernel.Printf
import OsKernel.PrintfNumbers
import OsKernel.PrintfEscapes
import OsKernel.PrintfFormat
import OsKernel.PrintfBounds
import OsKernel.Descriptors
import OsKernel.Interrupts
import OsKernel.ContextSwitch
import OsKernel.PcbLeftover
import OsKernel.Processes
import OsKernel.InterruptEoi
import OsKernel.InterruptReturn
import OsKernel.DescriptorInit
import OsKernel.LogTime
import OsKernel.InterruptController
import OsKernel.Pit
import OsKernel.Pic
import OsKernel.PicRuns
import OsKernel.ConsoleLock
import OsKernel.InterruptDelivery
import OsKernel.InterruptLines
import OsKernel.Sleep
import OsKernel.ConsoleText
import OsKernel.ConsoleLines
import OsKernel.ConsoleTranscript
