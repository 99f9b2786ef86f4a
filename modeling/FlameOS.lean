import FlameOS.Word
import FlameOS.WordSet
import FlameOS.ByteMem
import FlameOS.FrameAlloc
import FlameOS.Pool
import FlameOS.FrameRun
import FlameOS.ForeignFree
import FlameOS.Trie
import FlameOS.PageTable
import FlameOS.MapPage
import FlameOS.MapSpec
import FlameOS.MapRun
import FlameOS.Slots
import FlameOS.HeapTable
import FlameOS.HeapArena
import FlameOS.Heap
import FlameOS.Boot
import FlameOS.Backing
import FlameOS.Aliasing
import FlameOS.HeapSafety
import FlameOS.TableAccess
import FlameOS.AllocMap
import FlameOS.ZeroFrame
import FlameOS.Unmap
import FlameOS.AddressSpace
import FlameOS.HeapWhole
import FlameOS.Refresh
import FlameOS.Coalesce
import FlameOS.HeapExact
import FlameOS.FreePages
import FlameOS.Fat
import FlameOS.FatRead
import FlameOS.RootDir
import FlameOS.ShortRead
import FlameOS.InitDisk
import FlameOS.StepLoop
import FlameOS.FatName
import FlameOS.FatFind
import FlameOS.LongNames
import FlameOS.NameMemory
import FlameOS.SectorReads
import FlameOS.SearchEnds
import FlameOS.MemoryMap
import FlameOS.BootPaging
import FlameOS.Bootloader
import FlameOS.BootTables
import FlameOS.Handover
import FlameOS.PIO
import FlameOS.SectorIO
import FlameOS.FileSystem
import FlameOS.OpenPath
import FlameOS.PathMemory
import FlameOS.FileRuns
import FlameOS.Handles
import FlameOS.FileLeak
import FlameOS.OpenFail
import FlameOS.Memcmp
import FlameOS.Itoa
import FlameOS.DebugLog
import FlameOS.LogFormat
import FlameOS.ErrorLog
import FlameOS.Writes
import FlameOS.Plot
import FlameOS.Tga
import FlameOS.PortTrace
import FlameOS.BootMemory
import FlameOS.ElfLoad
import FlameOS.BitmapSpan
import FlameOS.FillRect
import FlameOS.TgaAccess
import FlameOS.Records
import FlameOS.Descriptors
import FlameOS.Gdt
import FlameOS.Idt
import FlameOS.Devices
import FlameOS.Pic
import FlameOS.Timer
import FlameOS.Runs
import FlameOS.Arbiter
import FlameOS.Interrupts
import FlameOS.InterruptRuns
import FlameOS.Waiting
import FlameOS.BlockStore
import FlameOS.BlockMemory
import FlameOS.CString
import FlameOS.HeapIsolation
import FlameOS.Scene
import FlameOS.Capacity
import FlameOS.Startup
import FlameOS.Switch
