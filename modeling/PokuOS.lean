import PokuOS.Memory
import PokuOS.Chain
import PokuOS.Transition
import PokuOS.Call
import PokuOS.BoundaryTags
import PokuOS.Heap
import PokuOS.HeapList
import PokuOS.HeapRep
import PokuOS.HeapOps
import PokuOS.HeapGrow
import PokuOS.HeapFree
import PokuOS.HeapClient
import PokuOS.HeapRelease
import PokuOS.HeapSizes
import PokuOS.Task
import PokuOS.Sched
import PokuOS.RunQueue
import PokuOS.SchedInv
import PokuOS.SchedRun
import PokuOS.Picking
import PokuOS.Pressure
import PokuOS.Paging
import PokuOS.Elf
import PokuOS.ElfConfined
import PokuOS.AddressSpace
import PokuOS.KernelHalf
import PokuOS.Path
import PokuOS.Vfs
import PokuOS.VfsLookup
import PokuOS.Caps
import PokuOS.Chroot
import PokuOS.VfsCreate
import PokuOS.CreateLookup
import PokuOS.Memfs
import PokuOS.MemfsRun
import PokuOS.PageCache
import PokuOS.Tar
import PokuOS.Tarfs
import PokuOS.TarfsRun
import PokuOS.Process
import PokuOS.Frame
import PokuOS.Profile
import PokuOS.Wait
import PokuOS.Watchdog
import PokuOS.RestartPolicy
import PokuOS.SpawnWindow
import PokuOS.Programs
import PokuOS.Sandbox
import PokuOS.TableInv
import PokuOS.SandboxRun
import PokuOS.TaskInv
import PokuOS.MemLimit
import PokuOS.TierBoundary
import PokuOS.Locks
import PokuOS.Inherit
import PokuOS.Inversion
import PokuOS.MutexSafety
import PokuOS.Quota
import PokuOS.Bursts
import PokuOS.Enduring
import PokuOS.Refs
import PokuOS.RefsRun
import PokuOS.Orphans
import PokuOS.FdTable
import PokuOS.OpenFiles
import PokuOS.Opening
import PokuOS.View
import PokuOS.WriteCap
import PokuOS.Ledger
import PokuOS.Owners
import PokuOS.SpaceOwners
import PokuOS.Directories
import PokuOS.Isolation
import PokuOS.Cells
import PokuOS.TextZipper
import PokuOS.PoviString
import PokuOS.PoviBuffer
import PokuOS.PoviEditor
import PokuOS.PoviFile
import PokuOS.Povi
import PokuOS.PoviTurn
import PokuOS.PoviRun
import PokuOS.FrameBytes
import PokuOS.ForkLoop
import PokuOS.ForkCopy
import PokuOS.HeapFit
import PokuOS.PageRun
import PokuOS.HeapPaged
import PokuOS.HeapBacked
import PokuOS.Teardown
import PokuOS.SpaceFrames
import PokuOS.ForkFrames
import PokuOS.ForkExact
import PokuOS.ForkFail
import PokuOS.Mounts
import PokuOS.Archive
import PokuOS.BlockDevice
import PokuOS.UserString
import PokuOS.TrapDump
import PokuOS.FramePool
import PokuOS.ShellArgs
import PokuOS.UserRange
import PokuOS.ArgStack
import PokuOS.HeapHistory
import PokuOS.UserMemory
