import RealmVm.Basic
import RealmVm.Boot.AddressSpace
import RealmVm.Boot.EnableMmap
import RealmVm.Boot.HeapFrames
import RealmVm.Boot.HostView
import RealmVm.Boot.Relocation
import RealmVm.Boot.RelocationPhases
import RealmVm.Boot.StartUp
import RealmVm.Elf.Format
import RealmVm.Elf.LoadExecutable
import RealmVm.Elf.LoadReads
import RealmVm.Elf.LoadRuns
import RealmVm.Elf.LoadedImage
import RealmVm.Elf.Mapping
import RealmVm.Elf.Segment
import RealmVm.Elf.SegmentPermissions
import RealmVm.Elf.StaleFrames
import RealmVm.Exception.Handlers
import RealmVm.Exception.Requests
import RealmVm.Exception.RestoreState
import RealmVm.Exception.Sessions
import RealmVm.Exception.SystemCalls
import RealmVm.Exception.Vectors
import RealmVm.Exec.Execve
import RealmVm.Exec.HeapBlocks
import RealmVm.Exec.InitialStack
import RealmVm.Exec.NewProcess
import RealmVm.Exec.StackStores
import RealmVm.Fd.Append
import RealmVm.Fd.Deletion
import RealmVm.Fd.FileCalls
import RealmVm.Fd.LowestFree
import RealmVm.Fd.OpenFiles
import RealmVm.Fd.Ordered
import RealmVm.Fd.OrderedRuns
import RealmVm.Fd.Refinement
import RealmVm.Fd.Runs
import RealmVm.Fd.Table
import RealmVm.Heap.ArenaRuns
import RealmVm.Heap.Blocks
import RealmVm.Heap.BreakRuns
import RealmVm.Heap.Brk
import RealmVm.Heap.ChunkList
import RealmVm.Heap.Chunks
import RealmVm.Heap.Committed
import RealmVm.Heap.Contents
import RealmVm.Heap.FreedMemory
import RealmVm.Heap.HeapRuns
import RealmVm.Heap.HeapSteps
import RealmVm.Heap.Kmalloc
import RealmVm.Heap.Malloc
import RealmVm.Heap.Reachable
import RealmVm.Heap.Requests
import RealmVm.Hypercall.Confinement
import RealmVm.Hypercall.Guest
import RealmVm.Hypercall.HostErrors
import RealmVm.Hypercall.HostLoops
import RealmVm.Hypercall.Layout
import RealmVm.Hypercall.Runloop
import RealmVm.Hypercall.Service
import RealmVm.Hypercall.Transports
import RealmVm.Hypercall.Uart
import RealmVm.Hypercall.Vmm
import RealmVm.Image.FlatImage
import RealmVm.Image.Generator
import RealmVm.Image.SymbolAddress
import RealmVm.Image.UserBinary
import RealmVm.Lib.A64
import RealmVm.Lib.Bits
import RealmVm.Lib.Bytes
import RealmVm.Lib.Chain
import RealmVm.Lib.Loop
import RealmVm.Lib.PointerTable
import RealmVm.Lib.Pool
import RealmVm.Lib.Run
import RealmVm.Lib.Tiling
import RealmVm.Lib.WordBytes
import RealmVm.Process.Isolation
import RealmVm.User.Access
import RealmVm.User.Copy
import RealmVm.User.FileData
import RealmVm.User.SysOpen
import RealmVm.User.SysRead
import RealmVm.User.SysWrite
import RealmVm.Vma.BitmapAccess
import RealmVm.Vma.CreatedSpace
import RealmVm.Vma.Descriptors
import RealmVm.Vma.FirstFit
import RealmVm.Vma.FixedRequests
import RealmVm.Vma.FrameAccounting
import RealmVm.Vma.FrameOwnership
import RealmVm.Vma.FrameRequests
import RealmVm.Vma.FrameRuns
import RealmVm.Vma.Frames
import RealmVm.Vma.GenericSbrk
import RealmVm.Vma.KernelVma
import RealmVm.Vma.LeafPermissions
import RealmVm.Vma.MapPage
import RealmVm.Vma.MapThenWalk
import RealmVm.Vma.Mmap
import RealmVm.Vma.MmapCalls
import RealmVm.Vma.MmapPools
import RealmVm.Vma.MmapRuns
import RealmVm.Vma.NormalMap
import RealmVm.Vma.OwnSpace
import RealmVm.Vma.PageTable
import RealmVm.Vma.RegionLists
import RealmVm.Vma.Regions
import RealmVm.Vma.SingleFrame
import RealmVm.Vma.SplitRegions
import RealmVm.Vma.TableAccess
import RealmVm.Vma.Tables
import RealmVm.Vma.Translation
import RealmVm.Vma.UserPages
import RealmVm.Vma.UserTables
import RealmVm.Vma.Walk
