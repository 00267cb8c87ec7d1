import OsKernel.Barrier.Progress
import OsKernel.Lib.Places
import OsKernel.Lib.Memory
import OsKernel.Lib.Records
import OsKernel.Threads.Condition
import OsKernel.Threads.Semaphore
import OsKernel.Vmm.Cow
import OsKernel.Sys.Descriptor
import OsKernel.Sys.Model
import OsKernel.Sys.Rules
import OsKernel.Sys.Tables
import OsKernel.Sys.Maps
import OsKernel.Shared.Handles
import OsKernel.Lock.InterruptSafe
import OsKernel.PhysMem.Frames
import OsKernel.PhysMem.Counter
import OsKernel.Future.Model
import OsKernel.Block.ReadAll
import OsKernel.Block.Blocks
import OsKernel.Sys.Buffers
import OsKernel.Elf.Load
import OsKernel.Elf.Stores
import OsKernel.Elf.Exec
import OsKernel.Elf.Arguments
import OsKernel.Elf.Stack
import OsKernel.Heap.Model
import OsKernel.Heap.Inv
import OsKernel.Heap.Spec
import OsKernel.Heap.Malloc
import OsKernel.Heap.Free
import OsKernel.Heap.Runs
import OsKernel.Ext2.Node
import OsKernel.Ext2.BlockMap
import OsKernel.Ext2.Directory
import OsKernel.Ext2.Scans
import OsKernel.Ext2.Listing
import OsKernel.Ext2.Open
import OsKernel.Ext2.Resolve
import OsKernel.Ext2.Sparse
import OsKernel.Sys.Pointers
import OsKernel.Sys.Balance
import OsKernel.Sys.Offset
import OsKernel.Barrier.Once
import OsKernel.Heap.Choice
import OsKernel.Heap.Coalesce
import OsKernel.Sys.Cursor
import OsKernel.Sys.Cursors
import OsKernel.Acpi.Madt
import OsKernel.Threads.Fifo
import OsKernel.Threads.Sections
import OsKernel.Vmm.Identity
import OsKernel.Vmm.Protect
import OsKernel.PhysMem.Foreign
import OsKernel.PhysMem.Interleaved
import OsKernel.Heap.User
import OsKernel.Heap.Realloc
import OsKernel.Ext2.Mount
import OsKernel.Ext2.Find
import OsKernel.Elf.Fresh
import OsKernel.Elf.Versions
import OsKernel.Format.Bounds
import OsKernel.Format.Reading
import OsKernel.Ide.Interleaved
import OsKernel.Vmm.Seen
import OsKernel.Vmm.Tlb
