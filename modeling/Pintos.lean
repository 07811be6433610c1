import Pintos.Lib.Outcome
import Pintos.Lib.Path
import Pintos.Lib.Word
import Pintos.Devices.Disk
import Pintos.Filesys.Fat
import Pintos.Filesys.FatChain
import Pintos.Filesys.Inode
import Pintos.Filesys.InodeCreate
import Pintos.Filesys.InodeGrow
import Pintos.Threads.Synch
import Pintos.Threads.Donation
import Pintos.Filesys.File
import Pintos.Vm.Page
import Pintos.Vm.Vm
import Pintos.Vm.Process
import Pintos.Lib.RefCount
import Pintos.Vm.Coherent
import Pintos.Vm.Kept
import Pintos.Vm.StackGrowth
import Pintos.Vm.Permissions
import Pintos.Vm.Steps
import Pintos.Vm.Eviction
import Pintos.Vm.Destroy
import Pintos.Vm.Access
import Pintos.Vm.Stale
import Pintos.Vm.Conserve
import Pintos.Vm.FrameTable
import Pintos.Vm.FrameFaults
import Pintos.Vm.FrameRuns
import Pintos.Vm.Fork
import Pintos.Filesys.OpenInode
import Pintos.Filesys.Directory
import Pintos.Filesys.Filesys
import Pintos.Filesys.References
import Pintos.Filesys.Balance
import Pintos.Filesys.Remove
import Pintos.Lib.Slots
import Pintos.Userprog.Descriptors
import Pintos.Lib.Radix
import Pintos.Threads.Mmu
import Pintos.Threads.AddressSpace
import Pintos.Threads.EntryBits
import Pintos.Threads.PageWalk
import Pintos.Threads.PageMap
import Pintos.Lib.Round
import Pintos.Vm.Clock
import Pintos.Userprog.Tokenise
import Pintos.Lib.DList
import Pintos.Threads.AllList
import Pintos.Lib.Queue
import Pintos.Threads.Scheduler
import Pintos.Threads.Semaphore
import Pintos.Userprog.Exec
import Pintos.Userprog.Wait
import Pintos.Userprog.ForkReturn
import Pintos.Userprog.ForkTable
import Pintos.Lib.Traced
import Pintos.Userprog.DescriptorCalls
import Pintos.Userprog.CallSafety
import Pintos.Userprog.Offsets
import Pintos.Userprog.NumericCalls
import Pintos.Userprog.KernelArrays
import Pintos.Userprog.Interchange
import Pintos.Filesys.ChainCover
import Pintos.Filesys.ChainCalls
import Pintos.Userprog.Allocation
import Pintos.Devices.Timer
import Pintos.Threads.Mlfqs
import Pintos.Threads.MlfqsRange
import Pintos.Threads.Statistics
import Pintos.Threads.Condition
import Pintos.Vm.SwapSlots
import Pintos.Filesys.AllOrNothing
import Pintos.Filesys.DirTable
import Pintos.Filesys.RootDirectory
import Pintos.Filesys.Absolute
import Pintos.Filesys.Resolve
import Pintos.Filesys.ChangeDir
import Pintos.Filesys.FatBoot
import Pintos.Userprog.Program
import Pintos.Lib.Slice
import Pintos.Lib.Spans
import Pintos.Threads.Palloc
import Pintos.Threads.Carving
import Pintos.Threads.PopulatePools
import Pintos.Filesys.ByteFile
import Pintos.Filesys.Sparse
import Pintos.Filesys.DiskFull
import Pintos.Lib.SlotTable
import Pintos.Filesys.ByteDir
import Pintos.Filesys.ReadDir
import Pintos.Filesys.DirFile
import Pintos.Userprog.ReaddirCall
import Pintos.Userprog.Segment
import Pintos.Userprog.Arguments
import Pintos.Userprog.StringCalls
import Pintos.Userprog.BufferChecks
import Pintos.Lib.Tokens
import Pintos.Filesys.PathBuffer
import Pintos.Filesys.CloseRemoved
import Pintos.Userprog.DescriptorReuse
import Pintos.Vm.DemandLoad
import Pintos.Vm.Mmap
import Pintos.Vm.Munmap
import Pintos.Vm.Backing
import Pintos.Lib.NaturalMerge
import Pintos.Kernel.List
import Pintos.Kernel.ListSort
import Pintos.Lib.Buckets
import Pintos.Kernel.Hash
import Pintos.Kernel.HashTable
import Pintos.Kernel.HashMap
import Pintos.Kernel.Bitmap
import Pintos.Threads.PageAlloc
import Pintos.Threads.Malloc
import Pintos.Threads.Arenas
import Pintos.Threads.FreeLists
import Pintos.Threads.MallocCalls
import Pintos.Threads.MallocFree
import Pintos.Threads.MallocRuns
import Pintos.Threads.MallocSizes
import Pintos.Devices.IntqRuns
import Pintos.Devices.Serial
import Pintos.Libc.Search
import Pintos.Libc.Arithmetic
import Pintos.Libc.FormatInteger
import Pintos.Libc.Output
import Pintos.Vm.Contents
import Pintos.Vm.Memory
import Pintos.Threads.Lock
import Pintos.Devices.ChannelRuns
import Pintos.Threads.BootCommands
