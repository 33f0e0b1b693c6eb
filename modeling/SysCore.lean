import SysCore.Transition.Outcome
import SysCore.Container.BitRuns
import SysCore.Container.Ring
import SysCore.Container.Shares
import SysCore.Container.Map
import SysCore.Container.CString
import SysCore.Container.Numeral
import SysCore.Container.Block
import SysCore.Container.Forest
import SysCore.Memory.Bytes
import SysCore.Memory.Stack
import SysCore.Paging.Sv39
import SysCore.Paging.Stores
import SysCore.Paging.CreateMapping
import SysCore.Paging.EraseEntry
import SysCore.Paging.EraseTable
import SysCore.Paging.Mapping
import SysCore.Paging.Alike
import SysCore.Process.Managers
import SysCore.Process.ManagerSpecs
import SysCore.Process.Copies
import SysCore.Process.World
import SysCore.Process.Exit
import SysCore.Process.Alike
import SysCore.Process.MmapBookkeeping
import SysCore.Process.ForkFidelity
import SysCore.Process.ForkIsolation
import SysCore.Process.BrkBooks
import SysCore.Process.LoadedImage
import SysCore.Heap.Allocator
import SysCore.Heap.Scan
import SysCore.Heap.Blocks
import SysCore.Heap.Gaps
import SysCore.Heap.Foreign
import SysCore.Sched.State
import SysCore.Sched.Moves
import SysCore.Sched.Placement
import SysCore.Sched.Fields
import SysCore.Sched.Signals
import SysCore.Sched.Turns
import SysCore.Sched.Cwd
import SysCore.Path.Tables
import SysCore.Path.Normal
import SysCore.Path.Chdir
import SysCore.Pipe.FastPipe
import SysCore.Pipe.Fifo
import SysCore.Pipe.Retries
import SysCore.Fs.Disk
import SysCore.Fs.Scan
import SysCore.Fs.Tree
import SysCore.Fs.Links
import SysCore.Fs.Nodes
import SysCore.Fs.NodeTree
import SysCore.Fs.Inodes
import SysCore.Fs.Removal
import SysCore.Fs.Mounts
import SysCore.Fs.Fat
import SysCore.Fs.LastOpened
import SysCore.Fs.MappedFile
import SysCore.Fs.Seek
import SysCore.Process.InitialStack
import SysCore.Process.StackWalk
import SysCore.Process.CommandLine
import SysCore.Process.PageImages
import SysCore.Fd.Table
import SysCore.Fd.Closing
import SysCore.Fd.Calls
import SysCore.Fd.Fork
import SysCore.Fd.Io
import SysCore.Fd.Duplicates
import SysCore.Fd.Reopen
import SysCore.Fd.Vectored
import SysCore.Fd.FdSet
import SysCore.Fd.Select
import SysCore.Fd.Bounds
import SysCore.Machine.Rv64
import SysCore.Trap.Interrupt
import SysCore.Sched.FastPid
import SysCore.Syscall.Return
import SysCore.Sched.Kill
import SysCore.Kernel.State
import SysCore.Sched.Satp
import SysCore.Kernel.Sound
import SysCore.Kernel.Steps
import SysCore.Kernel.Ownership
import SysCore.Kernel.ElfPages
import SysCore.Kernel.Wakeup
import SysCore.Kernel.Wait
import SysCore.Kernel.Recycled
import SysCore.Time.Clock
import SysCore.Time.Gregorian
import SysCore.Time.Mktime
import SysCore.Stl.Strings
import SysCore.Stl.StringStore
import SysCore.Stl.PathUtil
import SysCore.Stl.SplitTwice
import SysCore.Stl.Trie
import SysCore.Stl.RefCount
import SysCore.Stl.LinkedList
import SysCore.Stl.LinkedMap
import SysCore.Stl.Vector
import SysCore.Stdio.Format
import SysCore.Stdio.Decimal
import SysCore.Stdio.Digits
