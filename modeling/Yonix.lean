import Yonix.Lib.Bytes
import Yonix.Lib.Run
import Yonix.Lib.Redo
import Yonix.Lib.Ring
import Yonix.Lib.Fifo
import Yonix.Lib.Wp
import Yonix.Lib.Memory
import Yonix.Param
import Yonix.Log.Model
import Yonix.Log.Reservation
import Yonix.Log.Crash
import Yonix.Bio.Model
import Yonix.Bio.Invariant
import Yonix.Bio.Cache
import Yonix.Proc.Model
import Yonix.Proc.Moves
import Yonix.Proc.Sched
import Yonix.Proc.Family
import Yonix.Proc.Turns
import Yonix.Proc.Ranges
import Yonix.Proc.Priority
import Yonix.Vm.Model
import Yonix.Vm.Queue
import Yonix.Vm.Unmap
import Yonix.Vm.Exec
import Yonix.Vm.Integrity
import Yonix.Vm.Swap
import Yonix.Vm.Transparent
import Yonix.Vm.Marks
import Yonix.Vm.Threads
import Yonix.Vm.Frames
import Yonix.Sync.Machine
import Yonix.Sync.Section
import Yonix.Sync.Pipe
import Yonix.Sync.Transaction
import Yonix.Sync.Semaphore
import Yonix.Sync.Sleeplock
import Yonix.Sync.Wait
import Yonix.Sync.Reap
import Yonix.Sync.Zombie
import Yonix.Proc.Slots
import Yonix.Proc.Pids
import Yonix.Proc.Fresh
import Yonix.Sys.Model
import Yonix.Sys.Stores
import Yonix.Sys.Args
import Yonix.Sys.Memmove
import Yonix.Sys.Trapframe
import Yonix.Fs.Model
import Yonix.Fs.Calls
import Yonix.Vm.Fault
import Yonix.Vm.Reaping
import Yonix.Vm.Dealloc
import Yonix.Vm.Stock
import Yonix.Vm.Sbrk
import Yonix.Vm.Elf
import Yonix.Vm.Loader
import Yonix.Vm.NewImage
import Yonix.Vm.Copy
import Yonix.Vm.FailedExec
import Yonix.Slab.Model
import Yonix.Slab.Conserved
import Yonix.Slab.Rebuild
import Yonix.Fs.Refs
import Yonix.Fs.Release
import Yonix.Fs.Books
import Yonix.Fs.Files
import Yonix.Fs.Path
import Yonix.Lib.Slots
import Yonix.Fs.Disk
import Yonix.Fs.Blocks
import Yonix.Fs.Writei
import Yonix.Fs.Directory
import Yonix.Lib.Prog
import Yonix.Fs.Yields
import Yonix.Fs.Shared
import Yonix.Mkfs.Model
import Yonix.Mkfs.Layout
import Yonix.Mkfs.Image
import Yonix.Mkfs.Kernel
import Yonix.Sh.Model
import Yonix.Sh.Grammar
import Yonix.Sh.Parse
import Yonix.Lib.Links
import Yonix.Umalloc.Model
import Yonix.Umalloc.Heap
import Yonix.Umalloc.History
import Yonix.Console.Model
import Yonix.Console.Ring
import Yonix.Sync.Ide
import Yonix.Grep.Regex
import Yonix.Grep.Grep
import Yonix.Proc.Sleep
import Yonix.Sys.Tables
import Yonix.Vm.Copyout
import Yonix.Umalloc.Process
import Yonix.Console.History
import Yonix.Sh.Nodes
import Yonix.Sh.Runcmd
import Yonix.Sh.Parts
import Yonix.Sh.Jobs
import Yonix.Sh.Progress
import Yonix.Kalloc.Pages
