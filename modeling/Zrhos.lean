import Zrhos.Platform
import Zrhos.Lib.Chain
import Zrhos.Lib.Tally
import Zrhos.Mem.Model
import Zrhos.Mem.Invariant
import Zrhos.Mem.Alloc
import Zrhos.Mem.Big
import Zrhos.Mem.Free
import Zrhos.Mem.Exclusive
import Zrhos.Vm.Model
import Zrhos.Vm.Table
import Zrhos.Vm.Map
import Zrhos.Vm.FiniteMap
import Zrhos.Lib.OrderedSet
import Zrhos.Mmap.RefCnt
import Zrhos.Fs.Bio
import Zrhos.Fs.Layout
import Zrhos.Mmap.Model
import Zrhos.Mmap.Frames
import Zrhos.Mmap.Perm
import Zrhos.Mmap.Fork
import Zrhos.Mmap.Proc
import Zrhos.Mmap.Counts
import Zrhos.Mmap.Moves
import Zrhos.Mmap.Account
import Zrhos.Mmap.Balance
import Zrhos.Mmap.Teardown
import Zrhos.Mmap.Reserved
import Zrhos.Mmap.Regions
import Zrhos.Mmap.Cow
import Zrhos.Mmap.Refine
import Zrhos.Mmap.Fresh
import Zrhos.Mmap.Copyout
import Zrhos.Mem.Conserve
import Zrhos.Mem.Reuse
import Zrhos.Mem.Contents
import Zrhos.Sync.Semaphore
import Zrhos.Lib.Turns
import Zrhos.Sysfile.Model
import Zrhos.Sysfile.Calls
import Zrhos.Sysfile.Quiet
import Zrhos.Sysfile.Transaction
import Zrhos.Sysfile.State
import Zrhos.Sysfile.Refs
import Zrhos.Sysfile.Sound
import Zrhos.Sysfile.Descriptors
import Zrhos.Sysfile.Respects
import Zrhos.Sysfile.Duties
import Zrhos.Sysfile.Runs
import Zrhos.Sysfile.Exact
import Zrhos.Sysfile.Deadlock
import Zrhos.Lib.Ring
import Zrhos.Lib.Steps
import Zrhos.Driver.Virtio
import Zrhos.Driver.Keyboard
import Zrhos.Driver.VirtioInput
import Zrhos.Driver.Console
import Zrhos.Proc.Slot
import Zrhos.Proc.Interrupts
import Zrhos.Driver.VirtioDisk
import Zrhos.Driver.DiskProtocol
import Zrhos.Sched.Model
import Zrhos.Sched.Discipline
import Zrhos.Sched.Sound
import Zrhos.Sched.Touch
import Zrhos.Sched.Switch
import Zrhos.Sched.Queue
import Zrhos.Sched.Calls
import Zrhos.Sched.Family
import Zrhos.Sched.Effect
import Zrhos.Sched.Lineage
import Zrhos.Sched.System
import Zrhos.Sched.Wakeup
import Zrhos.Sched.Zombies
import Zrhos.Sched.Reports
import Zrhos.Driver.Refill
import Zrhos.Klib.Memmove
import Zrhos.User.Malloc
import Zrhos.Mmap.Shared
import Zrhos.Klib.Str
import Zrhos.Sysfile.Store
import Zrhos.Sysfile.Bytes
import Zrhos.Mkfs.Image
import Zrhos.Mkfs.Blocks
import Zrhos.Mkfs.Mounted
import Zrhos.Mkfs.Files
import Zrhos.Mkfs.Dirs
import Zrhos.Sysfile.Lookup
import Zrhos.Sysfile.Balloc
import Zrhos.Sysfile.Create
import Zrhos.Sysfile.Dispatch
import Zrhos.Sysfile.Outcome
import Zrhos.Sysfile.Delivery
import Zrhos.Mkfs.Resolve
import Zrhos.Shell.Model
import Zrhos.Shell.Grammar
import Zrhos.Shell.Tokens
import Zrhos.Shell.Parse
import Zrhos.Shell.Accept
import Zrhos.Shell.Strings
import Zrhos.Lib.FirstFit
import Zrhos.Proc.Wait
import Zrhos.Proc.Fork
import Zrhos.Sysfile.ExecFails
import Zrhos.Sysfile.Reads
import Zrhos.Sysfile.Bitmap
import Zrhos.Sysfile.Truncate
import Zrhos.Lib.Walk
import Zrhos.Sysfile.Components
import Zrhos.Sysfile.Namex
import Zrhos.Lib.Overlay
import Zrhos.Exec.Alloc
import Zrhos.Exec.Model
import Zrhos.Exec.Image
import Zrhos.Exec.Plan
import Zrhos.Exec.Commit
import Zrhos.Exec.Elf
import Zrhos.Exec.Args
import Zrhos.Lib.Numeral
import Zrhos.Klib.Format
import Zrhos.Klib.Overlap
import Zrhos.Vm.Kernel
import Zrhos.Vm.Backed
import Zrhos.Vm.FreePagetable
import Zrhos.Vm.Copy
import Zrhos.Vm.Fetch
import Zrhos.Sysfile.Modes
import Zrhos.Sysfile.Enforce
import Zrhos.Lib.Partial
import Zrhos.Devices.Model
import Zrhos.Devices.Release
import Zrhos.Klib.Compare
import Zrhos.User.Printf
import Zrhos.User.Game
import Zrhos.User.Snake
import Zrhos.Lib.RedBlack
import Zrhos.Lib.OrderedBag
import Zrhos.Rbtree.Model
import Zrhos.Rbtree.Links
import Zrhos.Rbtree.Search
import Zrhos.Rbtree.Insert
import Zrhos.Rbtree.Unlink
import Zrhos.Rbtree.Erase
import Zrhos.Rbtree.Range
import Zrhos.Rbtree.Forest
import Zrhos.Rbtree.Runs
import Zrhos.Rbtree.Usage
