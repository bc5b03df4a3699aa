import TrueOs.Device.Fifo
import TrueOs.Device.Ide
import TrueOs.Device.Keyboard
import TrueOs.Device.Partition
import TrueOs.Device.PutInt
import TrueOs.Device.Screen
import TrueOs.Device.Timer
import TrueOs.Fs.Format
import TrueOs.Fs.Readdir
import TrueOs.Fs.Sized
import TrueOs.Fs.View
import TrueOs.Kernel.Allocator
import TrueOs.Kernel.Arenas
import TrueOs.Kernel.Lists
import TrueOs.Kernel.Malloc
import TrueOs.Kernel.Ndebug
import TrueOs.Kernel.Paging
import TrueOs.Kernel.PoolInit
import TrueOs.Kernel.Printk
import TrueOs.Kernel.Provided
import TrueOs.Kernel.Space
import TrueOs.Kernel.Stdio
import TrueOs.Lib.CString
import TrueOs.Lib.Words
import TrueOs.Shell.Cmdline
import TrueOs.Shell.PipeCalls
import TrueOs.Shell.Pipeline
import TrueOs.Shell.Readline
import TrueOs.Shell.Wash
import TrueOs.Spec.Alloc
import TrueOs.Spec.Blocks
import TrueOs.Spec.Created
import TrueOs.Spec.Cwd
import TrueOs.Spec.Deleting
import TrueOs.Spec.Depth
import TrueOs.Spec.Directory
import TrueOs.Spec.Entries
import TrueOs.Spec.InodeTable
import TrueOs.Spec.Limit
import TrueOs.Spec.Making
import TrueOs.Spec.Mount
import TrueOs.Spec.Names
import TrueOs.Spec.NoSpace
import TrueOs.Spec.Pools
import TrueOs.Spec.Read
import TrueOs.Spec.Readdir
import TrueOs.Spec.Removing
import TrueOs.Spec.Returns
import TrueOs.Spec.Undo
import TrueOs.Spec.Write
import TrueOs.Thread.Mutex
import TrueOs.Thread.Queues
import TrueOs.Userprog.Calls
import TrueOs.Userprog.Descriptors
import TrueOs.Userprog.Family
import TrueOs.Userprog.ForkClose
import TrueOs.Userprog.ForkFail
import TrueOs.Userprog.Frames
import TrueOs.Userprog.HeapFork
import TrueOs.Userprog.Isolation
import TrueOs.Userprog.Loading
import TrueOs.Userprog.Orphans
import TrueOs.Userprog.PageDir
import TrueOs.Userprog.Pipes
import TrueOs.Userprog.Positions
import TrueOs.Userprog.Workdirs
