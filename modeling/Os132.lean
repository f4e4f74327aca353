import Os132.Lib.Run
import Os132.Lib.WaitsFor
import Os132.Lib.Ring
import Os132.Lib.Crash
import Os132.Console.Editor
import Os132.Console.Echo
import Os132.Console.Readers
import Os132.Fs.CrashSafe
import Os132.Files.Image
import Os132.Kernel.LockOrder
import Os132.Kernel.ThreeQueues
import Os132.Kernel.Wakeup
import Os132.Kernel.Kill
import Os132.Kernel.Reap
import Os132.Kernel.States
import Os132.Kernel.Quantum
import Os132.Syscall.UserMemory
import Os132.Memory.Sbrk
import Os132.Memory.Space
import Os132.Memory.Copyuvm
import Os132.Memory.Copyout
import Os132.Pipe.Machine
import Os132.Pipe.Moves
import Os132.Pipe.Wakeups
import Os132.Disk.Refine
import Os132.Cache.Buffers
import Os132.Ftable.Counts
import Os132.Kernel.Scans
import Os132.Kernel.RoundRobin
import Os132.Kernel.Fifo
import Os132.Kernel.Publish
import Os132.Syscall.Wait2
import Os132.User.Numbers
import Os132.User.Allocator
import Os132.Shell.Words
import Os132.Files.Walks
import Os132.Files.Directory
import Os132.Files.Shared
import Os132.Memory.Stack
import Os132.User.Requests
import Os132.User.Regex
import Os132.Shell.Runcmd
import Os132.Memory.Memmove
import Os132.Boot.Mp
import Os132.Shell.Terminators
import Os132.User.Grep
import Os132.Cli.Opening
import Os132.Trap.Birth
import Os132.Memory.Kalloc
import Os132.Cli.Spinlock
import Os132.Console.Keyboard
import Os132.Boot.Bootmain
import Os132.Shell.Plumbing
