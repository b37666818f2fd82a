import Xv6.Logging.Atomicity
import Xv6.Logging.Reservation
import Xv6.Vm.Lazy
import Xv6.Pipes.Fifo
import Xv6.Pipes.Wakeup
import Xv6.Sched.Consistency
import Xv6.Sched.WaitWakeup
import Xv6.Vm.ForkChild
import Xv6.Syscall.FaultLocks
import Xv6.Sched.ExitStatus
import Xv6.Sync.Sleeplock
import Xv6.Logging.GroupCommit
import Xv6.Disk.Refinement
import Xv6.Bio.Correct
import Xv6.Vm.Trap
import Xv6.Syscall.Pointers
import Xv6.Sched.Live
import Xv6.Vm.Argv
import Xv6.Sync.Cli.Steps
import Xv6.Fs.Transaction
import Xv6.Syscall.WaitStatus
import Xv6.Sh.Run
import Xv6.Console.Reads
import Xv6.Fs.DirMap
import Xv6.Mkfs.Lookup
import Xv6.Strings
import Xv6.Mp
import Xv6.Umalloc.Requests
import Xv6.Grep.Lines
import Xv6.Fs.Truncate
import Xv6.Sched.Ancestry
import Xv6.Vm.Isolation
import Xv6.Vm.NullEntry
import Xv6.Console.Screen
