import Xv6.Bio.Order
import Xv6.Console.Discipline
import Xv6.Fs.Offsets
import Xv6.Ide.Driver
import Xv6.Exec.Segments
import Xv6.Exec.Success
import Xv6.Files.CleanSlots
import Xv6.Locks.Sleeplock
import Xv6.Locks.Spinlock
import Xv6.Log.Buffers
import Xv6.Log.CrashAtomicity
import Xv6.Log.Progress
import Xv6.Mkfs.Image
import Xv6.Names.Failures
import Xv6.ProjShell.Splitting
import Xv6.Pipes.Sleepers
import Xv6.Pipes.Stream
import Xv6.Proc.Ancestry
import Xv6.Proc.Locks
import Xv6.Proc.Parents
import Xv6.Sched.Boost
import Xv6.Sched.Merge
import Xv6.Shell.RoundTrip
import Xv6.Smp.Failures
import Xv6.Syscall.Pointers
