import Xv6Bfs.Bio.DiskErrors
import Xv6Bfs.Console.Discipline
import Xv6Bfs.Exec.Call
import Xv6Bfs.Files.Chunks
import Xv6Bfs.Files.Icache
import Xv6Bfs.Fs.DirectoryMap
import Xv6Bfs.Grep.Reading
import Xv6Bfs.Ide.Driver
import Xv6Bfs.Locks.Interrupts
import Xv6Bfs.Locks.Sleeplock
import Xv6Bfs.Log.Lifetime
import Xv6Bfs.Log.Reservation
import Xv6Bfs.Memory.Isolation
import Xv6Bfs.Mkfs.Agreement
import Xv6Bfs.Pipes.Wakeup
import Xv6Bfs.Sched.Bypass
import Xv6Bfs.Sched.Killed
import Xv6Bfs.Sched.Membership
import Xv6Bfs.Sched.Quantum
import Xv6Bfs.Sched.Random
import Xv6Bfs.Sched.SysNicefork
import Xv6Bfs.Shell.Parsecmd
import Xv6Bfs.Strings.Memmove
import Xv6Bfs.Syscall.Arguments
import Xv6Bfs.Sysfile.Dangling
import Xv6Bfs.Umalloc.Process
