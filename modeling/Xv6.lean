import Xv6.Log.Crash
import Xv6.Log.Space
import Xv6.Sem.Waiters
import Xv6.Sem.Arguments
import Xv6.Kthread.Exec
import Xv6.Vm.Strings
import Xv6.Signal.Threads
import Xv6.Signal.Delivery
import Xv6.Signal.Stop
import Xv6.Proc.Handlers
import Xv6.Proc.Signals
import Xv6.Proc.Sleepers
import Xv6.Smp.Reaping
import Xv6.Smp.FileSystem
import Xv6.Smp.Wakeup
import Xv6.File.Release
import Xv6.Fs.Offset
import Xv6.Vm.Physical
import Xv6.Vm.PartialMap
import Xv6.Vm.Grow
import Xv6.Fork.Create
import Xv6.Pipe.Fifo
import Xv6.Pipe.Sleepers
import Xv6.File.Read
import Xv6.Proc.Killed
import Xv6.Dev.Protocol
import Xv6.Dev.Uart
import Xv6.Bio.Exhaustion
import Xv6.Sysfile.Failure
import Xv6.Signal.Forked
import Xv6.User.Grep
import Xv6.User.Memmove
