import Osce.Log.Admission
import Osce.Fs.Files
import Osce.Pipe.Wakeups
import Osce.Proc.Lookup
import Osce.Icache.Protocol
import Osce.Sys.Files
import Osce.Sys.Paths
import Osce.User.Access
import Osce.Vm.NoLeak
import Osce.Exec.Atomic
import Osce.Sh.Descriptors
import Osce.Sh.Tokens
import Osce.Umalloc.Sizes
import Osce.Sh.Blocks
import Osce.Grep.Match
import Osce.Console.Discipline
import Osce.Ide.Queue
import Osce.Strings
import Osce.Vm.Pages
import Osce.Vm.Copyout
import Osce.Mp
import Osce.Proc.Interrupts
import Osce.Recency
import Osce.Spinlock
import Osce.Proc.Scheduler
