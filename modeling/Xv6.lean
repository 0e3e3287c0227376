import Xv6.AddrSpace
import Xv6.BallocRegion
import Xv6.BcacheRoom
import Xv6.Burst
import Xv6.DancePartners
import Xv6.DirRun
import Xv6.DiscGolf
import Xv6.DiskErrors
import Xv6.FileTable
import Xv6.Ide
import Xv6.Kalloc
import Xv6.Kill
import Xv6.Layout
import Xv6.LogCrash
import Xv6.Memmove
import Xv6.Mutex
import Xv6.PgdirOwner
import Xv6.Philosophers
import Xv6.Pushcli
import Xv6.ReadBuffer
import Xv6.RefRun
import Xv6.Scheduler
import Xv6.SharedFile
import Xv6.ShellAccepts
import Xv6.SleepWakeup
import Xv6.TanenbaumTable
import Xv6.ThreadCreate
import Xv6.TransRun
import Xv6.UserRange
import Xv6.Regexp
