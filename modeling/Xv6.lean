import Xv6.Lib.System
import Xv6.Lib.Bytes
import Xv6.Lib.Wp
import Xv6.Lib.Writes
import Xv6.Bio.Lru
import Xv6.Log.Crash
import Xv6.Log.Atomic
import Xv6.Log.Budget
import Xv6.Log.Buffers
import Xv6.Log.Sleep
import Xv6.Pipe.Wakeup
import Xv6.Pipe.Fifo
import Xv6.Proc.Conserve
import Xv6.Proc.Wait
import Xv6.Proc.Kill
import Xv6.Proc.Sched
import Xv6.File.Failure
import Xv6.Fs.Realloc
import Xv6.Sys.Bracket
import Xv6.Virtio.Safe
import Xv6.Fs.Content
import Xv6.Pipe.Read
import Xv6.Fs.Partial
import Xv6.Proc.Pid
import Xv6.Console.Line
import Xv6.Sh.Words
import Xv6.Str.Print
import Xv6.Grep.Lines
import Xv6.Umalloc.Request
import Xv6.Fs.Bitmap
import Xv6.Fs.Map
import Xv6.Fs.Make
import Xv6.Fs.Reclaim
import Xv6.Sys.Runs
import Xv6.Vm.Refine
import Xv6.Vm.Hidden
import Xv6.Vm.Fork
import Xv6.Vm.Fetch
import Xv6.Proc.Memory
import Xv6.Mkfs.Format
import Xv6.Sys.Tree
