import Xv6.Bio.Bcache
import Xv6.Bio.Buffers
import Xv6.Log.Space
import Xv6.Log.Recovery
import Xv6.Inode.Coherence
import Xv6.Files.References
import Xv6.Fs.Paths
import Xv6.Fs.Shared
import Xv6.Grep.Lines
import Xv6.Kernel.Init
import Xv6.Kernel.Threads
import Xv6.Kernel.Sleepers
import Xv6.Kernel.Wait
import Xv6.Kernel.Reads
import Xv6.Kernel.SignalSlots
import Xv6.Malloc.Soundness
import Xv6.Memmove
import Xv6.Msg.Bounds
import Xv6.Print.Formats
import Xv6.Proc.Isolation
import Xv6.Proc.Threads
import Xv6.Sched.Handover
import Xv6.Sched.Interrupts
import Xv6.Sched.Monitors
import Xv6.Sched.Wakeup
import Xv6.Sh.Strings
import Xv6.Vm.Copies
import Xv6.Virtio.Requests
