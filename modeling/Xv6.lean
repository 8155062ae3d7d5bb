import Xv6.Buddy.Bounds
import Xv6.Buddy.Reinit
import Xv6.Buddy.Tiling
import Xv6.Buddy.BestFit
import Xv6.Slab.Destroy
import Xv6.Slab.Init
import Xv6.Slab.Range
import Xv6.Slab.Shrink
import Xv6.Slab.BadFree
import Xv6.Slab.Concurrent
import Xv6.Slab.Wrappers
import Xv6.Vm.Leak
import Xv6.Vm.Region
import Xv6.Disk.Coherent
import Xv6.Itable.Protocol
import Xv6.Pipe.Fifo
import Xv6.Proc.Identity
import Xv6.Pipe.Alloc
import Xv6.Sleep.Wakeup
import Xv6.Console.Lines
import Xv6.Umalloc.Sbrk
import Xv6.Virtio.Runs
import Xv6.Files.Calls
import Xv6.LockOrder.Calls
import Xv6.Fs.Reclaim
import Xv6.Fs.Path
import Xv6.Printf.Numeral
