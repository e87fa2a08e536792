import Xv6.Log.Reservation
import Xv6.Log.Crash
import Xv6.Pipe.Queue
import Xv6.Procs.Pids
import Xv6.Procs.Kill
import Xv6.Files.References
import Xv6.Itable.Coherence
import Xv6.Vm.Translation
import Xv6.Input.Delivery
import Xv6.Virtio.Protocol
import Xv6.Input.Line
import Xv6.Bio.Demand
import Xv6.Sys.Fork
import Xv6.Exec.Arguments
import Xv6.Fs.DirMap
import Xv6.Fs.Calls
import Xv6.Printf.Agreement
import Xv6.Grep.Lines
import Xv6.Sha256.Syscall
import Xv6.Heap.Requests
import Xv6.Shell.Correct
import Xv6.Memmove
import Xv6.Interrupts.Nesting
