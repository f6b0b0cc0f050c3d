import SleepyPenguin.Foundation.Lists
import SleepyPenguin.Foundation.Program
import SleepyPenguin.Foundation.Run
import SleepyPenguin.Foundation.Slots
import SleepyPenguin.Runtime.Value
import SleepyPenguin.Runtime.Kernel
import SleepyPenguin.Runtime.State
import SleepyPenguin.Runtime.Command
import SleepyPenguin.Runtime.Rules
import SleepyPenguin.Runtime.Shared
import SleepyPenguin.Runtime.Family
import SleepyPenguin.Runtime.Reinit
import SleepyPenguin.Runtime.Lineage
import SleepyPenguin.Epoll.Methods
import SleepyPenguin.Epoll.Effects
import SleepyPenguin.Epoll.Members
import SleepyPenguin.Epoll.Coherence
import SleepyPenguin.Epoll.Cached
import SleepyPenguin.Epoll.Pinning
import SleepyPenguin.Epoll.Fork
import SleepyPenguin.Kqueue.Methods
import SleepyPenguin.Kqueue.Effects
import SleepyPenguin.Kqueue.Fork
import SleepyPenguin.Kqueue.Conversion
import SleepyPenguin.Sendfile
import SleepyPenguin.Foundation.Heap
import SleepyPenguin.Foundation.Words
import SleepyPenguin.Runtime.Clock
import SleepyPenguin.Kqueue.Deadline
import SleepyPenguin.Epoll.Deadline
import SleepyPenguin.Tls.Buffer
import SleepyPenguin.Tls.Theorems
import SleepyPenguin.Tls.Command
import SleepyPenguin.Inotify.Record
import SleepyPenguin.Inotify.Take
import SleepyPenguin.Tls.Callers
import SleepyPenguin.Tls.Balance
import SleepyPenguin.EventFD
import SleepyPenguin.Inotify.Threads
import SleepyPenguin.Inotify.Delivery
import SleepyPenguin.Inotify.Sleep
import SleepyPenguin.Inotify.Resize
import SleepyPenguin.Epoll.Ownership
import SleepyPenguin.Foundation.Rely
import SleepyPenguin.Runtime.Isolation
import SleepyPenguin.Runtime.Triples
import SleepyPenguin.Kqueue.Descriptors
import SleepyPenguin.Epoll.Processes
import SleepyPenguin.Epoll.Interleaving
import SleepyPenguin.Epoll.Threads
import SleepyPenguin.Foundation.Rounding
import SleepyPenguin.Runtime.Timespec
import SleepyPenguin.Kqueue.Timeout
import SleepyPenguin.TimerFD
import SleepyPenguin.Tls.Sizing
import SleepyPenguin.Epoll.Forms
import SleepyPenguin.Epoll.Recovery
import SleepyPenguin.Foundation.Completion
import SleepyPenguin.Foundation.Dialogue
import SleepyPenguin.Foundation.Ledger
import SleepyPenguin.Runtime.Schedule
import SleepyPenguin.Runtime.Completion
import SleepyPenguin.Epoll.Completion
import SleepyPenguin.Kqueue.Completion
import SleepyPenguin.Epoll.Agreement
import SleepyPenguin.Splice.Calls
import SleepyPenguin.Splice.Accounts
import SleepyPenguin.Sendfile.Calls
import SleepyPenguin.Sendfile.Accounts
import SleepyPenguin.Kqueue.Delivery
import SleepyPenguin.TimerFD.Expirations
import SleepyPenguin.Inotify.Masks
import SleepyPenguin.Creation
import SleepyPenguin.Kqueue.Fields
