import StCoroutine.RingBuf.Fifo
import StCoroutine.Lib.Queue
import StCoroutine.RingBuf.Spsc
import StCoroutine.RingBuf.SpscSafety
import StCoroutine.RingBuf.Condition
import StCoroutine.Coroutine.Model
import StCoroutine.Coroutine.Object
import StCoroutine.Coroutine.Handle
import StCoroutine.Coroutine.Pull
import StCoroutine.Coroutine.Stops
import StCoroutine.Coroutine.Result
import StCoroutine.Listener.Udp
import StCoroutine.Lib.NodeMap
import StCoroutine.Lib.Walk
import StCoroutine.Hourglass.Model
import StCoroutine.Hourglass.Walk
import StCoroutine.Hourglass.Iterator
import StCoroutine.Hourglass.Dynamic
import StCoroutine.Hourglass.Fast
import StCoroutine.Hourglass.Subscribers
import StCoroutine.Hourglass.Schedule
import StCoroutine.Lib.Bytes
import StCoroutine.Kernel.Buffer
import StCoroutine.Kernel.Bounds
import StCoroutine.Kernel.LongString
import StCoroutine.Kernel.Schema
import StCoroutine.Kernel.BitBuffer
import StCoroutine.Lib.Printf
import StCoroutine.Log.Header
import StCoroutine.Log.FileLog
import StCoroutine.Log.ConsoleLog
import StCoroutine.Listener.UdpMux
import StCoroutine.Lib.Decimal
import StCoroutine.Listener.PeerId
import StCoroutine.Service.Net
import StCoroutine.Service.TcpClient
import StCoroutine.Service.Statistic
import StCoroutine.RingBuf.TimedWait
import StCoroutine.RingBuf.Counters
import StCoroutine.Lib.Search
import StCoroutine.Lib.Scan
import StCoroutine.Kernel.Uptime
import StCoroutine.Kernel.Strings
import StCoroutine.Kernel.Split
import StCoroutine.Kernel.Trim
import StCoroutine.Kernel.Endpoint
import StCoroutine.Kernel.Hex
import StCoroutine.Kernel.Directory
import StCoroutine.Kernel.PathName
import StCoroutine.Service.Locker
import StCoroutine.Kernel.ErrorText
import StCoroutine.Lib.BinaryHeap
import StCoroutine.Sched.TimeoutHeap
import StCoroutine.Sched.SleepQueue
import StCoroutine.Sched.Model
import StCoroutine.Sched.Wake
import StCoroutine.Sched.Clock
import StCoroutine.Sched.Switch
import StCoroutine.Sched.Turn
import StCoroutine.Sched.Invariant
import StCoroutine.Sched.Fate
import StCoroutine.Sched.Ownership
import StCoroutine.Sched.Returns
import StCoroutine.Sched.Exclusion
import StCoroutine.Sched.Joining
import StCoroutine.Sched.Progress
import StCoroutine.Sched.Epoll
import StCoroutine.Sched.Polling
import StCoroutine.Sched.Select
import StCoroutine.Sched.Transfer
