import CppProgramming.Lib.Transition
import CppProgramming.Lib.Ring
import CppProgramming.Lib.Hlist
import CppProgramming.Lib.HlistReader
import CppProgramming.HashMap.Bucket
import CppProgramming.HashMap.Table
import CppProgramming.HashMap.Spinlock
import CppProgramming.HashMap.Rcu
import CppProgramming.HashMap.SameMap
import CppProgramming.HashMap.Destroy
import CppProgramming.HashMap.Update
import CppProgramming.HashMap.Reader
import CppProgramming.Lib.Ledger
import CppProgramming.Lib.Counting
import CppProgramming.Lib.Histogram
import CppProgramming.Lib.SortedRange
import CppProgramming.Lib.Framing
import CppProgramming.Lib.Mailbox
import CppProgramming.Lib.Except
import CppProgramming.Lib.CString
import CppProgramming.Lib.ByteBuffer
import CppProgramming.Lib.Chain
import CppProgramming.Lib.SemQueue
import CppProgramming.Lib.CondQueue
import CppProgramming.Lib.WordStream
import CppProgramming.Lib.CallTrace
import CppProgramming.HashMap.Lifetime
import CppProgramming.TcpTrace.HookFuncLib
import CppProgramming.TcpTrace.Load
import CppProgramming.TcpTrace.Lookup
import CppProgramming.TcpTrace.Kretprobe
import CppProgramming.NeedResched.Display
import CppProgramming.Bbq.Queue
import CppProgramming.Bbq.Fifo
import CppProgramming.ProducerConsumer.StopObject
import CppProgramming.ProducerConsumer.Counter
import CppProgramming.ProducerConsumer.Pthread
import CppProgramming.ProducerConsumer.BlockingQueueSem
import CppProgramming.ProducerConsumer.BlockingQueueCond
import CppProgramming.Memory.CopyConstructor
import CppProgramming.Device.CharDeviceMmap
import CppProgramming.Network.NetStrParse
import CppProgramming.Network.MakeNormalPkt
import CppProgramming.FuncTrans.Registration
import CppProgramming.FuncTrans.Dispatch
import CppProgramming.Kthread.Stop
import CppProgramming.Kthread.PingPong
import CppProgramming.Kthread.TimerExit
import CppProgramming.Socket.Kernel
import CppProgramming.Socket.EventLoop
import CppProgramming.Socket.EdgeTriggered
import CppProgramming.Socket.RingBuffer
import CppProgramming.Socket.Segments
import CppProgramming.Socket.EchoLt.Connection
import CppProgramming.Socket.EchoLt.Echo
import CppProgramming.Socket.EchoLt.FlowControl
import CppProgramming.Socket.EchoLt.EndOfStream
import CppProgramming.Socket.EchoLt.Native
import CppProgramming.Socket.EchoLt.Serve
import CppProgramming.Socket.EchoEt
import CppProgramming.Socket.Epollout
import CppProgramming.Socket.ClientVerify
import CppProgramming.Socket.ClientServer
import CppProgramming.Socket.Coroutine.Connection
import CppProgramming.Socket.Coroutine.Equivalent
import CppProgramming.Socket.Coroutine.Context
import CppProgramming.Socket.Coroutine.Wakeup
import CppProgramming.Socket.Coroutine.AwaitSend
import CppProgramming.Socket.Coroutine.Process
import CppProgramming.Socket.Response.Connection
import CppProgramming.Socket.Response.Answered
import CppProgramming.Socket.Response.RecvBuf
import CppProgramming.Socket.ResponseEt
import CppProgramming.Socket.Poller
import CppProgramming.Socket.PollLoop
import CppProgramming.Socket.BenchServer
import CppProgramming.Socket.BenchClient
import CppProgramming.Socket.LatencyTracer
import CppProgramming.Executors.Pipeline
import CppProgramming.Executors.TokenRing
import CppProgramming.Executors.PriorityScheduler
import CppProgramming.Executors.ForkJoin
import CppProgramming.Executors.ForkJoinProgress
import CppProgramming.Executors.ForkJoinSort
import CppProgramming.Chat.Message
import CppProgramming.Chat.Connection
import CppProgramming.Chat.Room
