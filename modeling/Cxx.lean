import Cxx.Core.LTS
import Cxx.Core.Potential
import Cxx.Core.Ring
import Cxx.Core.Loop
import Cxx.Core.Object
import Cxx.Core.Linear
import Cxx.Core.Lifetime
import Cxx.Core.History
import Cxx.Core.Stream
import Cxx.Core.Buffer
import Cxx.Core.Exec
import Cxx.Core.Threads
import Cxx.Core.Locks
import Cxx.Core.Mailbox
import Cxx.Core.Chain
import Cxx.Core.FileTree
import Cxx.Core.Directories
import Cxx.Channel.CSPChannel
import Cxx.Channel.Delivery
import Cxx.Channel.WakeUps
import Cxx.Pool.ThreadPool
import Cxx.Pool.Tasks
import Cxx.Pool.Service
import Cxx.Pool.Hang
import Cxx.DataStruct.CircleQueue
import Cxx.DataStruct.CircleElements
import Cxx.DataStruct.LockFreeRing
import Cxx.DataStruct.SingleProducer
import Cxx.DataStruct.SafeMap
import Cxx.DataStruct.GetMap
import Cxx.DataStruct.MapProgress
import Cxx.DataStruct.SafeQueue
import Cxx.DataStruct.TwoLockQueue
import Cxx.DataStruct.TwoLockThrow
import Cxx.DataStruct.TwoLockSleep
import Cxx.DataStruct.SafeList
import Cxx.DataStruct.ListThreads
import Cxx.DataStruct.ListWalks
import Cxx.DataStruct.ListShared
import Cxx.DataStruct.ListRaces
import Cxx.Chat.MyUtility
import Cxx.Chat.IdLayout
import Cxx.Asio.MsgNode
import Cxx.Asio.Session
import Cxx.Asio.Parser
import Cxx.Asio.ReadLoop
import Cxx.Asio.Receiver
import Cxx.Asio.WritePump
import Cxx.Asio.Narrowing
import Cxx.Asio.Echo
import Cxx.Asio.Server
import Cxx.Asio.Isolation
import Cxx.Asio.SendQueue
import Cxx.Atm.Dispatcher
import Cxx.Atm.DispatchChain
import Cxx.Atm.Message
import Cxx.Atm.Machines
import Cxx.Atm.Sessions
import Cxx.Atm.PinEntry
import Cxx.Atm.System
import Cxx.Atm.Replies
import Cxx.Atm.Balance
import Cxx.Atm.Money
import Cxx.Atm.Accounting
import Cxx.Atm.Shutdown
import Cxx.Atm.Machinery
import Cxx.Atm.Rest
import Cxx.Atm.Screen
import Cxx.FileTransfer.FileManager
import Cxx.FileTransfer.Links
import Cxx.FileTransfer.Confinement
import Cxx.FileTransfer.Upload
import Cxx.FileTransfer.Store
