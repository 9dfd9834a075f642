import Sgrpc.Interleaving.System
import Sgrpc.Interleaving.Counting
import Sgrpc.Interleaving.Placement
import Sgrpc.Interleaving.Lock
import Sgrpc.Interleaving.Progress
import Sgrpc.Interleaving.Linearizable
import Sgrpc.RoundRobin.Slots
import Sgrpc.Queue.TaskStealingQueue
import Sgrpc.Queue.Concurrent
import Sgrpc.Queue.Conservation
import Sgrpc.Queue.Drain
import Sgrpc.Queue.Probes
import Sgrpc.Queue.Linearizable
import Sgrpc.Queue.Sequential
import Sgrpc.Context.State
import Sgrpc.Context.Step
import Sgrpc.Context.Spec
import Sgrpc.Context.Life
import Sgrpc.Context.Join
import Sgrpc.Context.Posts
import Sgrpc.Context.Queues
import Sgrpc.Context.Handshake
import Sgrpc.Context.Passes
import Sgrpc.Context.Completion
import Sgrpc.Context.Thunks
import Sgrpc.Context.Schedule
import Sgrpc.Context.ServerQueue
import Sgrpc.Context.MakeServer
import Sgrpc.Context.Cover
import Sgrpc.Context.Destructor
import Sgrpc.Context.Padlock
import Sgrpc.Context.Attach
import Sgrpc.Context.Notifications
import Sgrpc.Context.Quiescence
import Sgrpc.Context.Heap
import Sgrpc.Context.Counters
import Sgrpc.Context.Deadline
import Sgrpc.Context.Polling
import Sgrpc.Context.Starvation
import Sgrpc.Context.BusyQueues
import Sgrpc.Context.HandlerChange
import Sgrpc.Context.HandlerPlaces
import Sgrpc.Context.ServerDrain
import Sgrpc.Context.Races
import Sgrpc.Context.Never
import Sgrpc.Context.Shares
import Sgrpc.Context.Returns
import Sgrpc.Context.Exit
import Sgrpc.Context.Shutdown
import Sgrpc.Effects.Run
import Sgrpc.Rpc.Status
import Sgrpc.Rpc.OperationState
import Sgrpc.Rpc.Agreement
import Sgrpc.Rpc.CallData
import Sgrpc.Rpc.Running
import Sgrpc.Server.Handler
import Sgrpc.Server.SenderHandler
