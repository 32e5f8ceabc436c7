import NixGrpcStore.Lib.DaryHeap
import NixGrpcStore.Lib.StateExcept
import NixGrpcStore.Sched.Basic
import NixGrpcStore.Sched.IndexedHeap
import NixGrpcStore.Sched.FreeIndex
import NixGrpcStore.Sched.Systems
import NixGrpcStore.Sched.Core
import NixGrpcStore.Sched.Books
import NixGrpcStore.Sched.Invariant
import NixGrpcStore.Sched.ClientOps
import NixGrpcStore.Sched.WorkerOps
import NixGrpcStore.Sched.Hello
import NixGrpcStore.Sched.Pick
import NixGrpcStore.Sched.Dispatch
import NixGrpcStore.Sched.Placeability
import NixGrpcStore.Lib.Run
import NixGrpcStore.Sched.Reachable
import NixGrpcStore.Sched.Placement
import NixGrpcStore.Remote
import NixGrpcStore.Dispatcher.Model
import NixGrpcStore.Dispatcher.Stage
import NixGrpcStore.Dispatcher.Frame
import NixGrpcStore.Dispatcher.Delivery
import NixGrpcStore.Dispatcher.ClientSections
import NixGrpcStore.Dispatcher.WorkerSections
import NixGrpcStore.Dispatcher.Threads
import NixGrpcStore.Dispatcher.Leaving
import NixGrpcStore.Dispatcher.Waning
import NixGrpcStore.Dispatcher.Membership
import NixGrpcStore.Dispatcher.Follows
import NixGrpcStore.Dispatcher.Order
import NixGrpcStore.Dispatcher.Grace
import NixGrpcStore.Dispatcher.Truth
import NixGrpcStore.Dispatcher.News
import NixGrpcStore.Dispatcher.Rebuild
import NixGrpcStore.Dispatcher.Sessions
import NixGrpcStore.Sched.Followers
import NixGrpcStore.Dispatcher.Declining
import NixGrpcStore.Lib.Tally
import NixGrpcStore.Client.Executor
import NixGrpcStore.Client.Moves
import NixGrpcStore.Client.Ledger
import NixGrpcStore.Client.Runs
import NixGrpcStore.Lib.Acyclic
import NixGrpcStore.Lib.CountedOrder
import NixGrpcStore.Client.Progress
import NixGrpcStore.Client.Inputs
import NixGrpcStore.Lib.Notices
import NixGrpcStore.Client.Stream
import NixGrpcStore.Client.Cap
import NixGrpcStore.Client.Placed
import NixGrpcStore.Builder.Model
import NixGrpcStore.Builder.Owner
import NixGrpcStore.Coordinator.InProcess
import NixGrpcStore.Lib.Crew
import NixGrpcStore.Reactor.Queue
import NixGrpcStore.Reactor.Endpoints
import NixGrpcStore.Reactor.Lifetime
import NixGrpcStore.TopDown.Walk
import NixGrpcStore.TopDown.Decide
import NixGrpcStore.Client.Frame
import NixGrpcStore.Client.Stopping
import NixGrpcStore.Lib.Records
import NixGrpcStore.Sched.InUse
import NixGrpcStore.Sched.Forgotten
import NixGrpcStore.Sched.Stats
import NixGrpcStore.Daemon.Claims
import NixGrpcStore.Daemon.Logfmt
import NixGrpcStore.Daemon.Elector
