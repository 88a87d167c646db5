import ActorsFramework.Lib.Transition
import ActorsFramework.Lib.Tally
import ActorsFramework.Lib.Chain
import ActorsFramework.Lib.Progress
import ActorsFramework.Detail.SingleReaderQueue
import ActorsFramework.Executor.WorkSharing
import ActorsFramework.Executor.Shutdown
import ActorsFramework.Executor.Accounting
import ActorsFramework.Executor.Termination
import ActorsFramework.Executor.Fairness
import ActorsFramework.Executor.JobShutdown
import ActorsFramework.Actor.NextMessage
import ActorsFramework.Actor.CooperativeActor
import ActorsFramework.Actor.History
import ActorsFramework.Actor.Conservation
import ActorsFramework.Actor.Throughput
import ActorsFramework.Actor.Synchronous
import ActorsFramework.Detail.LinkedQueue
import ActorsFramework.Detail.SynchronizedAccess
import ActorsFramework.Actor.Scheduling
import ActorsFramework.Actor.Activation
import ActorsFramework.Actor.Blocking
import ActorsFramework.Actor.Wakeup
import ActorsFramework.Actor.Delivery
import ActorsFramework.Detail.Reader
import ActorsFramework.Detail.Close
import ActorsFramework.Detail.Lifecycle
import ActorsFramework.Detail.Count
import ActorsFramework.Detail.IntrusivePtr
import ActorsFramework.Detail.RefCounted
import ActorsFramework.Supervisor.Contacts
import ActorsFramework.Supervisor.ContactBook
import ActorsFramework.Supervisor.MutualLinks
import ActorsFramework.Supervisor.Lifetime
import ActorsFramework.Supervisor.Dispatch
import ActorsFramework.Lib.Any
import ActorsFramework.Messaging.Handler
import ActorsFramework.Messaging.Delegate
import ActorsFramework.Messaging.Ownership
import ActorsFramework.Detail.PartitionedList
import ActorsFramework.Supervisor.Namesakes
import ActorsFramework.Supervisor.Unlink
import ActorsFramework.Messaging.Broadcast
import ActorsFramework.Actor.Priority
import ActorsFramework.Actor.SingleRun
import ActorsFramework.Detail.Tokens
import ActorsFramework.Detail.QueueMemory
import ActorsFramework.Detail.Align
import ActorsFramework.Detail.AlignedAllocate
import ActorsFramework.Messaging.Execute
import ActorsFramework.Supervisor.AddressObjects
import ActorsFramework.Lib.Amortised
import ActorsFramework.Lib.Projection
import ActorsFramework.Detail.LockFreedom
import ActorsFramework.Detail.SynchronizedProgress
import ActorsFramework.Lib.PartitionPoint
import ActorsFramework.Actor.Stash
import ActorsFramework.Detail.Replies
import ActorsFramework.Actor.Ensemble
import ActorsFramework.Actor.PairwiseOrder
import ActorsFramework.Actor.Runtime
import ActorsFramework.Actor.EnsembleTermination
import ActorsFramework.Actor.RuntimeTermination
import ActorsFramework.Actor.RunSteps
import ActorsFramework.Actor.RunTermination
