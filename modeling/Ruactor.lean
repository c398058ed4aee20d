import Ruactor.Library.Machine
import Ruactor.Library.Simulation
import Ruactor.Library.Pool
import Ruactor.Library.Outcome
import Ruactor.Library.History
import Ruactor.Library.RwLock
import Ruactor.Library.Poison
import Ruactor.Library.Segments
import Ruactor.Library.Extraction
import Ruactor.Library.Supply
import Ruactor.Library.Weight
import Ruactor.Library.Oneshot
import Ruactor.Library.Descent
import Ruactor.Path
import Ruactor.Message
import Ruactor.Context
import Ruactor.Dispatcher
import Ruactor.Mailbox
import Ruactor.Moves
import Ruactor.Ownership
import Ruactor.Wakeup
import Ruactor.Callbacks
import Ruactor.Phases
import Ruactor.Logging
import Ruactor.Panics
import Ruactor.CutOff
import Ruactor.Lifecycle
import Ruactor.Bracketing
import Ruactor.Scheduler
import Ruactor.Tree
import Ruactor.Kinship
import Ruactor.Family
import Ruactor.Farewell
import Ruactor.Finality
import Ruactor.Tracking
import Ruactor.Registered
import Ruactor.Orphans
import Ruactor.Watching
import Ruactor.Naming
import Ruactor.Proper
import Ruactor.Stopping
import Ruactor.BottomUp
import Ruactor.DeliveryLog
import Ruactor.Stashing
import Ruactor.Deliveries
import Ruactor.Answers
import Ruactor.SelfStop
import Ruactor.Graceful
import Ruactor.Drained
import Ruactor.Handing
import Ruactor.Timed
import Ruactor.Alarms
import Ruactor.Timers
import Ruactor.Timeouts
import Ruactor.Deadlines
import Ruactor.Rearming
import Ruactor.Registry
import Ruactor.Guards
import Ruactor.Uniqueness
import Ruactor.GetOrCreate
import Ruactor.Poisoning
import Ruactor.Restashing
import Ruactor.Restarts
import Ruactor.Creation
import Ruactor.Generated
import Ruactor.Musts
import Ruactor.Firing
import Ruactor.Hierarchy
import Ruactor.Levels
import Ruactor.Typing
import Ruactor.Forest
import Ruactor.Printed
import Ruactor.Worker
import Ruactor.Handles
import Ruactor.Inversion
import Ruactor.Clockwork
import Ruactor.Summons
import Ruactor.Shutdown
import Ruactor.Teardown
import Ruactor.Overtaking
import Ruactor.Contents
import Ruactor.Ask
import Ruactor.Senders
import Ruactor.Replies
import Ruactor.Asked
import Ruactor.Atomic
import Ruactor.Resting
import Ruactor.Progress
import Ruactor.Ending
