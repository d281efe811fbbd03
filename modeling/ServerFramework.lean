import ServerFramework.Config.AddListener
import ServerFramework.Config.Alias
import ServerFramework.Config.Arg
import ServerFramework.Config.Containers
import ServerFramework.Config.FromString
import ServerFramework.Config.KeyCase
import ServerFramework.Config.Load
import ServerFramework.Config.Manager
import ServerFramework.Config.Reentrant
import ServerFramework.Config.Strings
import ServerFramework.Fiber.Objects
import ServerFramework.Fiber.Reset
import ServerFramework.Fiber.Switch
import ServerFramework.Framework.Events
import ServerFramework.Framework.LockOrder
import ServerFramework.IOManager.Bounds
import ServerFramework.IOManager.Cancel
import ServerFramework.IOManager.Delivery
import ServerFramework.IOManager.Descriptors
import ServerFramework.IOManager.Event
import ServerFramework.IOManager.FdContext
import ServerFramework.IOManager.Handlers
import ServerFramework.IOManager.Kernel
import ServerFramework.IOManager.Linearization
import ServerFramework.IOManager.Notify
import ServerFramework.IOManager.Operations
import ServerFramework.IOManager.PendingCount
import ServerFramework.IOManager.Specs
import ServerFramework.IOManager.Steps
import ServerFramework.IOManager.Table
import ServerFramework.IOManager.TableGrowth
import ServerFramework.IOManager.Teardown
import ServerFramework.IOManager.Trigger
import ServerFramework.Library.Acyclic
import ServerFramework.Library.Changes
import ServerFramework.Library.Counter
import ServerFramework.Library.Document
import ServerFramework.Library.Escape
import ServerFramework.Library.Fallible
import ServerFramework.Library.Family
import ServerFramework.Library.KeyedFold
import ServerFramework.Library.Ledger
import ServerFramework.Library.Locks
import ServerFramework.Library.OrderedMap
import ServerFramework.Library.OrderedSet
import ServerFramework.Library.Runs
import ServerFramework.Library.Sections
import ServerFramework.Library.SharedLocks
import ServerFramework.Log.Appenders
import ServerFramework.Log.Config
import ServerFramework.Log.Define
import ServerFramework.Log.Delivery
import ServerFramework.Log.Dispatch
import ServerFramework.Log.Dump
import ServerFramework.Log.Format
import ServerFramework.Log.Formatter
import ServerFramework.Log.Grammar
import ServerFramework.Log.Listener
import ServerFramework.Log.Locks
import ServerFramework.Log.Logger
import ServerFramework.Log.Percent
import ServerFramework.Log.Records
import ServerFramework.Log.Registry
import ServerFramework.Log.Rendering
import ServerFramework.Log.Reopen
import ServerFramework.Log.RoundTrip
import ServerFramework.Log.Segments
import ServerFramework.Log.Streams
import ServerFramework.Mutex.Guards
import ServerFramework.Scheduler.Accounting
import ServerFramework.Scheduler.Affinity
import ServerFramework.Scheduler.Batch
import ServerFramework.Scheduler.Cycles
import ServerFramework.Scheduler.Drain
import ServerFramework.Scheduler.Launch
import ServerFramework.Scheduler.Machine
import ServerFramework.Scheduler.Order
import ServerFramework.Scheduler.Ownership
import ServerFramework.Scheduler.Plain
import ServerFramework.Scheduler.Progress
import ServerFramework.Scheduler.References
import ServerFramework.Scheduler.Restart
import ServerFramework.Scheduler.Reuse
import ServerFramework.Scheduler.Shutdown
import ServerFramework.Scheduler.Single
import ServerFramework.Scheduler.Steps
import ServerFramework.Scheduler.Stopped
import ServerFramework.Scheduler.Straight
import ServerFramework.Scheduler.Tasks
import ServerFramework.Scheduler.WakeUp
