import ServerFramework.IOManager.Event
import ServerFramework.Scheduler.Tasks
import Mathlib.Logic.Function.Basic

/-!
# FdContext

The per-descriptor record of the IOManager and the three functions that touch its handlers.  A call
that trips an assertion or dereferences a null pointer ends the process, so the functions return in
`Except Fault`.
-/

namespace Server.IOManager

/-- The assertions of `iomanager.cpp` that guard the bookkeeping of events. -/
inductive Assertion where
  /-- `events & event` in `triggerEvent` -/
  | triggerRegistered
  /-- `!(fdCtx->events & event)` in `addEvent` -/
  | addNotRegistered
  /-- `!(eventCtx.scheduler || eventCtx.fiber || eventCtx.cb)` in `addEvent` -/
  | addContextEmpty
  /-- `eventCtx.fiber->getState() == Fiber::State::EXEC` in `addEvent` -/
  | addFiberExec
  /-- `fd_ctx->events == NONE` at the end of `cancelEvent` -/
  | cancelEventNone
  /-- `fd_ctx->events == NONE` at the end of `cancelAll` -/
  | cancelAllNone
  deriving DecidableEq, Repr

/-- How a call can end the process. -/
inductive Fault where
  | assertFailed (a : Assertion)
  | outOfBounds
  | nullPointer
  deriving DecidableEq, Repr

/-- `FdContext::EventContext` -/
structure EventContext where
  scheduler : Option SchedulerId
  fiber : Option FiberId
  cb : Option Callback
  deriving DecidableEq, Repr

/-- `resetContext`, and the state of a new `EventContext` -/
def EventContext.empty : EventContext := ⟨none, none, none⟩

/-- `!(eventCtx.scheduler || eventCtx.fiber || eventCtx.cb)` -/
def EventContext.isEmpty (ec : EventContext) : Bool :=
  !(ec.scheduler.isSome || ec.fiber.isSome || ec.cb.isSome)

@[simp] theorem EventContext.isEmpty_iff (ec : EventContext) : ec.isEmpty = true ↔ ec = .empty := by
  obtain ⟨s, f, c⟩ := ec
  cases s <;> cases f <;> cases c <;> simp [EventContext.isEmpty, EventContext.empty]

structure FdContext where
  fd : Nat
  read : EventContext
  write : EventContext
  events : EventSet
  deriving DecidableEq

/-- The task queues that handlers are scheduled on, one for each scheduler. -/
abbrev Queues := SchedulerId → List FiberAndThread

namespace FdContext

/-- `new FdContext` with its `fd` set. -/
def new (fd : Nat) : FdContext := ⟨fd, .empty, .empty, .none⟩

def getContext (ctx : FdContext) : Event → EventContext
  | .read => ctx.read
  | .write => ctx.write

/-- Assignment through the reference that `getContext` returns. -/
def setContext (ctx : FdContext) (ec : EventContext) : Event → FdContext
  | .read => { ctx with read := ec }
  | .write => { ctx with write := ec }

@[simp] theorem setContext_events (ctx : FdContext) (ec : EventContext) (e : Event) :
    (ctx.setContext ec e).events = ctx.events := by
  cases e <;> rfl

@[simp] theorem setContext_fd (ctx : FdContext) (ec : EventContext) (e : Event) :
    (ctx.setContext ec e).fd = ctx.fd := by
  cases e <;> rfl

@[simp] theorem getContext_setContext (ctx : FdContext) (ec : EventContext) (e e' : Event) :
    (ctx.setContext ec e).getContext e' = if e = e' then ec else ctx.getContext e' := by
  cases e <;> cases e' <;> rfl

@[simp] theorem getContext_withEvents (ctx : FdContext) (s : EventSet) (e : Event) :
    ({ ctx with events := s } : FdContext).getContext e = ctx.getContext e := by
  cases e <;> rfl

@[simp] theorem getContext_new (fd : Nat) (e : Event) : (new fd).getContext e = .empty := by
  cases e <;> rfl

/-- `ctx.scheduler->schedule(&ctx.cb)` or `ctx.scheduler->schedule(&ctx.fiber)`, then
`ctx.scheduler = nullptr`. -/
def handOver (ec : EventContext) (queues : Queues) : Except Fault (EventContext × Queues) :=
  match ec.scheduler with
  | none => .error .nullPointer
  | some sched =>
    -- the constructor of `FiberAndThread` moves the handler out through the pointer
    if ec.cb.isSome then
      let (ft, cb) := FiberAndThread.moveCb ec.cb (-1)
      .ok (⟨none, ec.fiber, cb⟩,
        Function.update queues sched (scheduleNoLock (queues sched) ft).2)
    else
      let (ft, fiber) := FiberAndThread.moveFiber ec.fiber (-1)
      .ok (⟨none, fiber, ec.cb⟩,
        Function.update queues sched (scheduleNoLock (queues sched) ft).2)

def triggerEvent (ctx : FdContext) (event : Event) (queues : Queues) :
    Except Fault (FdContext × Queues) :=
  if ctx.events.has event then do
    -- the bit goes first, so the slot is still loaded when it is read
    let ctx := { ctx with events := ctx.events.erase event }
    let (ec, queues) ← handOver (ctx.getContext event) queues
    .ok (ctx.setContext ec event, queues)
  else
    .error (.assertFailed .triggerRegistered)

end FdContext

end Server.IOManager
