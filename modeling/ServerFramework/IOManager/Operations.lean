import ServerFramework.IOManager.FdContext
import Mathlib.Data.Fin.Basic

/-!
# The operations of the IOManager

Each public call and each report that `idle` handles is one function on the state.  The kernel's side
of `epoll_ctl` is a map from descriptors to what was registered for them; the argument `ok` of an
operation says whether the kernel lets a call through that it could also refuse.

`FdContext` objects live in `heap` and are never freed while the manager lives, so a pointer is an
index into it and stays valid when the table is resized.
-/

namespace Server

/-- A non-negative `int`. -/
abbrev Fd := Fin (2 ^ 31)

/-- For the numerals of `Fd`. -/
instance Fd.neZero : NeZero (2 ^ 31) := ⟨by decide⟩

/-- A `FdContext*` other than `nullptr`. -/
abbrev FdPtr := Nat

namespace IOManager

/-- `epoll_data`: the notify pipe is registered by descriptor, everything else by pointer. -/
inductive EpollData where
  | fd (fd : Fd)
  | ptr (p : FdPtr)
  deriving DecidableEq, Repr

/-- `epoll_event` -/
structure EpollEvent where
  events : Word
  data : EpollData
  deriving DecidableEq, Repr

inductive EpollOp where
  | add
  | mod
  | del
  deriving DecidableEq, Repr

/-- The interest set of an epoll instance. -/
abbrev Interest := Nat → Option EpollEvent

/-- `epoll_ctl`: `none` is a non-zero return.  `ADD` needs an absent descriptor, `MOD` and `DEL` a
present one, and any call may fail; a failed call changes nothing. -/
def epollCtl (epoll : Interest) (op : EpollOp) (fd : Nat) (event : EpollEvent) (ok : Bool) :
    Option Interest :=
  if ok then
    match op, epoll fd with
    | .add, none => some (Function.update epoll fd (some event))
    | .mod, some _ => some (Function.update epoll fd (some event))
    | .del, some _ => some (Function.update epoll fd none)
    | _, _ => none
  else none

/-- `new_event ? EPOLL_CTL_MOD : EPOLL_CTL_DEL` -/
def removalOp (left : EventSet) : EpollOp := if left.word = 0#32 then .del else .mod

end IOManager

structure IOManager where
  pendingEventCount : BitVec 64
  fdContexts : List (Option FdPtr)
  heap : List IOManager.FdContext
  /-- `m_notifyFds[0]` -/
  notifyFd : Fd
  epoll : IOManager.Interest
  queues : IOManager.Queues

namespace IOManager

/-- What a call reads from its thread: `Scheduler::getThis()`, `Fiber::getThis()` and the latter's
state. -/
structure Caller where
  scheduler : Option SchedulerId
  fiber : FiberId
  fiberState : FiberState
  deriving DecidableEq, Repr

/-- `new FdContext` for every null entry, with `fd` set to its index. -/
def fillNulls (heap : List FdContext) (i : Nat) :
    List (Option FdPtr) → List FdContext × List (Option FdPtr)
  | [] => (heap, [])
  | some p :: rest =>
    let (heap', rest') := fillNulls heap (i + 1) rest
    (heap', some p :: rest')
  | none :: rest =>
    let (heap', rest') := fillNulls (heap ++ [FdContext.new i]) (i + 1) rest
    (heap', some heap.length :: rest')

/-- `std::vector::resize`, new entries being null. -/
def resizeTable (table : List (Option FdPtr)) (size : Nat) : List (Option FdPtr) :=
  table.take size ++ List.replicate (size - table.length) none

def contextResize (io : IOManager) (size : Nat) : IOManager :=
  let (heap, fdContexts) := fillNulls io.heap 0 (resizeTable io.fdContexts size)
  { io with heap := heap, fdContexts := fdContexts }

/-- The state after the constructor. -/
def construct (notifyFd : Fd) : IOManager :=
  contextResize
    { pendingEventCount := 0#64
      fdContexts := []
      heap := []
      notifyFd := notifyFd
      epoll := Function.update (fun _ ↦ none) notifyFd (some ⟨EPOLLIN ||| EPOLLET, .fd notifyFd⟩)
      queues := fun _ ↦ [] } 32

/-- `static_cast<int>(m_fdContexts.size())` -/
def tableSize (io : IOManager) : Int := (BitVec.ofNat 32 io.fdContexts.length).toInt

/-- `m_fdContexts[fd]`, about to be dereferenced. -/
def contextPtr (io : IOManager) (fd : Fd) : Except Fault FdPtr :=
  match io.fdContexts[fd.val]? with
  | none => .error .outOfBounds
  | some none => .error .nullPointer
  | some (some p) => .ok p

def deref (io : IOManager) (p : FdPtr) : Except Fault FdContext :=
  match io.heap[p]? with
  | none => .error .nullPointer
  | some ctx => .ok ctx

/-- The read-locked section of `addEvent`: the context, or nothing if the table has to grow. -/
def addEventFind (io : IOManager) (fd : Fd) : Except Fault (Option FdPtr) :=
  if (fd : Int) < io.tableSize then some <$> io.contextPtr fd else .ok none

/-- `contextResize(fd * 1.5)`: the product is exact in a `double` and truncated to a `size_t`. -/
def growSize (fd : Fd) : Nat := fd * 3 / 2

/-- The write-locked section of `addEvent`. -/
def addEventGrow (io : IOManager) (fd : Fd) : Except Fault (FdPtr × IOManager) :=
  let io := io.contextResize (growSize fd)
  (·, io) <$> io.contextPtr fd

/-- `eventCtx.scheduler = Scheduler::getThis()`, then `cb` or else the running fiber. -/
def newHandler (caller : Caller) (cb : Option Callback) : Except Fault EventContext :=
  match cb with
  | some cb => .ok ⟨caller.scheduler, none, some cb⟩
  | none =>
    if caller.fiberState = .exec then .ok ⟨caller.scheduler, some caller.fiber, none⟩
    else .error (.assertFailed .addFiberExec)

/-- The section of `addEvent` under the lock of the `FdContext`. -/
def addEventLocked (io : IOManager) (p : FdPtr) (fd : Fd) (event : Event) (caller : Caller)
    (cb : Option Callback) (ok : Bool) : Except Fault (Int × IOManager) := do
  let fdCtx ← io.deref p
  if fdCtx.events.has event then .error (.assertFailed .addNotRegistered) else
  let op : EpollOp := if fdCtx.events.word ≠ 0#32 then .mod else .add
  match epollCtl io.epoll op fd ⟨EPOLLET ||| fdCtx.events.word ||| event.word, .ptr p⟩ ok with
  | none => .ok (-1, io)
  | some epoll =>
    -- the count and the mask change before this assertion, which nobody sees if it fails
    if (fdCtx.getContext event).isEmpty then do
      let handler ← newHandler caller cb
      .ok (0,
        { io with
          pendingEventCount := io.pendingEventCount + 1#64
          epoll := epoll
          heap := io.heap.set p
            ({ fdCtx with events := fdCtx.events.insert event }.setContext handler event) })
    else .error (.assertFailed .addContextEmpty)

def addEvent (io : IOManager) (fd : Fd) (event : Event) (caller : Caller) (cb : Option Callback)
    (ok : Bool) : Except Fault (Int × IOManager) := do
  match ← io.addEventFind fd with
  | some p => io.addEventLocked p fd event caller cb ok
  | none => do
    -- the table is as the read-locked section left it: the call is one step here
    let (p, io) ← io.addEventGrow fd
    io.addEventLocked p fd event caller cb ok

def delEvent (io : IOManager) (fd : Fd) (event : Event) (ok : Bool) :
    Except Fault (Bool × IOManager) :=
  if io.tableSize ≤ fd then .ok (false, io) else do
  let p ← io.contextPtr fd
  let fdCtx ← io.deref p
  -- the source tests `events | event` here where `cancelEvent` tests `events & event`
  if fdCtx.events.word ||| event.word = 0#32 then .ok (false, io) else
  let newEvent := fdCtx.events.erase event
  match epollCtl io.epoll (removalOp newEvent) fd ⟨EPOLLET ||| newEvent.word, .ptr p⟩ ok with
  | none => .ok (false, io)
  | some epoll =>
    .ok (true,
      { io with
        pendingEventCount := io.pendingEventCount - 1#64
        epoll := epoll
        heap := io.heap.set p ({ fdCtx with events := newEvent }.setContext .empty event) })

def cancelEvent (io : IOManager) (fd : Fd) (event : Event) (ok : Bool) :
    Except Fault (Bool × IOManager) :=
  if io.tableSize ≤ fd then .ok (false, io) else do
  let p ← io.contextPtr fd
  let fdCtx ← io.deref p
  if fdCtx.events.has event then
    let newEvent := fdCtx.events.erase event
    match epollCtl io.epoll (removalOp newEvent) fd ⟨EPOLLET ||| newEvent.word, .ptr p⟩ ok with
    | none => .ok (false, io)
    | some epoll => do
      let (fdCtx, queues) ← fdCtx.triggerEvent event io.queues
      -- the assertion wants the other direction to be unregistered too
      if fdCtx.events.word = NONE then
        .ok (true,
          { io with
            pendingEventCount := io.pendingEventCount - 1#64
            epoll := epoll
            heap := io.heap.set p fdCtx
            queues := queues })
      else .error (.assertFailed .cancelEventNone)
  else .ok (false, io)

/-- `if (mask & event) { triggerEvent(event); --m_pendingEventCount; }` -/
def triggerIf (cond : Bool) (event : Event) (st : FdContext × Queues × BitVec 64) :
    Except Fault (FdContext × Queues × BitVec 64) :=
  if cond then do
    let (fdCtx, queues) ← st.1.triggerEvent event st.2.1
    .ok (fdCtx, queues, st.2.2 - 1#64)
  else .ok st

def cancelAll (io : IOManager) (fd : Fd) (ok : Bool) : Except Fault (Bool × IOManager) :=
  -- `<` where the other calls have `<=`
  if io.tableSize < fd then .ok (false, io) else do
  let p ← io.contextPtr fd
  let fdCtx ← io.deref p
  if fdCtx.events.word = 0#32 then .ok (false, io) else
  match epollCtl io.epoll .del fd ⟨0#32, .ptr p⟩ ok with
  | none => .ok (false, io)
  | some epoll => do
    let st ← triggerIf (fdCtx.events.has .read) .read (fdCtx, io.queues, io.pendingEventCount)
    -- this condition reads the mask that the first trigger left
    let (fdCtx, queues, count) ← triggerIf (st.1.events.has .write) .write st
    if fdCtx.events.word = NONE then
      .ok (true,
        { io with
          pendingEventCount := count
          epoll := epoll
          heap := io.heap.set p fdCtx
          queues := queues })
    else .error (.assertFailed .cancelAllNone)

/-- `EPOLLERR` and `EPOLLHUP` count as both directions. -/
def widen (events : Word) : Word :=
  if events &&& (EPOLLERR ||| EPOLLHUP) ≠ 0#32 then events ||| (EPOLLIN ||| EPOLLOUT) else events

/-- `real_events`, from the reported word. -/
def realEvents (events : Word) : EventSet :=
  let s : EventSet := if widen events &&& EPOLLIN ≠ 0#32 then EventSet.none.insert .read else .none
  if widen events &&& EPOLLOUT ≠ 0#32 then s.insert .write else s

/-- The body of the loop of `idle` over what `epoll_wait` reported, for one report. -/
def handleReport (io : IOManager) (event : EpollEvent) (ok : Bool) : Except Fault IOManager :=
  match event.data with
  | .fd fd => if fd = io.notifyFd then .ok io else .error .nullPointer
  | .ptr p => do
    let fdCtx ← io.deref p
    let real := realEvents event.events
    -- one common direction is enough to go on
    if fdCtx.events.word &&& real.word = NONE then .ok io else
    let left := fdCtx.events.diff real
    match epollCtl io.epoll (removalOp left) fdCtx.fd ⟨EPOLLET ||| left.word, .ptr p⟩ ok with
    | none => .ok io
    | some epoll => do
      -- both conditions read what was reported, not what is registered
      let st ← triggerIf (real.has .read) .read (fdCtx, io.queues, io.pendingEventCount)
      let (fdCtx, queues, count) ← triggerIf (real.has .write) .write st
      .ok
        { io with
          pendingEventCount := count
          epoll := epoll
          heap := io.heap.set p fdCtx
          queues := queues }

/-- One atomic step: a call from some thread, or one report handled by some worker's `idle`. -/
inductive Op where
  | addEvent (fd : Fd) (event : Event) (caller : Caller) (cb : Option Callback) (ok : Bool)
  | delEvent (fd : Fd) (event : Event) (ok : Bool)
  | cancelEvent (fd : Fd) (event : Event) (ok : Bool)
  | cancelAll (fd : Fd) (ok : Bool)
  | idle (event : EpollEvent) (ok : Bool)
  deriving DecidableEq, Repr

def step (io : IOManager) : Op → Except Fault IOManager
  | .addEvent fd event caller cb ok => (·.2) <$> io.addEvent fd event caller cb ok
  | .delEvent fd event ok => (·.2) <$> io.delEvent fd event ok
  | .cancelEvent fd event ok => (·.2) <$> io.cancelEvent fd event ok
  | .cancelAll fd ok => (·.2) <$> io.cancelAll fd ok
  | .idle event ok => io.handleReport event ok

end IOManager

end Server
