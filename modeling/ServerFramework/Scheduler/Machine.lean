import ServerFramework.Scheduler.Tasks
import ServerFramework.IOManager.Event
import ServerFramework.Library.Runs
import Mathlib.Logic.Function.Basic

/-!
# The scheduler as a machine

Workers `W` execute `Scheduler::run`, threads `D` deliver events for an `IOManager`, and threads `O`
evaluate `stopped()`.  One step is one access to shared data: a section under `m_mutex`, one read or
write of a fiber's state, one change of a counter, or one `swapcontext`.  Steps are interleaved
arbitrarily.

`notify` only wakes sleeping threads and is left out, and with it `m_idleThreadCount`, which `Accounts`
adds.
-/

namespace Server

open IOManager (Event)

/-- The part of a `Fiber` that other threads can see.  `saved` says that `m_ctx` holds the context in
which the fiber has to be resumed. -/
structure Fiber where
  state : FiberState
  saved : Bool
  deriving DecidableEq, Repr

/-- After the constructor, and after `reset`. -/
def Fiber.fresh : Fiber := ⟨.init, true⟩

/-- `m_state == TERM || m_state == EXCEPT` -/
def FiberState.finished (st : FiberState) : Bool := decide (st = .term ∨ st = .except)

/-- The assertion of `Fiber::reset`. -/
def FiberState.resettable (st : FiberState) : Bool := decide (st = .term ∨ st = .except ∨ st = .init)

/-- Whether `run` executes `ft.fiber` or its own `cbFiber`. -/
inductive Role where
  | task
  | callback
  deriving DecidableEq, Repr

/-- Where a worker is with a fiber, named by the next access it makes. -/
inductive Stage where
  /-- `swapIn`: the assertion `m_state != EXEC` -/
  | check
  /-- `swapIn`: the write of `EXEC` -/
  | mark
  /-- `swapIn`: `swapcontext` -/
  | switchIn
  /-- the fiber executes -/
  | running
  /-- the fiber wrote its state; `swapOut`: `swapcontext` -/
  | leaving
  /-- back in `run`: `--m_activeThreadCount` -/
  | returned
  /-- `run`: the tests of the state -/
  | examine
  /-- `run`: `schedule` of a fiber that was `READY` -/
  | requeue
  /-- `run`: the write of `HOLD` -/
  | hold
  /-- `run`: `cbFiber->reset(nullptr)` -/
  | retire
  deriving DecidableEq, Repr

inductive Pc where
  /-- the section under `m_mutex` -/
  | scan
  /-- with the entry taken, or an empty one -/
  | dispatch (ft : FiberAndThread) (isActive : Bool)
  | at (stage : Stage) (role : Role) (f : FiberId)
  /-- in `idleFiber` -/
  | idle
  | exited
  deriving DecidableEq, Repr

structure Worker where
  thread : Int
  pc : Pc
  cbFiber : Option FiberId
  /-- `idleFiber` is in the state `TERM`. -/
  idleDone : Bool
  deriving DecidableEq, Repr

/-- An event of an fd whose bit is set, with what its `EventContext` schedules. -/
structure Registration where
  fd : Nat
  event : Event
  ft : FiberAndThread
  deriving DecidableEq, Repr

/-- Where a thread is with an event it delivers. -/
inductive Deliverer where
  | free
  /-- `triggerEvent` cleared the bit and moved the handler out -/
  | pushing (ft : FiberAndThread)
  /-- before `--m_pendingEventCount` -/
  | uncounting
  deriving DecidableEq, Repr

/-- Where a thread is in `IOManager::stopped`. -/
inductive Observer where
  | out
  /-- in `Scheduler::stopped` with `m_mutex`, before the read of `m_activeThreadCount` -/
  | atActive
  /-- `Scheduler::stopped` returned true -/
  | atPending
  deriving DecidableEq, Repr

structure Machine (W D O : Type) where
  fibers : List FiberAndThread
  activeThreadCount : Int
  pendingEventCount : Int
  isRunning : Bool
  autoStop : Bool
  /-- the fiber objects; those from `nextFiber` on do not exist yet -/
  fiber : FiberId → Fiber
  nextFiber : FiberId
  worker : W → Worker
  registrations : List Registration
  deliverer : D → Deliverer
  observer : O → Observer
  /-- the observer that holds `m_mutex` between two of its steps -/
  mutex : Option O

/-- What a fiber writes before it switches out: `yieldToReady`, `yieldToHold`, `mainFunc`. -/
inductive Yield where
  | ready
  | hold
  | term
  | except
  deriving DecidableEq, Repr

def Yield.state : Yield → FiberState
  | .ready => .ready
  | .hold => .hold
  | .term => .term
  | .except => .except

inductive Action (W D O : Type) where
  /-- some thread creates a `Fiber` -/
  | newFiber
  /-- some thread calls `schedule` -/
  | schedule (ft : FiberAndThread)
  /-- the next step of `run` -/
  | work (w : W)
  /-- the fiber on a worker yields or ends -/
  | yield (w : W) (y : Yield)
  /-- the idle fiber of a worker ends -/
  | idleEnd (w : W)
  /-- the fiber on a worker calls `addEvent` without a callback -/
  | addEvent (w : W) (fd : Nat) (event : Event)
  | addCallback (fd : Nat) (event : Event) (cb : Callback)
  | delEvent (fd : Nat) (event : Event)
  | trigger (d : D) (fd : Nat) (event : Event)
  | push (d : D)
  | uncount (d : D)
  /-- `stop`: `m_autoStop = true` -/
  | setAutoStop
  /-- `stop`: `m_isRunning = false` -/
  | clearRunning
  /-- `stopped`: lock `m_mutex`, read the flags and the queue -/
  | readQueue (o : O)
  /-- `stopped`: read `m_activeThreadCount`, unlock, return -/
  | readActive (o : O)
  /-- `IOManager::stopped`: read `m_pendingEventCount`, return -/
  | readPending (o : O)
  deriving DecidableEq, Repr

/-- The first element that meets the condition, and the list without it. -/
def takeFirst {α : Type} (p : α → Bool) : List α → Option (α × List α)
  | [] => none
  | x :: xs => if p x then some (x, xs) else (takeFirst p xs).map fun (y, ys) ↦ (y, x :: ys)

theorem takeFirst_some {α : Type} {p : α → Bool} {l l' : List α} {x : α}
    (h : takeFirst p l = some (x, l')) :
    p x = true ∧ ∃ a b, l = a ++ x :: b ∧ l' = a ++ b := by
  induction l generalizing l' with
  | nil => cases h
  | cons y ys ih =>
      -- the head is taken, or it stays in front of what the rest gives
      rw [takeFirst] at h
      by_cases hy : p y = true
      · rw [if_pos hy] at h
        cases h
        exact ⟨hy, [], ys, rfl, rfl⟩
      · rw [if_neg hy] at h
        obtain ⟨⟨z, zs⟩, hz, heq⟩ := Option.map_eq_some_iff.mp h
        cases heq
        obtain ⟨hx, a, b, rfl, rfl⟩ := ih hz
        exact ⟨hx, y :: a, b, rfl, rfl⟩

namespace Machine

variable {W D O : Type} [DecidableEq W]

def setWorker (s : Machine W D O) (w : W) (wk : Worker) : Machine W D O :=
  { s with worker := Function.update s.worker w wk }

def setPc (s : Machine W D O) (w : W) (pc : Pc) : Machine W D O :=
  s.setWorker w { s.worker w with pc := pc }

def setFiber (s : Machine W D O) (f : FiberId) (fb : Fiber) : Machine W D O :=
  { s with fiber := Function.update s.fiber f fb }

def setState (s : Machine W D O) (f : FiberId) (st : FiberState) : Machine W D O :=
  s.setFiber f { s.fiber f with state := st }

def setSaved (s : Machine W D O) (f : FiberId) (saved : Bool) : Machine W D O :=
  s.setFiber f { s.fiber f with saved := saved }

/-- What `run` does not pass over while it scans `m_fibers`. -/
def takeable (s : Machine W D O) (thread : Int) (ft : FiberAndThread) : Bool :=
  (ft.thread == -1 || ft.thread == thread) &&
    match ft.fiber with
    -- `EXEC` is written later, outside the lock
    | some f => (s.fiber f).state != .exec
    | none => true

/-- The section of `run` under `m_mutex`. -/
def scan (s : Machine W D O) (w : W) : Machine W D O :=
  match takeFirst (s.takeable (s.worker w).thread) s.fibers with
  | some (ft, rest) =>
    { s with fibers := rest, activeThreadCount := s.activeThreadCount + 1 }.setPc w
      (.dispatch ft true)
  | none => s.setPc w (.dispatch ⟨none, none, -1⟩ false)

/-- The branch of `run` for a callback, up to `swapIn`. -/
def startCallback (s : Machine W D O) (w : W) : Option (Machine W D O) :=
  match (s.worker w).cbFiber with
  | some c =>
    if (s.fiber c).state.resettable then
      some ((s.setFiber c .fresh).setPc w (.at .check .callback c))
    else none
  | none =>
    let c := s.nextFiber
    some (({ s with nextFiber := c + 1 }.setFiber c .fresh).setWorker w
      { s.worker w with cbFiber := some c, pc := .at .check .callback c })

def dispatch (s : Machine W D O) (w : W) (ft : FiberAndThread) (isActive : Bool) :
    Option (Machine W D O) :=
  match ft.fiber.filter fun f ↦ !(s.fiber f).state.finished with
  | some f => some (s.setPc w (.at .check .task f))
  | none =>
    -- a fiber that has ended is dropped with its entry
    if ft.cb.isSome then s.startCallback w
    else if isActive then
      some ({ s with activeThreadCount := s.activeThreadCount - 1 }.setPc w .scan)
    else some (s.setPc w (if (s.worker w).idleDone then .exited else .idle))

/-- Back to the top of the loop; a `cbFiber` that is still in use elsewhere is given up. -/
def release (s : Machine W D O) (w : W) (role : Role) : Machine W D O :=
  s.setWorker w
    { s.worker w with
      pc := .scan
      cbFiber := if role = .callback then none else (s.worker w).cbFiber }

/-- What `run` does about the state that it finds after `swapIn`. -/
def examined (s : Machine W D O) (role : Role) (f : FiberId) : Pc :=
  if (s.fiber f).state = .ready then .at .requeue role f
  else if (s.fiber f).state.finished then
    match role with
    | .task => .scan
    -- the fiber is kept for the next callback
    | .callback => .at .retire role f
  else .at .hold role f

/-- One step with the fiber `f`.  A failed assertion ends the process. -/
def advance (s : Machine W D O) (w : W) (stage : Stage) (role : Role) (f : FiberId) :
    Option (Machine W D O) :=
  match stage with
  | .check => if (s.fiber f).state = .exec then none else some (s.setPc w (.at .mark role f))
  | .mark => some ((s.setState f .exec).setPc w (.at .switchIn role f))
  | .switchIn => some ((s.setSaved f false).setPc w (.at .running role f))
  -- the code of the fiber goes on with `Action.yield`
  | .running => none
  | .leaving => some ((s.setSaved f true).setPc w (.at .returned role f))
  | .returned =>
    some ({ s with activeThreadCount := s.activeThreadCount - 1 }.setPc w (.at .examine role f))
  | .examine => some (s.setPc w (s.examined role f))
  -- `schedule` needs `m_mutex`
  | .requeue =>
    if s.mutex.isSome then none
    else some ({ s with fibers := (scheduleNoLock s.fibers (.ofFiber (some f) (-1))).2 }.release w
      role)
  | .hold => some ((s.setState f .hold).release w role)
  | .retire =>
    if (s.fiber f).state.resettable then some ((s.setFiber f .fresh).setPc w .scan) else none

/-- The next step of `Scheduler::run`. -/
def work (s : Machine W D O) (w : W) : Option (Machine W D O) :=
  match (s.worker w).pc with
  | .scan => if s.mutex.isSome then none else some (s.scan w)
  | .dispatch ft isActive => s.dispatch w ft isActive
  | .at stage role f => s.advance w stage role f
  -- `yieldToHold` in `idle`
  | .idle => some (s.setPc w .scan)
  | .exited => none

/-- The fibers of a queue entry exist. -/
def known (s : Machine W D O) (ft : FiberAndThread) : Bool :=
  match ft.fiber with
  | some f => decide (f < s.nextFiber)
  | none => true

/-- What the `EventContext` of an event holds, if its bit is set. -/
def registration (s : Machine W D O) (fd : Nat) (event : Event) : Option Registration :=
  s.registrations.find? fun r ↦ r.fd == fd && r.event == event

def register (s : Machine W D O) (r : Registration) : Option (Machine W D O) :=
  match s.registration r.fd r.event with
  | some _ => none
  | none =>
    some { s with
      registrations := s.registrations ++ [r]
      pendingEventCount := s.pendingEventCount + 1 }

variable [DecidableEq D] [DecidableEq O]

def setDeliverer (s : Machine W D O) (d : D) (v : Deliverer) : Machine W D O :=
  { s with deliverer := Function.update s.deliverer d v }

def setObserver (s : Machine W D O) (o : O) (v : Observer) : Machine W D O :=
  { s with observer := Function.update s.observer o v }

/-- The part of `Scheduler::stopped` that reads under `m_mutex` alone. -/
def drained (s : Machine W D O) : Bool := s.autoStop && !s.isRunning && s.fibers.isEmpty

def step (s : Machine W D O) : Action W D O → Option (Machine W D O)
  | .newFiber => some ({ s with nextFiber := s.nextFiber + 1 }.setFiber s.nextFiber .fresh)
  | .schedule ft =>
    if s.mutex.isSome || !s.known ft then none
    else some { s with fibers := (scheduleNoLock s.fibers ft).2 }
  | .work w => s.work w
  | .yield w y =>
    match (s.worker w).pc with
    | .at .running role f => some ((s.setState f y.state).setPc w (.at .leaving role f))
    | _ => none
  | .idleEnd w =>
    match (s.worker w).pc with
    | .idle => some (s.setWorker w { s.worker w with pc := .scan, idleDone := true })
    | _ => none
  | .addEvent w fd event =>
    match (s.worker w).pc with
    | .at .running _ f => s.register ⟨fd, event, .ofFiber (some f) (-1)⟩
    | _ => none
  | .addCallback fd event cb => s.register ⟨fd, event, .ofCb (some cb) (-1)⟩
  | .delEvent fd event =>
    match s.registration fd event with
    | some r =>
      some { s with
        registrations := s.registrations.erase r
        pendingEventCount := s.pendingEventCount - 1 }
    | none => none
  | .trigger d fd event =>
    match s.deliverer d, s.registration fd event with
    | .free, some r =>
      some ({ s with registrations := s.registrations.erase r }.setDeliverer d (.pushing r.ft))
    | _, _ => none
  | .push d =>
    match s.deliverer d with
    | .pushing ft =>
      if s.mutex.isSome then none
      else some ({ s with fibers := (scheduleNoLock s.fibers ft).2 }.setDeliverer d .uncounting)
    | _ => none
  | .uncount d =>
    match s.deliverer d with
    | .uncounting =>
      some ({ s with pendingEventCount := s.pendingEventCount - 1 }.setDeliverer d .free)
    | _ => none
  | .setAutoStop => some { s with autoStop := true }
  | .clearRunning => some { s with isRunning := false }
  | .readQueue o =>
    match s.observer o, s.mutex with
    | .out, none =>
      -- `&&` ends here, with the lock released, unless the first three tests are true
      if s.drained then some ({ s with mutex := some o }.setObserver o .atActive) else some s
    | _, _ => none
  | .readActive o =>
    match s.observer o with
    | .atActive =>
      -- `m_pendingEventCount` is read after the lock is released
      some ({ s with mutex := none }.setObserver o
        (if s.activeThreadCount = 0 then .atPending else .out))
    | _ => none
  | .readPending o =>
    match s.observer o with
    | .atPending => some (s.setObserver o .out)
    | _ => none

/-- After `start`: the workers are about to enter the loop of `run`. -/
def start (thread : W → Int) : Machine W D O where
  fibers := []
  activeThreadCount := 0
  pendingEventCount := 0
  isRunning := true
  autoStop := false
  fiber := fun _ ↦ .fresh
  nextFiber := 0
  worker := fun w ↦ ⟨thread w, .scan, none, false⟩
  registrations := []
  deliverer := fun _ ↦ .free
  observer := fun _ ↦ .out
  mutex := none

/-- Two workers, one deliverer and one observer. -/
abbrev Two := Machine Bool Unit Unit

def two : Two := start fun w ↦ if w then 2 else 1

end Machine

end Server
