import Mathlib.Data.Int.Notation

/-! Fiber states, queue entries and the locked part of `Scheduler::schedule`. -/

namespace Server

/-- Identity of a `Fiber` object, the target of a `Fiber::ptr`. -/
abbrev FiberId := Nat

/-- Identity of a non-empty `std::function<void()>`. -/
abbrev Callback := Nat

abbrev SchedulerId := Nat

/-- `Fiber::State` -/
inductive FiberState where
  | init
  | hold
  | exec
  | term
  | ready
  | except
  deriving DecidableEq, Repr

/-- `Scheduler::FiberAndThread` -/
structure FiberAndThread where
  fiber : Option FiberId
  cb : Option Callback
  thread : Int
  deriving DecidableEq, Repr

namespace FiberAndThread

def ofFiber (f : Option FiberId) (thr : Int) : FiberAndThread := ⟨f, none, thr⟩
def ofCb (f : Option Callback) (thr : Int) : FiberAndThread := ⟨none, f, thr⟩

/-- `FiberAndThread(Fiber::ptr*, int)`: the entry and what is left in the moved-from pointer. -/
def moveFiber (f : Option FiberId) (thr : Int) : FiberAndThread × Option FiberId :=
  (ofFiber f thr, none)

/-- `FiberAndThread(std::function<void()>*, int)`; a moved-from function is empty. -/
def moveCb (f : Option Callback) (thr : Int) : FiberAndThread × Option Callback :=
  (ofCb f thr, none)

/-- `ft.fiber || ft.cb` -/
def nonempty (ft : FiberAndThread) : Bool := ft.fiber.isSome || ft.cb.isSome

theorem nonempty_of_fiber {ft : FiberAndThread} {f : FiberId} (h : ft.fiber = some f) :
    ft.nonempty = true := by
  unfold nonempty
  rw [h]
  rfl

theorem nonempty_of_cb {ft : FiberAndThread} (h : ft.cb.isSome = true) : ft.nonempty = true := by
  unfold nonempty
  rw [h, Bool.or_true]

end FiberAndThread

/-- `Scheduler::scheduleNoLock`: whether to notify, and the queue afterwards. -/
def scheduleNoLock (fibers : List FiberAndThread) (ft : FiberAndThread) :
    Bool × List FiberAndThread :=
  (fibers.isEmpty, if ft.nonempty then fibers ++ [ft] else fibers)

end Server
