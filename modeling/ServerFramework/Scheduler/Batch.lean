import Mathlib.Logic.Function.Basic
import ServerFramework.Scheduler.Tasks

/-!
# Scheduling a range

`Scheduler::schedule(begin, end)` beside `Scheduler::schedule(fc, thread)`.  The loop test
`begin++ != end` moves the iterator before the body dereferences it, so the positions it visits are
those after `begin`, up to `end` itself.
-/

namespace Server

/-- What an iterator points at: a `Fiber::ptr` or a `std::function<void()>`. -/
inductive Element where
  | fiber (f : Option FiberId)
  | cb (f : Option Callback)
  deriving DecidableEq, Repr

namespace Element

/-- `FiberAndThread(fc, thr)` of a copy of the element. -/
def entry (x : Element) (thr : Int) : FiberAndThread :=
  match x with
  | .fiber f => .ofFiber f thr
  | .cb f => .ofCb f thr

/-- `FiberAndThread(&x, thr)`: the entry, and what is left in the moved-from element. -/
def move (x : Element) (thr : Int) : FiberAndThread × Element :=
  match x with
  | .fiber f => ((FiberAndThread.moveFiber f thr).1, .fiber (FiberAndThread.moveFiber f thr).2)
  | .cb f => ((FiberAndThread.moveCb f thr).1, .cb (FiberAndThread.moveCb f thr).2)

@[simp] theorem move_fst (x : Element) (thr : Int) : (x.move thr).1 = x.entry thr := by
  cases x <;> rfl

end Element

/-- `Scheduler::schedule(fc, thread)`: whether `notify()` is called, and the queue afterwards. -/
def schedule (fibers : List FiberAndThread) (fc : Element) (thread : Int) :
    Bool × List FiberAndThread :=
  scheduleNoLock fibers (fc.entry thread)

/-- What `schedule(begin, end)` works on: `m_fibers`, the memory the iterators move over, the positions
dereferenced so far and `needNotify`. -/
structure Batch where
  fibers : List FiberAndThread
  mem : Nat → Element
  read : List Nat
  needNotify : Bool

namespace Batch

/-- `needNotify = scheduleNoLock(&*begin) || needNotify;` with `thread == -1`. -/
def body (s : Batch) (begin : Nat) : Batch :=
  let (ft, left) := (s.mem begin).move (-1)
  let (empty, fibers) := scheduleNoLock s.fibers ft
  { fibers
    mem := Function.update s.mem begin left
    read := s.read ++ [begin]
    needNotify := empty || s.needNotify }

/-- `while (begin++ != end)`, with `left` the distance from `begin` to `end`. -/
def loop : (left begin : Nat) → Batch → Batch
  | 0, _, s => s
  -- the test has already advanced `begin` when the body reads it
  | left + 1, begin, s => loop left (begin + 1) (s.body (begin + 1))

end Batch

/-- `Scheduler::schedule(begin, end)` on the `size` elements from `begin`. -/
def scheduleRange (fibers : List FiberAndThread) (mem : Nat → Element) (begin size : Nat) : Batch :=
  Batch.loop size begin { fibers, mem, read := [], needNotify := false }

/-- `schedule(element)` for each element in turn: whether one of the calls notified, and the queue. -/
def scheduleEach (fibers : List FiberAndThread) (mem : Nat → Element) (begin : Nat) :
    (size : Nat) → Bool × List FiberAndThread
  | 0 => (false, fibers)
  | size + 1 =>
    let (notified, before) := scheduleEach fibers mem begin size
    let (now, after) := schedule before (mem (begin + size)) (-1)
    (notified || now, after)

section OneByOne

variable {fibers : List FiberAndThread} {mem : Nat → Element} {begin : Nat}

/-- Scheduling non-empty tasks one by one appends them in order, and the first call alone may find the
queue empty. -/
theorem scheduleEach_eq {size : Nat}
    (h : ∀ i < size, ((mem (begin + i)).entry (-1)).nonempty = true) :
    scheduleEach fibers mem begin size =
      (decide (0 < size) && fibers.isEmpty,
        fibers ++ (List.range size).map fun i ↦ (mem (begin + i)).entry (-1)) := by
  induction size with
  | zero => simp [scheduleEach]
  | succ size ih =>
    have hlast : ((mem (begin + size)).entry (-1)).nonempty = true := h size (by omega)
    simp only [scheduleEach, schedule, scheduleNoLock, ih fun i hi ↦ h i (by omega), if_pos hlast,
      List.range_succ, List.map_append, List.map_cons, List.map_nil, List.append_assoc]
    cases fibers <;> cases size <;> simp

end OneByOne

namespace Batch

/-- The positions the loop dereferences, whatever they hold: the one after `begin` up to `end`. -/
theorem loop_read (left begin : Nat) (s : Batch) :
    (loop left begin s).read = s.read ++ (List.range left).map (begin + 1 + ·) := by
  induction left generalizing begin s with
  | zero => simp [loop]
  | succ left ih =>
    rw [loop, ih, List.range_succ_eq_map, List.map_cons, List.map_map]
    show (s.read ++ [begin + 1]) ++ _ = _
    rw [List.append_assoc, List.singleton_append]
    apply congrArg (s.read ++ (begin + 1) :: ·)
    apply List.map_congr_left
    intro i _
    show begin + 1 + 1 + i = begin + 1 + (i + 1)
    omega

/-- Its queue, where those positions hold tasks: the elements one place further on. -/
theorem loop_fibers (left begin : Nat) (s : Batch)
    (h : ∀ i < left, ((s.mem (begin + 1 + i)).entry (-1)).nonempty = true) :
    (loop left begin s).fibers =
      s.fibers ++ (List.range left).map fun i ↦ (s.mem (begin + 1 + i)).entry (-1) := by
  induction left generalizing begin s with
  | zero => simp [loop]
  | succ left ih =>
    -- the body moves from the position it reads, never from a later one
    have hlater : ∀ i, (s.body (begin + 1)).mem (begin + 1 + 1 + i) = s.mem (begin + 1 + (i + 1)) := by
      intro i
      rw [show begin + 1 + (i + 1) = begin + 1 + 1 + i by omega]
      apply Function.update_of_ne
      omega
    have hfirst : (s.body (begin + 1)).fibers = s.fibers ++ [(s.mem (begin + 1)).entry (-1)] := by
      have hne : ((s.mem (begin + 1)).entry (-1)).nonempty = true := h 0 (by omega)
      simp only [body, scheduleNoLock, Element.move_fst, if_pos hne]
    rw [loop, ih, hfirst, List.range_succ_eq_map, List.map_cons, List.map_map, List.append_assoc,
      List.singleton_append]
    · simp only [hlater]
      rfl
    · intro i hi
      rw [hlater]
      exact h (i + 1) (by omega)

end Batch

/-- The batch call on a range does what one call for each element does. -/
structure LikeEach (fibers : List FiberAndThread) (mem : Nat → Element) (begin size : Nat) : Prop where
  inside : ∀ p ∈ (scheduleRange fibers mem begin size).read, begin ≤ p ∧ p < begin + size
  appended : (scheduleRange fibers mem begin size).fibers =
    fibers ++ (List.range size).map fun i ↦ (mem (begin + i)).entry (-1)
  queue : (scheduleRange fibers mem begin size).fibers = (scheduleEach fibers mem begin size).2
  notified : (scheduleRange fibers mem begin size).needNotify = true ↔ 0 < size ∧ fibers = []

/-- A non-empty range makes the loop dereference `end`. -/
theorem scheduleRange_reads_end (fibers : List FiberAndThread) (mem : Nat → Element) (begin : Nat)
    {size : Nat} (h : 0 < size) :
    begin + size ∈ (scheduleRange fibers mem begin size).read := by
  unfold scheduleRange
  rw [Batch.loop_read]
  apply List.mem_append_right
  apply List.mem_map.mpr
  exact ⟨size - 1, List.mem_range.mpr (by omega), by omega⟩

/-- The queue `schedule(begin, end)` leaves when there is a task at `end` too: the range without its
first element, and the one behind it. -/
theorem scheduleRange_fibers {fibers : List FiberAndThread} {mem : Nat → Element} {begin size : Nat}
    (h : ∀ i < size, ((mem (begin + 1 + i)).entry (-1)).nonempty = true) :
    (scheduleRange fibers mem begin size).fibers =
      fibers ++ (List.range size).map fun i ↦ (mem (begin + 1 + i)).entry (-1) :=
  Batch.loop_fibers size begin _ h

/-- `schedule(begin, end)` of tasks agrees with scheduling them one by one on the empty range only. -/
theorem scheduleRange_likeEach_iff (fibers : List FiberAndThread) (mem : Nat → Element)
    (begin size : Nat) (htasks : ∀ i < size, ((mem (begin + i)).entry (-1)).nonempty = true) :
    LikeEach fibers mem begin size ↔ size = 0 := by
  constructor
  · intro h
    apply Nat.eq_zero_of_not_pos
    intro hpos
    have hend := h.inside _ (scheduleRange_reads_end fibers mem begin hpos)
    omega
  · intro h
    subst h
    have hrange : (scheduleRange fibers mem begin 0).fibers = fibers := rfl
    exact {
      inside := fun p hp ↦ absurd hp List.not_mem_nil
      appended := by simp [hrange]
      queue := by simp [hrange, scheduleEach_eq htasks]
      notified := by simp [scheduleRange, Batch.loop] }

/-- The memory of the examples: the callbacks 7 and 8, and what lies behind them. -/
def twoTasks : Nat → Element
  | 0 => .cb (some 7)
  | 1 => .cb (some 8)
  | _ => .cb none

theorem scheduleRange_likeEach_two :
    LikeEach [] twoTasks 0 2 ↔ 2 = 0 :=
  scheduleRange_likeEach_iff [] twoTasks 0 2 (by decide)

/-- Two callbacks scheduled as a range: the first is never queued and the position behind the second
is read. -/
theorem scheduleRange_not_likeEach :
    (∀ i < 2, ((twoTasks (0 + i)).entry (-1)).nonempty = true) ∧
      (scheduleRange [] twoTasks 0 2).fibers = [.ofCb (some 8) (-1)] ∧
      (scheduleRange [] twoTasks 0 2).read = [1, 2] ∧ ¬ LikeEach [] twoTasks 0 2 := by
  refine ⟨by decide, by decide, by decide, fun h ↦ ?_⟩
  have hend := h.inside 2 (by decide)
  omega

end Server
