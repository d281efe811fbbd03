import ServerFramework.Scheduler.Shutdown
import ServerFramework.Scheduler.Straight
import Mathlib.Data.Fintype.Option

/-!
# Starting and stopping a scheduler again and again

The calls of the thread that constructed a `Scheduler` with `useCaller`, beside the workers of its pool.
The worker `none` is the one in `m_rootFiber`, which runs inside `stop()`; the workers `some p` are made
anew by every `start()`.  `m_rootFiber` is made by the constructor, and nothing resets it.
-/

namespace Server.Restart

open Runs

/-- Where the thread that constructed the scheduler is. -/
inductive Caller (n : Nat) where
  | outside
  /-- `stop`: `m_autoStop` is set -/
  | entered
  /-- `stop`: in the first `stopped()` -/
  | early
  /-- `stop`: before the second `m_isRunning = false` -/
  | clearing
  /-- `stop`: in the last `stopped()` -/
  | late
  /-- `stop`: before `m_rootFiber->call()` -/
  | calling
  | inRoot
  /-- `stop`: before `threads.swap(m_threads)` -/
  | swapping
  /-- `stop`: with the threads that it is still to join -/
  | joining (threads : List (Fin n))
  /-- a call of `stop` has returned -/
  | returned
  deriving DecidableEq, Repr

def Caller.free {n : Nat} : Caller n → Bool
  | .outside => true
  | .returned => true
  | _ => false

/-- What a worker does. -/
inductive Move where
  /-- the next step of `run`; in `idle`, `yieldToHold` -/
  | work
  | yield (y : Yield)
  /-- `idle`: `stopped`, up to the test of the queue -/
  | testQueue
  /-- `idle`: the read of `m_activeThreadCount` -/
  | testActive
  /-- `idle` ends, after `stopped` returned true -/
  | idleEnd
  deriving DecidableEq, Repr

inductive Act (n : Nat) where
  | newFiber
  | schedule (t : Task)
  | start
  /-- the next step of `stop` -/
  | stop
  | worker (w : Option (Fin n)) (m : Move)
  deriving DecidableEq, Repr

/-- A scheduler whose `m_threadCount` is `n`. -/
structure State (n : Nat) where
  machine : Machine (Option (Fin n)) Empty (Option (Option (Fin n)))
  caller : Caller n
  /-- `m_rootFiber->m_state` -/
  rootFiber : FiberState
  /-- `m_threads` -/
  threads : List (Fin n)
  /-- the fibers that the users made -/
  made : List FiberId
  /-- the callback that a worker executes -/
  executing : Option (Fin n) → Option Callback

def Move.action {n : Nat} (w : Option (Fin n)) : Move → Action (Option (Fin n)) Empty (Option (Option (Fin n)))
  | .work => .work w
  | .yield y => .yield w y
  | .testQueue => .readQueue (some w)
  | .testActive => .readActive (some w)
  | .idleEnd => .idleEnd w

namespace State

variable {n : Nat}

/-- After the constructor: the workers of the pool do not exist yet. -/
def constructed (thread : Option (Fin n) → Int) : State n where
  machine :=
    { Machine.start thread with
      isRunning := false
      worker := fun w ↦ ⟨thread w, if w = none then .scan else .exited, none, false⟩ }
  caller := .outside
  rootFiber := .init
  threads := []
  made := []
  executing := fun _ ↦ none

/-- A step of the machine. -/
def does (s : State n) (b : Action (Option (Fin n)) Empty (Option (Option (Fin n))))
    (caller : Caller n) : Option (State n) :=
  (s.machine.step b).map fun m ↦
    { s with
      machine := m
      caller := caller
      made := s.machine.makes s.made b
      executing := s.machine.executing s.executing b }

/-- New threads that are about to enter the loop of `run`. -/
def launched (m : Machine (Option (Fin n)) Empty (Option (Option (Fin n)))) :
    Machine (Option (Fin n)) Empty (Option (Option (Fin n))) :=
  { m with
    isRunning := true
    worker := fun w ↦
      match w with
      | none => m.worker none
      | some p => ⟨(m.worker (some p)).thread, .scan, none, false⟩
    observer := fun o ↦
      match o with
      | some (some _) => .out
      | o => m.observer o }

/-- `Scheduler::start`, under `m_mutex` -/
def start (s : State n) : Option (State n) :=
  if s.machine.mutex.isSome then none
  else if s.machine.isRunning then some { s with caller := .outside }
  -- the assertion `m_threads.empty()`
  else if s.threads = [] then
    some { s with
      machine := launched s.machine
      caller := .outside
      threads := List.finRange n }
  else none

/-- The next step of `Scheduler::stop`.  On the thread that constructed the scheduler `getThis()` is
`this`. -/
def stop (s : State n) : Option (State n) :=
  match s.caller with
  | .outside => s.does .setAutoStop .entered
  | .returned => s.does .setAutoStop .entered
  | .entered =>
    s.does .clearRunning
      (if n = 0 ∧ (s.rootFiber = .term ∨ s.rootFiber = .init) then .early else .late)
  | .early =>
    match s.machine.observer none with
    | .out => s.does (.readQueue none) (if s.machine.drained then .early else .clearing)
    | .atActive =>
      s.does (.readActive none) (if s.machine.activeThreadCount = 0 then .early else .clearing)
    | .atPending => s.does (.readPending none) .returned
  | .clearing => s.does .clearRunning .late
  | .late =>
    match s.machine.observer none with
    | .out => s.does (.readQueue none) (if s.machine.drained then .late else .calling)
    | .atActive =>
      s.does (.readActive none) (if s.machine.activeThreadCount = 0 then .late else .calling)
    | .atPending => s.does (.readPending none) .swapping
  | .calling =>
    -- the assertion of `call`, or the one after `back` in `callerMainFunc`
    if s.rootFiber = .exec ∨ s.rootFiber.finished = true then none
    else some { s with rootFiber := .exec, caller := .inRoot }
  | .inRoot =>
    if (s.machine.worker none).pc = .exited then
      some { s with rootFiber := .term, caller := .swapping }
    else none
  | .swapping =>
    if s.machine.mutex.isSome then none
    else some { s with threads := [], caller := .joining s.threads }
  | .joining [] => some { s with caller := .returned }
  | .joining (p :: ps) =>
    if (s.machine.worker (some p)).pc = .exited then some { s with caller := .joining ps } else none

/-- The worker in `m_rootFiber` runs in `m_rootFiber->call()` only. -/
def MayRun (s : State n) (w : Option (Fin n)) : Prop := w = none → s.caller = .inRoot

instance (s : State n) (w : Option (Fin n)) : Decidable (s.MayRun w) :=
  inferInstanceAs (Decidable (_ → _))

/-- What the code of a worker does next, beyond what the machine asks. -/
def Enabled (s : State n) (w : Option (Fin n)) : Move → Prop
  -- a test of `idle` that came out false left no trace
  | .work => (s.machine.worker w).pc = .idle → s.machine.observer (some w) = .out
  -- the tasks finish or throw
  | .yield y => y.state.finished = true
  | .testQueue => (s.machine.worker w).pc = .idle
  | .testActive => True
  | .idleEnd => s.machine.observer (some w) = .atPending

instance (s : State n) (w : Option (Fin n)) (m : Move) : Decidable (s.Enabled w m) :=
  match m with
  | .work => inferInstanceAs (Decidable (_ → _))
  | .yield _ => inferInstanceAs (Decidable (_ = _))
  | .testQueue => inferInstanceAs (Decidable (_ = _))
  | .testActive => inferInstanceAs (Decidable True)
  | .idleEnd => inferInstanceAs (Decidable (_ = _))

def step (s : State n) : Act n → Option (State n)
  | .newFiber => if s.caller.free then s.does .newFiber s.caller else none
  -- every task with `thread == -1`
  | .schedule t =>
    if s.caller.free ∧ t.By s.made then s.does (.schedule t.entry) .outside else none
  | .start => if s.caller.free then s.start else none
  | .stop => s.stop
  | .worker w m => if s.MayRun w ∧ s.Enabled w m then s.does (m.action w) s.caller else none

/-- Whether an action schedules the callback. -/
def schedules (cb : Callback) (_ : State n) : Act n → Nat
  | .schedule (.callback c) => if c = cb then 1 else 0
  | _ => 0

/-- Whether an action schedules the fiber. -/
def submits (f : FiberId) (_ : State n) : Act n → Nat
  | .schedule (.fiber g) => if g = f then 1 else 0
  | _ => 0

/-- Whether an action ends the callback. -/
def callbackEnds (cb : Callback) (s : State n) : Act n → Nat
  | .worker w m => s.machine.finishes s.executing cb (m.action w)
  | _ => 0

/-- Whether an action ends the fiber. -/
def fiberEnds (f : FiberId) (s : State n) : Act n → Nat
  | .worker w m => s.machine.ends f (m.action w)
  | _ => 0

/-- The last test of `stop` finds something left to do. -/
def FindsWork (s : State n) : Prop :=
  s.caller = .late ∧
    (s.machine.observer none = .out ∧ s.machine.fibers ≠ [] ∨
      s.machine.observer none = .atActive ∧ s.machine.activeThreadCount ≠ 0)

instance (s : State n) : Decidable s.FindsWork := inferInstanceAs (Decidable (_ ∧ _))

/-- No `stop` finds something left to do after the root fiber has ended, and no worker goes into
`swapIn` with a fiber that another one is in `swapIn` with or executes. -/
def Meets (s : State n) : Act n → Prop
  | .stop => s.rootFiber.finished = true → ¬ s.FindsWork
  | .worker w .work => ¬ s.machine.Overlaps w
  | _ => True

instance (s : State n) (a : Act n) : Decidable (s.Meets a) :=
  match a with
  | .stop => inferInstanceAs (Decidable (_ → _))
  | .worker w .work => inferInstanceAs (Decidable (¬ s.machine.Overlaps w))
  | .worker _ (.yield _) => inferInstanceAs (Decidable True)
  | .worker _ .testQueue => inferInstanceAs (Decidable True)
  | .worker _ .testActive => inferInstanceAs (Decidable True)
  | .worker _ .idleEnd => inferInstanceAs (Decidable True)
  | .newFiber => inferInstanceAs (Decidable True)
  | .schedule _ => inferInstanceAs (Decidable True)
  | .start => inferInstanceAs (Decidable True)

/-- The assertions that come next, on the thread that constructed the scheduler and on the workers. -/
structure Asserted (s : State n) : Prop where
  workers : ∀ w, s.machine.Asserts w
  /-- `start`: `m_threads.empty()` -/
  start : s.caller.free = true → s.machine.isRunning = false → s.threads = []
  /-- `call`: `m_state != EXEC` -/
  call : s.caller = .calling → s.rootFiber ≠ .exec
  /-- `~Fiber`, for what no worker executes -/
  destroyed : ∀ f, (∀ w, (s.machine.worker w).pc.at? ≠ some f) →
    (s.machine.fiber f).state.resettable = true

/-! ## The steps -/

variable {s s' : State n} {a : Act n} {w : Option (Fin n)} {mv : Move}

/-- The steps of the machine that the actions take, and where the caller is after them. -/
inductive Does (s : State n) :
    Act n → Action (Option (Fin n)) Empty (Option (Option (Fin n))) → Caller n → Prop where
  | newFiber : s.caller.free = true → Does s .newFiber .newFiber s.caller
  | scheduled {t : Task} :
      s.caller.free = true → t.By s.made → Does s (.schedule t) (.schedule t.entry) .outside
  | worker {w : Option (Fin n)} {mv : Move} :
      s.MayRun w → s.Enabled w mv → Does s (.worker w mv) (mv.action w) s.caller
  | entered : s.caller.free = true → Does s .stop .setAutoStop .entered
  | cleared {c : Caller n} :
      s.caller = .entered → (c = .early ∧ n = 0 ∨ c = .late) → Does s .stop .clearRunning c
  | askedEarly :
      s.caller = .early → s.machine.observer none = .out →
      Does s .stop (.readQueue none) (if s.machine.drained then .early else .clearing)
  | toldEarly :
      s.caller = .early → s.machine.observer none = .atActive →
      Does s .stop (.readActive none)
        (if s.machine.activeThreadCount = 0 then .early else .clearing)
  | stoppedEarly :
      s.caller = .early → s.machine.observer none = .atPending →
      Does s .stop (.readPending none) .returned
  | clearedAgain : s.caller = .clearing → Does s .stop .clearRunning .late
  | askedLate :
      s.caller = .late → s.machine.observer none = .out →
      Does s .stop (.readQueue none) (if s.machine.drained then .late else .calling)
  | toldLate :
      s.caller = .late → s.machine.observer none = .atActive →
      Does s .stop (.readActive none)
        (if s.machine.activeThreadCount = 0 then .late else .calling)
  | stoppedLate :
      s.caller = .late → s.machine.observer none = .atPending →
      Does s .stop (.readPending none) .swapping

/-- The state after a step of the machine. -/
def after (s : State n) (b : Action (Option (Fin n)) Empty (Option (Option (Fin n))))
    (m : Machine (Option (Fin n)) Empty (Option (Option (Fin n)))) (c : Caller n) : State n :=
  { s with
    machine := m
    caller := c
    made := s.machine.makes s.made b
    executing := s.machine.executing s.executing b }

inductive Stepped (s : State n) : Act n → State n → Prop where
  | did {a : Act n} {b : Action (Option (Fin n)) Empty (Option (Option (Fin n)))} {c : Caller n}
      {m : Machine (Option (Fin n)) Empty (Option (Option (Fin n)))} :
      Does s a b c → s.machine.step b = some m → Stepped s a (s.after b m c)
  | alreadyRunning :
      s.caller.free = true → s.machine.isRunning = true →
      Stepped s .start { s with caller := .outside }
  | started :
      s.caller.free = true → s.threads = [] →
      Stepped s .start
        { s with machine := launched s.machine, caller := .outside, threads := List.finRange n }
  | called :
      s.caller = .calling → Stepped s .stop { s with rootFiber := .exec, caller := .inRoot }
  | back :
      s.caller = .inRoot → (s.machine.worker none).pc = .exited →
      Stepped s .stop { s with rootFiber := .term, caller := .swapping }
  | swapped :
      s.caller = .swapping → Stepped s .stop { s with threads := [], caller := .joining s.threads }
  | joined {p : Fin n} {ps : List (Fin n)} :
      s.caller = .joining (p :: ps) → (s.machine.worker (some p)).pc = .exited →
      Stepped s .stop { s with caller := .joining ps }
  | returned : s.caller = .joining [] → Stepped s .stop { s with caller := .returned }

theorem stepped_of_does {b : Action (Option (Fin n)) Empty (Option (Option (Fin n)))}
    {c : Caller n} (hdoes : Does s a b c) (h : s.does b c = some s') : Stepped s a s' := by
  obtain ⟨m, hm, rfl⟩ := Option.map_eq_some_iff.mp h
  exact .did hdoes hm

theorem stepped_of_start (hfree : s.caller.free = true) (h : s.start = some s') :
    Stepped s .start s' := by
  unfold start at h
  split at h
  · cases h
  · split at h
    · rename_i hrun
      cases h
      exact .alreadyRunning hfree hrun
    · split at h
      · rename_i hempty
        cases h
        exact .started hfree hempty
      · cases h

theorem stepped_of_stop (h : s.stop = some s') : Stepped s .stop s' := by
  unfold stop at h
  split at h
  · rename_i hc
    exact stepped_of_does (.entered (by rw [hc]; rfl)) h
  · rename_i hc
    exact stepped_of_does (.entered (by rw [hc]; rfl)) h
  · rename_i hc
    refine stepped_of_does (.cleared hc ?_) h
    split
    · rename_i hcond
      exact .inl ⟨rfl, hcond.1⟩
    · exact .inr rfl
  · rename_i hc
    split at h
    · rename_i ho
      exact stepped_of_does (.askedEarly hc ho) h
    · rename_i ho
      exact stepped_of_does (.toldEarly hc ho) h
    · rename_i ho
      exact stepped_of_does (.stoppedEarly hc ho) h
  · rename_i hc
    exact stepped_of_does (.clearedAgain hc) h
  · rename_i hc
    split at h
    · rename_i ho
      exact stepped_of_does (.askedLate hc ho) h
    · rename_i ho
      exact stepped_of_does (.toldLate hc ho) h
    · rename_i ho
      exact stepped_of_does (.stoppedLate hc ho) h
  · rename_i hc
    split at h
    · cases h
    · cases h
      exact .called hc
  · rename_i hc
    split at h
    · rename_i hexit
      cases h
      exact .back hc hexit
    · cases h
  · rename_i hc
    split at h
    · cases h
    · cases h
      exact .swapped hc
  · rename_i hc
    cases h
    exact .returned hc
  · rename_i hc
    split at h
    · rename_i hexit
      cases h
      exact .joined hc hexit
    · cases h

theorem step_cases (h : s.step a = some s') : Stepped s a s' := by
  cases a with
  | newFiber =>
      simp only [step] at h
      split at h
      · rename_i hfree
        exact stepped_of_does (.newFiber hfree) h
      · cases h
  | schedule t =>
      simp only [step] at h
      split at h
      · rename_i hcond
        exact stepped_of_does (.scheduled hcond.1 hcond.2) h
      · cases h
  | start =>
      simp only [step] at h
      split at h
      · rename_i hfree
        exact stepped_of_start hfree h
      · cases h
  | stop => exact stepped_of_stop h
  | worker w mv =>
      simp only [step] at h
      split at h
      · rename_i hcond
        exact stepped_of_does (.worker hcond.1 hcond.2) h
      · cases h

theorem Does.inOnePiece {b : Action (Option (Fin n)) Empty (Option (Option (Fin n)))} {c : Caller n}
    (h : Does s a b c) (hmeets : s.Meets a) : s.machine.InOnePiece s.made b := by
  cases h with
  | scheduled _ hby => exact ⟨_, rfl, hby⟩
  | @worker w mv _ henabled =>
      cases mv with
      | work => exact hmeets
      | yield => exact henabled
      | _ => trivial
  | _ => trivial

theorem frame_of_move {m m' : Machine (Option (Fin n)) Empty (Option (Option (Fin n)))}
    {made : List FiberId} (h : m.Straight made) (hs : m.step (mv.action w) = some m') :
    (m.fibers = [] → m'.fibers = []) ∧ m'.isRunning = m.isRunning ∧ m'.autoStop = m.autoStop ∧
      (∀ o, o ≠ some w → m'.observer o = m.observer o) ∧
      ∀ x, x ≠ w → m'.worker x = m.worker x := by
  cases mv with
  | work =>
      have hw := Machine.work_cases hs
      obtain ⟨hobserver, -, -, -⟩ := Machine.worked_frame hw
      obtain ⟨-, wk, hworker, -⟩ := hw.worker_eq
      refine ⟨fun hempty ↦ ?_, ?_, hw.autoStop_eq, fun o _ ↦ congrFun hobserver o, fun x hx ↦ ?_⟩
      · cases hw with
        | took _ _ htake =>
            obtain ⟨-, l, l', hl, -⟩ := takeFirst_some htake
            rw [hempty] at hl
            cases l <;> cases hl
        | requeued hpc => exact ((h.worker w).finds _ _ _ hpc).elim
        | _ => exact hempty
      · cases hw <;> rfl
      · rw [hworker, Function.update_of_ne hx]
  | yield y =>
      cases Machine.step_cases hs with
      | yielded => exact ⟨id, rfl, rfl, fun _ _ ↦ rfl, fun x hx ↦ Function.update_of_ne hx _ _⟩
  | testQueue =>
      cases Machine.step_cases hs with
      | queueRead => exact ⟨id, rfl, rfl, fun o ho ↦ Function.update_of_ne ho _ _, fun _ _ ↦ rfl⟩
      | queueReadFalse => exact ⟨id, rfl, rfl, fun _ _ ↦ rfl, fun _ _ ↦ rfl⟩
  | testActive =>
      cases Machine.step_cases hs with
      | activeRead => exact ⟨id, rfl, rfl, fun o ho ↦ Function.update_of_ne ho _ _, fun _ _ ↦ rfl⟩
  | idleEnd =>
      cases Machine.step_cases hs with
      | idleEnded => exact ⟨id, rfl, rfl, fun _ _ ↦ rfl, fun x hx ↦ Function.update_of_ne hx _ _⟩

/-! ## What holds where the caller is -/

/-- The root fiber's `idle` has seen `stopped()` come out true so far, or `run` is over there. -/
def RootSaw (s : State n) : Prop :=
  (s.machine.worker none).idleDone = true ∨ s.machine.observer (some none) ≠ .out ∨
    (s.machine.worker none).pc = .exited

/-- Between two tests of `stopped()` the queue is empty once the first one has found it so: only the
caller schedules. -/
def CallerOk (s : State n) : Prop :=
  match s.caller with
  | .outside => s.machine.observer none = .out ∧ (s.machine.isRunning = false → s.threads = [])
  | .entered => s.machine.observer none = .out ∧ s.machine.autoStop = true
  | .early =>
    n = 0 ∧ s.machine.autoStop = true ∧
      (s.machine.observer none = .atPending → s.machine.fibers = [])
  | .clearing => s.machine.observer none = .out ∧ s.machine.autoStop = true
  | .late =>
    (s.machine.autoStop = true ∧ s.machine.isRunning = false) ∧
      (s.machine.observer none = .atPending → s.machine.fibers = [])
  | .calling => s.machine.observer none = .out ∧ s.rootFiber = .init
  | .inRoot => s.machine.observer none = .out ∧ (s.RootSaw → s.machine.fibers = [])
  | .swapping => s.machine.observer none = .out ∧ s.machine.fibers = []
  | .joining _ => s.machine.observer none = .out ∧ s.machine.fibers = [] ∧ s.threads = []
  | .returned => s.machine.observer none = .out ∧ s.machine.fibers = [] ∧ s.threads = []

/-- `run` is executed in `m_rootFiber` once: `call` starts it, and it is over when `call` returns. -/
def RootOk (s : State n) : Prop :=
  match s.rootFiber with
  | .init =>
    s.caller ≠ .inRoot ∧ (s.machine.worker none).pc = .scan ∧
      (s.machine.worker none).idleDone = false ∧ s.machine.observer (some none) = .out
  | .exec => s.caller = .inRoot
  | .term => s.caller ≠ .inRoot ∧ (s.machine.worker none).pc = .exited
  | _ => False

structure Ok (s : State n) : Prop where
  straight : s.machine.Straight s.made
  asked : s.machine.Asked
  caller : s.CallerOk
  root : s.RootOk
  pool : ∀ p, (s.machine.worker (some p)).pc ≠ .exited →
    p ∈ s.threads ∨ ∃ l, s.caller = .joining l ∧ p ∈ l

theorem CallerOk.free (h : s.CallerOk) (hfree : s.caller.free = true) :
    s.machine.observer none = .out ∧ (s.machine.isRunning = false → s.threads = []) := by
  unfold CallerOk at h
  cases hc : s.caller with
  | outside =>
      rw [hc] at h
      exact h
  | returned =>
      rw [hc] at h
      exact ⟨h.1, fun _ ↦ h.2.2⟩
  | _ =>
      rw [hc] at hfree
      cases hfree

theorem RootOk.busy (h : s.RootOk) (hin : s.caller = .inRoot) : s.rootFiber = .exec := by
  unfold RootOk at h
  cases hroot : s.rootFiber with
  | exec => rfl
  | init =>
      rw [hroot] at h
      exact absurd hin h.1
  | term =>
      rw [hroot] at h
      exact absurd hin h.1
  | _ =>
      rw [hroot] at h
      exact h.elim

theorem RootOk.rests (h : s.RootOk) (hin : s.caller ≠ .inRoot) :
    (s.machine.worker none).pc = .scan ∨ (s.machine.worker none).pc = .exited := by
  unfold RootOk at h
  cases hroot : s.rootFiber with
  | init =>
      rw [hroot] at h
      exact .inl h.2.1
  | term =>
      rw [hroot] at h
      exact .inr h.2
  | exec =>
      rw [hroot] at h
      exact absurd h hin
  | _ =>
      rw [hroot] at h
      exact h.elim

theorem RootOk.congr (h : s.RootOk) (hroot : s'.rootFiber = s.rootFiber)
    (hcaller : s'.caller = .inRoot ↔ s.caller = .inRoot)
    (hworker : s'.machine.worker none = s.machine.worker none)
    (hobserver : s'.machine.observer (some none) = s.machine.observer (some none)) : s'.RootOk := by
  unfold RootOk at h ⊢
  rw [hroot, hworker, hobserver]
  cases hstate : s.rootFiber with
  | init =>
      rw [hstate] at h
      exact ⟨fun hin ↦ h.1 (hcaller.mp hin), h.2⟩
  | exec =>
      rw [hstate] at h
      exact hcaller.mpr h
  | term =>
      rw [hstate] at h
      exact ⟨fun hin ↦ h.1 (hcaller.mp hin), h.2⟩
  | _ =>
      rw [hstate] at h
      exact h.elim

theorem CallerOk.frame (h : s.CallerOk) (hcaller : s'.caller = s.caller)
    (hroot : s'.rootFiber = s.rootFiber) (hthreads : s'.threads = s.threads)
    (hobserver : s'.machine.observer none = s.machine.observer none)
    (hrun : s'.machine.isRunning = s.machine.isRunning)
    (hauto : s'.machine.autoStop = s.machine.autoStop)
    (hempty : s.machine.fibers = [] → s'.machine.fibers = [])
    (hsaw : s.caller = .inRoot → s'.RootSaw → s.RootSaw ∨ s'.machine.fibers = []) : s'.CallerOk := by
  unfold CallerOk at h ⊢
  rw [hcaller, hroot, hthreads, hobserver, hrun, hauto]
  cases hc : s.caller with
  | outside =>
      rw [hc] at h
      exact h
  | entered =>
      rw [hc] at h
      exact h
  | early =>
      rw [hc] at h
      exact ⟨h.1, h.2.1, fun ho ↦ hempty (h.2.2 ho)⟩
  | clearing =>
      rw [hc] at h
      exact h
  | late =>
      rw [hc] at h
      exact ⟨h.1, fun ho ↦ hempty (h.2 ho)⟩
  | calling =>
      rw [hc] at h
      exact h
  | inRoot =>
      rw [hc] at h
      exact ⟨h.1, fun hs ↦ (hsaw hc hs).elim (fun hs ↦ hempty (h.2 hs)) id⟩
  | swapping =>
      rw [hc] at h
      exact ⟨h.1, hempty h.2⟩
  | joining l =>
      rw [hc] at h
      exact ⟨h.1, hempty h.2.1, h.2.2⟩
  | returned =>
      rw [hc] at h
      exact ⟨h.1, hempty h.2.1, h.2.2⟩

/-! ## Each step keeps it -/

variable {b : Action (Option (Fin n)) Empty (Option (Option (Fin n)))} {c : Caller n}
  {m : Machine (Option (Fin n)) Empty (Option (Option (Fin n)))}

/-- What the root fiber's `idle` has seen, it saw before, or it sees the queue empty now. -/
theorem saw_of_move (henabled : s.Enabled none mv) (hm : s.machine.step (mv.action none) = some m)
    (hsaw : (s.after (mv.action none) m s.caller).RootSaw) : s.RootSaw ∨ m.fibers = [] := by
  unfold RootSaw at hsaw ⊢
  change (m.worker none).idleDone = true ∨ m.observer (some none) ≠ .out ∨
    (m.worker none).pc = .exited at hsaw
  cases mv with
  | work =>
      have hw := Machine.work_cases hm
      obtain ⟨hobserver, -, -, -⟩ := Machine.worked_frame hw
      left
      rcases hsaw with hidle | ho | hexit
      · exact .inl (hw.idleDone_eq.symm.trans hidle)
      · exact .inr (.inl (by rw [← hobserver]; exact ho))
      · -- `run` is left only after the idle fiber has ended
        exact .inl (Machine.work_exited hm hexit).1
  | yield y =>
      cases Machine.step_cases hm with
      | yielded hpc =>
          left
          rcases hsaw with hidle | ho | hexit
          · change (Function.update s.machine.worker none _ none).idleDone = true at hidle
            rw [Function.update_self] at hidle
            exact .inl hidle
          · exact .inr (.inl ho)
          · change (Function.update s.machine.worker none _ none).pc = .exited at hexit
            rw [Function.update_self] at hexit
            cases hexit
  | testQueue =>
      cases Machine.step_cases hm with
      | queueRead _ _ hdrained =>
          unfold Machine.drained at hdrained
          rw [Bool.and_eq_true] at hdrained
          exact .inr (List.isEmpty_iff.mp hdrained.2)
      | queueReadFalse => exact .inl hsaw
  | testActive =>
      cases Machine.step_cases hm with
      | activeRead ho => exact .inl (.inr (.inl (by rw [ho]; nofun)))
  | idleEnd =>
      have ho : s.machine.observer (some none) = .atPending := henabled
      exact .inl (.inr (.inl (by rw [ho]; nofun)))

theorem Ok.moved (h : Ok s) (hmay : s.MayRun w) (henabled : s.Enabled w mv)
    (hok : s.machine.InOnePiece s.made (mv.action w))
    (hm : s.machine.step (mv.action w) = some m) : Ok (s.after (mv.action w) m s.caller) := by
  obtain ⟨hempty, hrun, hauto, hobserver, hworker⟩ := frame_of_move h.straight hm
  refine ⟨h.straight.step hok hm, h.asked.step hm, ?_, ?_, fun p hp ↦ ?_⟩
  · refine h.caller.frame rfl rfl rfl (hobserver none nofun) hrun hauto hempty fun hin hsaw ↦ ?_
    cases w with
    | none => exact saw_of_move henabled hm hsaw
    | some p =>
        left
        unfold RootSaw at hsaw ⊢
        rw [← hworker none nofun, ← hobserver (some none) nofun]
        exact hsaw
  · cases w with
    | none =>
        have hin := hmay rfl
        have hexec := h.root.busy hin
        unfold RootOk
        show match s.rootFiber with
          | .init => _
          | .exec => s.caller = .inRoot
          | .term => _
          | _ => False
        rw [hexec]
        exact hin
    | some p => exact h.root.congr rfl Iff.rfl (hworker none nofun) (hobserver (some none) nofun)
  · refine h.pool p fun hexit ↦ hp ?_
    exact ((Machine.step_cases hm).worker_kept (some p)).2 hexit

theorem Ok.led (h : Ok s) (hok : s.machine.InOnePiece s.made b) (hm : s.machine.step b = some m)
    (hworker : m.worker = s.machine.worker)
    (hobserver : m.observer (some none) = s.machine.observer (some none))
    (hin : s.caller ≠ .inRoot) (hin' : c ≠ .inRoot) (hjoin : ∀ l, s.caller ≠ .joining l)
    (hcaller : (s.after b m c).CallerOk) : Ok (s.after b m c) where
  straight := h.straight.step hok hm
  asked := h.asked.step hm
  caller := hcaller
  root := h.root.congr rfl ⟨fun heq ↦ absurd heq hin', fun heq ↦ absurd heq hin⟩
    (congrFun hworker none) hobserver
  pool := fun p hp ↦ by
    change (m.worker (some p)).pc ≠ .exited at hp
    rw [hworker] at hp
    exact .inl ((h.pool p hp).resolve_right fun ⟨l, hl, _⟩ ↦ hjoin l hl)

/-- Where the last test of `stop` finds something left to do, the root fiber has not been called. -/
theorem Ok.init_of_findsWork (h : Ok s) (hmeets : s.Meets .stop) (hlate : s.caller = .late)
    (hwork : s.FindsWork) : s.rootFiber = .init := by
  have hroot := h.root
  unfold RootOk at hroot
  cases hstate : s.rootFiber with
  | init => rfl
  | exec =>
      rw [hstate, hlate] at hroot
      cases hroot
  | term => exact absurd hwork (hmeets (by rw [hstate]; rfl))
  | _ =>
      rw [hstate] at hroot
      exact hroot.elim

theorem CallerOk.late (h : s.CallerOk) (hlate : s.caller = .late) :
    (s.machine.autoStop = true ∧ s.machine.isRunning = false) ∧
      (s.machine.observer none = .atPending → s.machine.fibers = []) := by
  unfold CallerOk at h
  rw [hlate] at h
  exact h

theorem CallerOk.early (h : s.CallerOk) (hearly : s.caller = .early) :
    n = 0 ∧ s.machine.autoStop = true ∧
      (s.machine.observer none = .atPending → s.machine.fibers = []) := by
  unfold CallerOk at h
  rw [hearly] at h
  exact h

theorem CallerOk.calling (h : s.CallerOk) (hcalling : s.caller = .calling) :
    s.machine.observer none = .out ∧ s.rootFiber = .init := by
  unfold CallerOk at h
  rw [hcalling] at h
  exact h

theorem ne_of_free (hfree : s.caller.free = true) :
    s.caller ≠ .inRoot ∧ ∀ l, s.caller ≠ .joining l := by
  constructor
  · intro heq
    rw [heq] at hfree
    cases hfree
  · intro l heq
    rw [heq] at hfree
    cases hfree

theorem threads_nil (hn : n = 0) (threads : List (Fin n)) : threads = [] :=
  List.eq_nil_iff_forall_not_mem.mpr fun p _ ↦ absurd p.pos (by omega)

theorem observer_self (mc : Machine (Option (Fin n)) Empty (Option (Option (Fin n)))) (v : Observer) :
    (mc.setObserver none v).observer none = v := by
  show Function.update mc.observer none v none = v
  rw [Function.update_self]

theorem observer_root (mc : Machine (Option (Fin n)) Empty (Option (Option (Fin n)))) (v : Observer) :
    (mc.setObserver none v).observer (some none) = mc.observer (some none) := by
  show Function.update mc.observer none v (some none) = _
  rw [Function.update_of_ne (Option.some_ne_none none)]

theorem observer_of_queueRead (hm : s.machine.step (.readQueue none) = some m)
    (ho : s.machine.observer none = .out) :
    m.worker = s.machine.worker ∧ m.observer (some none) = s.machine.observer (some none) ∧
      m.autoStop = s.machine.autoStop ∧ m.isRunning = s.machine.isRunning ∧
      m.observer none ≠ .atPending ∧
      (s.machine.drained = false → m.observer none = .out) := by
  cases Machine.step_cases hm with
  | queueRead _ _ hdrained =>
      refine ⟨rfl, observer_root _ _, rfl, rfl, fun heq ↦ ?_, fun hfalse ↦ ?_⟩
      · rw [observer_self] at heq
        cases heq
      · rw [hdrained] at hfalse
        cases hfalse
  | queueReadFalse =>
      refine ⟨rfl, rfl, rfl, rfl, ?_, fun _ ↦ ho⟩
      rw [ho]
      nofun

theorem observer_of_activeRead (h : s.machine.Asked)
    (hm : s.machine.step (.readActive none) = some m) :
    m.worker = s.machine.worker ∧ m.observer (some none) = s.machine.observer (some none) ∧
      m.autoStop = s.machine.autoStop ∧ m.isRunning = s.machine.isRunning ∧ m.fibers = [] ∧
      (s.machine.activeThreadCount ≠ 0 → m.observer none = .out) := by
  cases Machine.step_cases hm with
  | activeRead ho =>
      refine ⟨rfl, observer_root _ _, rfl, rfl, h.queue ho, fun hne ↦ ?_⟩
      rw [observer_self, if_neg hne]

theorem observer_of_pendingRead (hm : s.machine.step (.readPending none) = some m) :
    m.worker = s.machine.worker ∧ m.observer (some none) = s.machine.observer (some none) ∧
      m.fibers = s.machine.fibers ∧ m.observer none = .out := by
  cases Machine.step_cases hm with
  | pendingRead => exact ⟨rfl, observer_root _ _, rfl, observer_self _ _⟩

theorem Ok.asks (h : Ok s) (hmeets : s.Meets .stop) (hdoes : Does s .stop b c)
    (hm : s.machine.step b = some m) : Ok (s.after b m c) := by
  have hok := hdoes.inOnePiece hmeets
  cases hdoes with
  | entered hfree =>
      obtain ⟨hin, hjoin⟩ := ne_of_free hfree
      obtain ⟨hout, -⟩ := h.caller.free hfree
      cases hm
      exact h.led hok rfl rfl rfl hin nofun hjoin ⟨hout, rfl⟩
  | cleared hentered hc =>
      have hcaller := h.caller
      unfold CallerOk at hcaller
      rw [hentered] at hcaller
      cases hm
      rcases hc with ⟨rfl, hn⟩ | rfl
      · refine h.led hok rfl rfl rfl (by rw [hentered]; nofun) nofun (by rw [hentered]; nofun) ?_
        refine ⟨hn, hcaller.2, fun ho ↦ ?_⟩
        cases hcaller.1.symm.trans ho
      · refine h.led hok rfl rfl rfl (by rw [hentered]; nofun) nofun (by rw [hentered]; nofun) ?_
        refine ⟨⟨hcaller.2, rfl⟩, fun ho ↦ ?_⟩
        cases hcaller.1.symm.trans ho
  | askedEarly hearly ho =>
      obtain ⟨hn, hauto, -⟩ := h.caller.early hearly
      obtain ⟨hworker, hroot, hauto', -, hnot, hout⟩ := observer_of_queueRead hm ho
      cases hdrained : s.machine.drained with
      | true =>
          exact h.led hok hm hworker hroot (by rw [hearly]; nofun) nofun (by rw [hearly]; nofun)
            ⟨hn, hauto'.trans hauto, fun hpending ↦ absurd hpending hnot⟩
      | false =>
          exact h.led hok hm hworker hroot (by rw [hearly]; nofun) nofun (by rw [hearly]; nofun)
            ⟨hout hdrained, hauto'.trans hauto⟩
  | toldEarly hearly ho =>
      obtain ⟨hn, hauto, -⟩ := h.caller.early hearly
      obtain ⟨hworker, hroot, hauto', -, hempty, hout⟩ := observer_of_activeRead h.asked hm
      split
      · exact h.led hok hm hworker hroot (by rw [hearly]; nofun) nofun (by rw [hearly]; nofun)
          ⟨hn, hauto'.trans hauto, fun _ ↦ hempty⟩
      · rename_i hne
        exact h.led hok hm hworker hroot (by rw [hearly]; nofun) nofun (by rw [hearly]; nofun)
          ⟨hout hne, hauto'.trans hauto⟩
  | stoppedEarly hearly ho =>
      obtain ⟨hn, -, hempty⟩ := h.caller.early hearly
      obtain ⟨hworker, hroot, hfibers, hout⟩ := observer_of_pendingRead hm
      -- without a pool there are no threads to join
      exact h.led hok hm hworker hroot (by rw [hearly]; nofun) nofun (by rw [hearly]; nofun)
        ⟨hout, hfibers.trans (hempty ho), threads_nil hn _⟩
  | clearedAgain hclearing =>
      have hcaller := h.caller
      unfold CallerOk at hcaller
      rw [hclearing] at hcaller
      cases hm
      refine h.led hok rfl rfl rfl (by rw [hclearing]; nofun) nofun (by rw [hclearing]; nofun) ?_
      refine ⟨⟨hcaller.2, rfl⟩, fun ho ↦ ?_⟩
      cases hcaller.1.symm.trans ho
  | askedLate hlate ho =>
      obtain ⟨⟨hauto, hrun⟩, -⟩ := h.caller.late hlate
      obtain ⟨hworker, hroot, hauto', hrun', hnot, hout⟩ := observer_of_queueRead hm ho
      cases hdrained : s.machine.drained with
      | true =>
          exact h.led hok hm hworker hroot (by rw [hlate]; nofun) nofun (by rw [hlate]; nofun)
            ⟨⟨hauto'.trans hauto, hrun'.trans hrun⟩, fun hpending ↦ absurd hpending hnot⟩
      | false =>
          have hne : s.machine.fibers ≠ [] := by
            intro hempty
            unfold Machine.drained at hdrained
            rw [hauto, hrun, hempty] at hdrained
            cases hdrained
          have hinit := h.init_of_findsWork hmeets hlate ⟨hlate, .inl ⟨ho, hne⟩⟩
          exact h.led hok hm hworker hroot (by rw [hlate]; nofun) nofun (by rw [hlate]; nofun)
            ⟨hout hdrained, hinit⟩
  | toldLate hlate ho =>
      obtain ⟨⟨hauto, hrun⟩, -⟩ := h.caller.late hlate
      obtain ⟨hworker, hroot, hauto', hrun', hempty, hout⟩ := observer_of_activeRead h.asked hm
      split
      · exact h.led hok hm hworker hroot (by rw [hlate]; nofun) nofun (by rw [hlate]; nofun)
          ⟨⟨hauto'.trans hauto, hrun'.trans hrun⟩, fun _ ↦ hempty⟩
      · rename_i hne
        have hinit := h.init_of_findsWork hmeets hlate ⟨hlate, .inr ⟨ho, hne⟩⟩
        exact h.led hok hm hworker hroot (by rw [hlate]; nofun) nofun (by rw [hlate]; nofun)
          ⟨hout hne, hinit⟩
  | stoppedLate hlate ho =>
      obtain ⟨-, hempty⟩ := h.caller.late hlate
      obtain ⟨hworker, hroot, hfibers, hout⟩ := observer_of_pendingRead hm
      exact h.led hok hm hworker hroot (by rw [hlate]; nofun) nofun (by rw [hlate]; nofun)
        ⟨hout, hfibers.trans (hempty ho)⟩

/-! ## New workers -/

/-- Before `start` makes new workers, those of the last pool have left `run`. -/
theorem Ok.exited (h : Ok s) (hfree : s.caller.free = true) (hempty : s.threads = []) (p : Fin n) :
    (s.machine.worker (some p)).pc = .exited := by
  by_contra hne
  rcases h.pool p hne with hmem | ⟨l, hl, -⟩
  · rw [hempty] at hmem
    cases hmem
  · exact (ne_of_free hfree).2 l hl

theorem launched_straight {made : List FiberId} (h : m.Straight made)
    (hexit : ∀ p, (m.worker (some p)).pc = .exited) : (launched m).Straight made := by
  have huses : ∀ {w f}, (launched m).Uses w f → w = none ∧ m.Uses none f := by
    intro w f hf
    cases w with
    | none => exact ⟨rfl, hf⟩
    | some p =>
        rcases hf with hf | hf
        · cases hf
        · cases hf
  refine ⟨h.exist, h.entries, fun w ↦ ?_, fun w w' f hw hw' ↦ ?_, fun f hf ↦ ?_, h.whole, h.fresh⟩
  · cases w with
    | none => exact h.worker none
    | some p => exact ⟨.free (.inl rfl), nofun, nofun, nofun⟩
  · exact (huses hw).1.trans (huses hw').1.symm
  · obtain ⟨w, hat⟩ := h.executed f hf
    cases w with
    | none => exact ⟨none, hat⟩
    | some p =>
        rw [hexit p] at hat
        cases hat

theorem launched_asked (h : m.Asked) : (launched m).Asked := by
  have hobserver : ∀ o, (launched m).observer o ≠ .out → (launched m).observer o = m.observer o := by
    intro o ho
    cases o with
    | none => rfl
    | some w =>
        cases w with
        | none => rfl
        | some p => exact absurd rfl ho
  refine ⟨fun o ho ↦ ?_, h.empty, fun o ho ↦ ?_⟩
  · have hsame := hobserver o (by rw [ho]; nofun)
    exact h.locked o (hsame.symm.trans ho)
  · have hsame := hobserver o ho
    rw [hsame] at ho
    exact h.stopping o ho

theorem Ok.started (h : Ok s) (hfree : s.caller.free = true) (hempty : s.threads = []) :
    Ok { s with machine := launched s.machine, caller := .outside, threads := List.finRange n } where
  straight := launched_straight h.straight (h.exited hfree hempty)
  asked := launched_asked h.asked
  caller := ⟨(h.caller.free hfree).1, nofun⟩
  root := h.root.congr rfl ⟨nofun, fun heq ↦ absurd heq (ne_of_free hfree).1⟩ rfl rfl
  pool := fun p _ ↦ .inl (List.mem_finRange p)

/-! ## All of it -/

theorem Ok.frame (h : Ok s) (hmachine : s'.machine = s.machine) (hmade : s'.made = s.made)
    (hcaller : s'.CallerOk) (hroot : s'.RootOk)
    (hpool : ∀ p, (s.machine.worker (some p)).pc ≠ .exited →
      p ∈ s'.threads ∨ ∃ l, s'.caller = .joining l ∧ p ∈ l) : Ok s' where
  straight := by
    rw [hmachine, hmade]
    exact h.straight
  asked := hmachine ▸ h.asked
  caller := hcaller
  root := hroot
  pool := hmachine ▸ hpool

theorem Ok.called (h : Ok s) (hcalling : s.caller = .calling) :
    Ok { s with rootFiber := .exec, caller := .inRoot } := by
  obtain ⟨hobserver, hinit⟩ := h.caller.calling hcalling
  have hroot := h.root
  unfold RootOk at hroot
  rw [hinit] at hroot
  obtain ⟨-, hscan, hidle, hout⟩ := hroot
  -- `run` has not begun there
  refine h.frame rfl rfl ⟨hobserver, fun hsaw ↦ ?_⟩ rfl fun p hp ↦ ?_
  · rcases hsaw with hsaw | hsaw | hsaw
    · cases hidle.symm.trans hsaw
    · exact absurd hout hsaw
    · cases hscan.symm.trans hsaw
  · exact .inl ((h.pool p hp).resolve_right fun ⟨l, hl, _⟩ ↦ by cases hcalling.symm.trans hl)

theorem Ok.back (h : Ok s) (hin : s.caller = .inRoot)
    (hexit : (s.machine.worker none).pc = .exited) :
    Ok { s with rootFiber := .term, caller := .swapping } := by
  have hcaller := h.caller
  unfold CallerOk at hcaller
  rw [hin] at hcaller
  refine h.frame rfl rfl ⟨hcaller.1, hcaller.2 (.inr (.inr hexit))⟩ ⟨nofun, hexit⟩ fun p hp ↦ ?_
  exact .inl ((h.pool p hp).resolve_right fun ⟨l, hl, _⟩ ↦ by cases hin.symm.trans hl)

theorem Ok.joins (h : Ok s) {l : List (Fin n)} (hjoin : s.caller = .joining l) {c : Caller n}
    (hc : c = .returned ∨ ∃ l', c = .joining l')
    (hpool : ∀ p ∈ l, (s.machine.worker (some p)).pc ≠ .exited → ∃ l', c = .joining l' ∧ p ∈ l') :
    Ok { s with caller := c } := by
  have hcaller := h.caller
  unfold CallerOk at hcaller
  rw [hjoin] at hcaller
  have hne : c ≠ .inRoot := by
    rintro rfl
    rcases hc with hc | ⟨l', hc⟩
    · cases hc
    · cases hc
  refine h.frame rfl rfl ?_ (h.root.congr rfl ⟨fun heq ↦ absurd heq hne, fun heq ↦ ?_⟩ rfl rfl)
    fun p hp ↦ ?_
  · rcases hc with rfl | ⟨l', rfl⟩
    · exact hcaller
    · exact hcaller
  · cases hjoin.symm.trans heq
  · rcases h.pool p hp with hmem | ⟨l', hl', hmem⟩
    · exact .inl hmem
    · cases hjoin.symm.trans hl'
      exact .inr (hpool p hmem hp)

theorem Ok.step (h : Ok s) (hmeets : s.Meets a) (hs : Of step s a s') : Ok s' := by
  cases step_cases hs with
  | did hdoes hm =>
      have hok := hdoes.inOnePiece hmeets
      cases hdoes with
      | newFiber hfree =>
          obtain ⟨hin, hjoin⟩ := ne_of_free hfree
          cases hm
          exact h.led hok rfl rfl rfl hin hin hjoin
            (h.caller.frame rfl rfl rfl rfl rfl rfl id fun _ hsaw ↦ .inl hsaw)
      | scheduled hfree =>
          obtain ⟨hin, hjoin⟩ := ne_of_free hfree
          obtain ⟨hout, hthreads⟩ := h.caller.free hfree
          have hkept := hm
          cases Machine.step_cases hm
          exact h.led hok hkept rfl rfl hin nofun hjoin ⟨hout, hthreads⟩
      | worker hmay henabled => exact h.moved hmay henabled hok hm
      | entered hfree => exact h.asks hmeets (.entered hfree) hm
      | cleared hc hc' => exact h.asks hmeets (.cleared hc hc') hm
      | askedEarly hc ho => exact h.asks hmeets (.askedEarly hc ho) hm
      | toldEarly hc ho => exact h.asks hmeets (.toldEarly hc ho) hm
      | stoppedEarly hc ho => exact h.asks hmeets (.stoppedEarly hc ho) hm
      | clearedAgain hc => exact h.asks hmeets (.clearedAgain hc) hm
      | askedLate hc ho => exact h.asks hmeets (.askedLate hc ho) hm
      | toldLate hc ho => exact h.asks hmeets (.toldLate hc ho) hm
      | stoppedLate hc ho => exact h.asks hmeets (.stoppedLate hc ho) hm
  | alreadyRunning hfree hrun =>
      obtain ⟨hin, hjoin⟩ := ne_of_free hfree
      refine h.frame rfl rfl ⟨(h.caller.free hfree).1, fun hfalse ↦ ?_⟩
        (h.root.congr rfl ⟨nofun, fun heq ↦ absurd heq hin⟩ rfl rfl) fun p hp ↦ ?_
      · cases hrun.symm.trans hfalse
      · exact .inl ((h.pool p hp).resolve_right fun ⟨l, hl, _⟩ ↦ hjoin l hl)
  | started hfree hempty => exact h.started hfree hempty
  | called hcalling => exact h.called hcalling
  | back hin hexit => exact h.back hin hexit
  | swapped hswapping =>
      have hcaller := h.caller
      unfold CallerOk at hcaller
      rw [hswapping] at hcaller
      refine h.frame rfl rfl ⟨hcaller.1, hcaller.2, rfl⟩
        (h.root.congr rfl ⟨nofun, fun heq ↦ ?_⟩ rfl rfl) fun p hp ↦ ?_
      · cases hswapping.symm.trans heq
      · refine .inr ⟨s.threads, rfl, (h.pool p hp).resolve_right fun ⟨l, hl, _⟩ ↦ ?_⟩
        cases hswapping.symm.trans hl
  | @joined p ps hjoin hexit =>
      refine h.joins hjoin (.inr ⟨ps, rfl⟩) fun q hq hne ↦ ⟨ps, rfl, ?_⟩
      rcases List.mem_cons.mp hq with rfl | hq
      · exact absurd hexit hne
      · exact hq
  | returned hjoin => exact h.joins hjoin (.inl rfl) fun p hp ↦ absurd hp List.not_mem_nil

theorem constructed_ok (thread : Option (Fin n) → Int) : Ok (constructed thread) where
  straight := by
    refine ⟨nofun, nofun, fun w ↦ ⟨?_, ?_, ?_, ?_⟩, ?_, ?_, fun _ ↦ ⟨nofun, nofun⟩, fun _ _ ↦ rfl⟩
    · cases w with
      | none => exact .free (.inl rfl)
      | some p => exact .free (.inr (.inr rfl))
    · cases w with
      | none => nofun
      | some p => nofun
    · cases w with
      | none => nofun
      | some p => nofun
    · nofun
    · intro w w' f hw
      rcases hw with hw | hw
      · cases w <;> cases hw
      · cases hw
    · nofun
  asked := ⟨nofun, fun h ↦ absurd rfl h, fun _ h ↦ absurd rfl h⟩
  caller := ⟨rfl, fun _ ↦ rfl⟩
  root := ⟨nofun, rfl, rfl, rfl⟩
  pool := fun p hp ↦ absurd rfl hp

end State

end Server.Restart
