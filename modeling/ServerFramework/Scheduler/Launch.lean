import ServerFramework.Library.Runs
import Mathlib.Algebra.BigOperators.Group.Finset.Basic
import Mathlib.Algebra.Order.BigOperators.Group.Finset
import Mathlib.Data.List.Range
import Mathlib.Data.Nat.Notation
import Mathlib.Logic.Function.Basic

/-!
# Starting the threads of a pool

`Scheduler::start` holds `m_mutex` while it constructs its threads one after the other.  The
constructor of `Thread` waits on the thread's semaphore until `Thread::run`, on the new thread, has
set the id and the name.  `pthread_create` may fail, and then the constructor throws.
-/

namespace Server.Launch

open Runs

/-- A scheduler before `start`, and the ids that the kernel gives to its threads. -/
structure Pool where
  /-- `m_name` -/
  name : String
  /-- `m_threadCount` -/
  count : Nat
  tid : Nat → Int
  /-- `m_threadIds` after the constructor -/
  ids : List Int

/-- Where a thread is in `Thread::run`. -/
inductive Stage where
  /-- the thread does not exist -/
  | absent
  /-- before `t_thread = thread` -/
  | entered
  /-- before `t_thread_name = thread->m_name` -/
  | known
  /-- before `thread->m_id = getThreadId()` -/
  | named
  /-- before `pthread_setname_np` -/
  | identified
  /-- before `cb.swap(thread->m_cb)` -/
  | labelled
  /-- before `thread->m_semaphore.notify()` -/
  | swapped
  /-- in `cb()`, which is `Scheduler::run`, before its first scan -/
  | notified
  /-- has scanned `m_fibers` -/
  | scanned
  deriving DecidableEq, Repr

/-- A `Thread` with the thread that it stands for. -/
structure Thread where
  stage : Stage
  /-- `m_name` -/
  name : String
  /-- `m_id` -/
  id : Int
  /-- `m_cb` is not empty -/
  cb : Bool
  /-- the value of `m_semaphore` -/
  posts : Nat
  /-- `t_thread` points to this object -/
  this : Bool
  /-- `t_thread_name` -/
  threadName : String
  /-- the name in the kernel -/
  label : Option String
  /-- the local `cb` of `Thread::run` is not empty -/
  held : Bool
  deriving DecidableEq, Repr

/-- Before `make_shared<Thread>`. -/
def Thread.none : Thread := ⟨.absent, "", -1, false, 0, false, "UNKNOWN", .none, false⟩

/-- After `pthread_create` in `Thread(cb, name)`. -/
def Thread.new (name : String) : Thread :=
  { Thread.none with
    stage := .entered
    name := if name.isEmpty then "UNKNOWN" else name
    cb := true }

/-- The next step of `Thread::run`, except for the scan. -/
def Thread.run (t : Thread) (tid : Int) : Option Thread :=
  match t.stage with
  | .entered => some { t with stage := .known, this := true }
  | .known => some { t with stage := .named, threadName := t.name }
  | .named => some { t with stage := .identified, id := tid }
  | .identified => some { t with stage := .labelled, label := some (t.name.take 15).toString }
  | .labelled => some { t with stage := .swapped, cb := t.held, held := t.cb }
  | .swapped => some { t with stage := .notified, posts := t.posts + 1 }
  | .absent | .notified | .scanned => Option.none

/-- Where the thread is that calls `start`. -/
inductive Starter where
  | outside
  | locking
  /-- before the test of `m_isRunning` -/
  | testing
  /-- at the head of the loop -/
  | creating (i : Nat)
  /-- in `m_semaphore.wait()` -/
  | waiting (i : Nat)
  /-- before `m_threads[i] = …` and `m_threadIds.push_back` -/
  | recording (i : Nat)
  | unlocking
  /-- the exception leaves `start`, and the destructor of `lock` is to come -/
  | unwinding
  | returned
  | threw
  deriving DecidableEq, Repr

structure State where
  starter : Starter
  /-- the caller of `start` holds `m_mutex` -/
  mutex : Bool
  isRunning : Bool
  /-- `m_threads`, with null pointers -/
  threads : List (Option Nat)
  threadIds : List Int
  thread : Nat → Thread

inductive Act where
  /-- somebody calls `start`; calls of several threads come one after the other -/
  | call
  /-- the next step of `start`, but `pthread_create` -/
  | start
  /-- `pthread_create`, which may fail -/
  | create (ok : Bool)
  /-- the next step of a thread -/
  | thread (i : Nat)
  deriving DecidableEq, Repr

/-- The stages in their order. -/
def Stage.rank : Stage → Nat
  | .absent => 0
  | .entered => 1
  | .known => 2
  | .named => 3
  | .identified => 4
  | .labelled => 5
  | .swapped => 6
  | .notified => 7
  | .scanned => 8

/-- In the loop of `start`. -/
def Starter.launching : Starter → Bool
  | .creating _ | .waiting _ | .recording _ => true
  | _ => false

/-- With `m_mutex`. -/
def Starter.locked : Starter → Bool
  | .testing | .creating _ | .waiting _ | .recording _ | .unlocking | .unwinding => true
  | _ => false

variable {p : Pool} {s s' : State} {a : Act} {acts : List Act} {i j k n : Nat}

namespace Pool

def initial (p : Pool) : State := ⟨.outside, false, false, [], p.ids, fun _ ↦ .none⟩

/-- `m_name + "_" + std::to_string(i)` -/
def threadName (p : Pool) (i : Nat) : String := p.name ++ "_" ++ Nat.repr i

def start (p : Pool) (s : State) : Option State :=
  match s.starter with
  | .locking => if s.mutex then none else some { s with starter := .testing, mutex := true }
  | .testing =>
    if s.isRunning then some { s with starter := .unlocking }
    -- `SERVER_ASSERT(m_threads.empty())`
    else if !s.threads.isEmpty then none
    else some { s with
      starter := .creating 0, isRunning := true, threads := List.replicate p.count none }
  | .creating i => if i < p.count then none else some { s with starter := .unlocking }
  | .waiting i =>
    if (s.thread i).posts = 0 then none
    else some { s with
      starter := .recording i
      thread := Function.update s.thread i
        { s.thread i with posts := (s.thread i).posts - 1 } }
  | .recording i =>
    some { s with
      starter := .creating (i + 1)
      threads := s.threads.set i (some i)
      threadIds := s.threadIds ++ [(s.thread i).id] }
  | .unlocking => some { s with starter := .returned, mutex := false }
  | .unwinding => some { s with starter := .threw, mutex := false }
  | .outside | .returned | .threw => none

def create (p : Pool) (s : State) (ok : Bool) : Option State :=
  match s.starter with
  | .creating i =>
    if i < p.count then
      if ok then
        some { s with
          starter := .waiting i
          thread := Function.update s.thread i (.new (p.threadName i)) }
      else some { s with starter := .unwinding }
    else none
  | _ => none

/-- A step of a thread; the scan of `Scheduler::run` needs `m_mutex`. -/
def resume (p : Pool) (s : State) (i : Nat) : Option State :=
  if (s.thread i).stage = .notified then
    if s.mutex then none
    else some { s with thread := Function.update s.thread i { s.thread i with stage := .scanned } }
  else
    ((s.thread i).run (p.tid i)).map fun t ↦ { s with thread := Function.update s.thread i t }

def step (p : Pool) (s : State) : Act → Option State
  | .call =>
    match s.starter with
    | .outside | .returned | .threw => some { s with starter := .locking }
    | _ => none
  | .start => p.start s
  | .create ok => p.create s ok
  | .thread i => p.resume s i

/-! ## What a started thread is like -/

/-- The thread `i` at a stage of `Thread::run`. -/
def expected (p : Pool) (i : Nat) (stage : Stage) (posts : Nat) : Thread where
  stage := stage
  name := p.threadName i
  id := if 4 ≤ stage.rank then p.tid i else -1
  cb := decide (stage.rank < 6)
  posts := posts
  this := decide (2 ≤ stage.rank)
  threadName := if 3 ≤ stage.rank then p.threadName i else "UNKNOWN"
  label := if 5 ≤ stage.rank then some ((p.threadName i).take 15).toString else none
  held := decide (6 ≤ stage.rank)

theorem threadName_ne (p : Pool) (i : Nat) : (p.threadName i).isEmpty = false := by
  simp [threadName]

theorem new_threadName (p : Pool) (i : Nat) : Thread.new (p.threadName i) = p.expected i .entered 0 := by
  rw [Thread.new, threadName_ne]
  rfl

/-- `Thread::run` goes through the stages in their order, and posts once. -/
theorem run_expected {stage : Stage} {t : Thread} (h : (p.expected i stage 0).run (p.tid i) = some t) :
    ∃ stage', stage'.rank = stage.rank + 1 ∧ stage' ≠ .scanned ∧
      t = p.expected i stage' (if stage' = .notified then 1 else 0) := by
  cases stage with
  | absent | notified | scanned => cases h
  | entered => cases h; exact ⟨.known, rfl, nofun, rfl⟩
  | known => cases h; exact ⟨.named, rfl, nofun, rfl⟩
  | named => cases h; exact ⟨.identified, rfl, nofun, rfl⟩
  | identified => cases h; exact ⟨.labelled, rfl, nofun, rfl⟩
  | labelled => cases h; exact ⟨.swapped, rfl, nofun, rfl⟩
  | swapped => cases h; exact ⟨.notified, rfl, nofun, rfl⟩

/-- The semaphore of a thread that has posted, until `wait` returns. -/
def postsAt (starter : Starter) (i : Nat) (stage : Stage) : Nat :=
  if 7 ≤ stage.rank ∧ starter = .waiting i then 1 else 0

/-- The thread `i` exists, and is as `Thread::run` left it. -/
def Present (p : Pool) (starter : Starter) (i : Nat) (t : Thread) : Prop :=
  1 ≤ t.stage.rank ∧ t = p.expected i t.stage (postsAt starter i t.stage)

theorem postsAt_eq_zero {starter : Starter} {stage : Stage} (h : starter ≠ .waiting i) :
    postsAt starter i stage = 0 :=
  if_neg fun hboth ↦ h hboth.2

theorem Present.congr {starter starter' : Starter} {t : Thread} (h : p.Present starter i t)
    (hold : starter ≠ .waiting i) (hnew : starter' ≠ .waiting i) : p.Present starter' i t := by
  refine ⟨h.1, ?_⟩
  rw [postsAt_eq_zero hnew]
  exact postsAt_eq_zero hold ▸ h.2

theorem present_expected {starter : Starter} {stage : Stage} (hrank : 1 ≤ stage.rank)
    (h : starter ≠ .waiting i) : p.Present starter i (p.expected i stage 0) := by
  refine ⟨hrank, ?_⟩
  rw [postsAt_eq_zero h]
  rfl

/-- `recorded` threads are in `m_threads`, and `created` ones exist; `failed` says that
`pthread_create` failed. -/
structure Ok (p : Pool) (s : State) (recorded created : Nat) (failed : Bool) : Prop where
  le : recorded ≤ created ∧ created ≤ p.count
  stopped : s.isRunning = false → created = 0 ∧ s.threads = [] ∧ failed = false ∧
    (s.starter = .outside ∨ s.starter = .locking ∨ s.starter = .testing)
  threads : s.isRunning = true → s.threads =
    (List.range recorded).map some ++ List.replicate (p.count - recorded) none
  threadIds : s.threadIds = p.ids ++ (List.range recorded).map p.tid
  absent : ∀ i, created ≤ i → s.thread i = .none
  present : ∀ i < created, p.Present s.starter i (s.thread i)
  past : ∀ i < recorded, 7 ≤ (s.thread i).stage.rank
  starter : match s.starter with
    | .creating i => recorded = i ∧ created = i
    | .waiting i => recorded = i ∧ created = i + 1
    | .recording i => recorded = i ∧ created = i + 1 ∧ 7 ≤ (s.thread i).stage.rank
    | _ => created = recorded
  mutex : s.mutex = s.starter.locked
  quiet : s.starter.launching = true → failed = false ∧ ∀ i, (s.thread i).stage ≠ .scanned
  complete : s.isRunning = true → s.starter.launching = false →
    if failed then recorded < p.count else recorded = p.count

theorem initial_ok (p : Pool) : p.Ok p.initial 0 0 false where
  le := ⟨le_refl 0, Nat.zero_le _⟩
  stopped := fun _ ↦ ⟨rfl, rfl, rfl, .inl rfl⟩
  threads := nofun
  threadIds := (List.append_nil _).symm
  absent := fun _ _ ↦ rfl
  present := nofun
  past := nofun
  starter := rfl
  mutex := rfl
  quiet := nofun
  complete := nofun

variable {failed : Bool} {r c : Nat}

/-- Outside the loop of `start`. -/
theorem Ok.move (h : p.Ok s r c failed) {starter : Starter} (hold : s.starter.launching = false)
    (hnew : starter.launching = false)
    (hstopped : s.isRunning = false → starter = .outside ∨ starter = .locking ∨ starter = .testing) :
    p.Ok { s with starter := starter, mutex := starter.locked } r c failed := by
  have hne : ∀ {st : Starter}, st.launching = false → ∀ i, st ≠ .waiting i := by
    rintro _ hst i rfl
    cases hst
  have hcr : c = r := by
    have hst := h.starter
    cases hs : s.starter <;> simp_all [Starter.launching]
  constructor
  · exact h.le
  · intro hrun
    obtain ⟨hc, hthreads, hfailed, -⟩ := h.stopped hrun
    exact ⟨hc, hthreads, hfailed, hstopped hrun⟩
  · exact h.threads
  · exact h.threadIds
  · exact h.absent
  · exact fun i hi ↦ (h.present i hi).congr (hne hold i) (hne hnew i)
  · exact h.past
  · cases starter with
    | creating _ | waiting _ | recording _ => cases hnew
    | _ => exact hcr
  · rfl
  · intro hlaunching
    rw [hnew] at hlaunching
    cases hlaunching
  · intro hrun _
    exact h.complete hrun hold

/-- The first call of `start` sets `m_isRunning`, and makes room for the threads. -/
theorem Ok.begin (h : p.Ok s r c failed) (hs : s.starter = .testing) (hrun : s.isRunning = false) :
    p.Ok { s with
      starter := .creating 0
      isRunning := true
      threads := List.replicate p.count none } 0 0 false := by
  -- before the first call nothing has been made or recorded
  obtain ⟨rfl, -, -, -⟩ := h.stopped hrun
  obtain rfl : r = 0 := Nat.le_zero.mp h.le.1
  constructor
  · exact h.le
  · nofun
  · intro _
    rfl
  · exact h.threadIds
  · exact h.absent
  · nofun
  · nofun
  · exact ⟨rfl, rfl⟩
  · rw [show s.mutex = s.starter.locked from h.mutex, hs]
    rfl
  · refine fun _ ↦ ⟨rfl, fun i hscanned ↦ ?_⟩
    rw [show s.thread i = .none from h.absent i (Nat.zero_le i)] at hscanned
    cases hscanned
  · nofun

/-- After the last thread. -/
theorem Ok.finish (h : p.Ok s r c failed) (hs : s.starter = .creating i) (hi : ¬ i < p.count) :
    p.Ok { s with starter := .unlocking } r c failed := by
  have hst := h.starter
  rw [hs] at hst
  obtain ⟨rfl, rfl⟩ := hst
  have hrun : s.isRunning = true := by
    by_contra hrun
    have hstopped := (h.stopped (Bool.not_eq_true _ ▸ hrun)).2.2.2
    rw [hs] at hstopped
    simp at hstopped
  -- the loop ends only after the last thread
  have hcount : c = p.count := Nat.le_antisymm h.le.2 (Nat.not_lt.mp hi)
  constructor
  · exact h.le
  · intro hfalse
    rw [show s.isRunning = true from hrun] at hfalse
    cases hfalse
  · exact h.threads
  · exact h.threadIds
  · exact h.absent
  · exact fun i hi ↦ (h.present i hi).congr (by rw [hs]; nofun) nofun
  · exact h.past
  · rfl
  · rw [show s.mutex = s.starter.locked from h.mutex, hs]
    rfl
  · nofun
  · intro _ _
    rw [(h.quiet (by rw [hs]; rfl)).1, if_neg Bool.false_ne_true]
    exact hcount

theorem Ok.running (h : p.Ok s r c failed) (hs : s.starter ≠ .outside ∧ s.starter ≠ .locking ∧
    s.starter ≠ .testing) : s.isRunning = true := by
  by_contra hrun
  rcases (h.stopped (Bool.not_eq_true _ ▸ hrun)).2.2.2 with hst | hst | hst
  · exact hs.1 hst
  · exact hs.2.1 hst
  · exact hs.2.2 hst

/-- `wait` returns after the thread has posted. -/
theorem Ok.wait (h : p.Ok s r c failed) (hs : s.starter = .waiting i)
    (hposts : (s.thread i).posts ≠ 0) :
    p.Ok { s with
      starter := .recording i
      thread := Function.update s.thread i
        { s.thread i with posts := (s.thread i).posts - 1 } } r c failed := by
  have hst := h.starter
  rw [hs] at hst
  obtain ⟨rfl, rfl⟩ := hst
  -- the semaphore counts one post, by a thread that is past it
  have hlast := h.present r (Nat.lt_succ_self r)
  have hrank : 7 ≤ (s.thread r).stage.rank := by
    by_contra hrank
    rw [hlast.2, postsAt, if_neg fun hboth ↦ hrank hboth.1] at hposts
    exact hposts rfl
  have hself : { s.thread r with posts := (s.thread r).posts - 1 } =
      p.expected r (s.thread r).stage 0 := by
    rw [hlast.2, postsAt, hs, if_pos ⟨hrank, rfl⟩]
    rfl
  rw [hself]
  have hstage : ∀ j, (Function.update s.thread r (p.expected r (s.thread r).stage 0) j).stage =
      (s.thread j).stage := by
    intro j
    by_cases hj : j = r
    · rw [hj, Function.update_self]
      rfl
    · rw [Function.update_of_ne hj]
  have hrun := h.running (by rw [hs]; simp)
  constructor
  · exact h.le
  · intro hfalse
    rw [show s.isRunning = true from hrun] at hfalse
    cases hfalse
  · exact h.threads
  · exact h.threadIds
  · intro j hj
    show Function.update s.thread r _ j = .none
    rw [Function.update_of_ne (by omega)]
    exact h.absent j hj
  · intro j hj
    show p.Present _ j (Function.update s.thread r _ j)
    by_cases hjr : j = r
    · rw [hjr, Function.update_self]
      exact present_expected hlast.1 nofun
    · rw [Function.update_of_ne hjr]
      exact (h.present j hj).congr (by rw [hs]; simp; omega) nofun
  · intro j hj
    show 7 ≤ (Function.update s.thread r _ j).stage.rank
    rw [hstage]
    exact h.past j hj
  · refine ⟨rfl, rfl, ?_⟩
    show 7 ≤ (Function.update s.thread r _ r).stage.rank
    rw [hstage]
    exact hrank
  · rw [show s.mutex = s.starter.locked from h.mutex, hs]
    rfl
  · refine fun _ ↦ ⟨(h.quiet (by rw [hs]; rfl)).1, fun j ↦ ?_⟩
    show (Function.update s.thread r _ j).stage ≠ .scanned
    rw [hstage]
    exact (h.quiet (by rw [hs]; rfl)).2 j
  · nofun

/-- The thread gets its place in `m_threads` with its id. -/
theorem Ok.record (h : p.Ok s r c failed) (hs : s.starter = .recording i) :
    p.Ok { s with
      starter := .creating (i + 1)
      threads := s.threads.set i (some i)
      threadIds := s.threadIds ++ [(s.thread i).id] } (r + 1) c failed := by
  have hst := h.starter
  rw [hs] at hst
  obtain ⟨rfl, rfl, hrank⟩ := hst
  have hrun := h.running (by rw [hs]; simp)
  have hid : (s.thread r).id = p.tid r := by
    rw [(h.present r (Nat.lt_succ_self r)).2]
    exact if_pos (by omega)
  have hle := h.le
  constructor
  · omega
  · intro hfalse
    rw [show s.isRunning = true from hrun] at hfalse
    cases hfalse
  · intro _
    show s.threads.set r (some r) = _
    rw [h.threads hrun, List.set_append_right _ _ (by simp)]
    -- the first of the null pointers is replaced
    obtain ⟨n, hn⟩ : ∃ n, p.count - r = n + 1 := ⟨p.count - r - 1, by omega⟩
    simp only [List.length_map, List.length_range, Nat.sub_self, hn, List.replicate_succ, List.set_cons_zero,
      List.range_succ, List.map_append, List.append_assoc]
    rw [show p.count - (r + 1) = n by omega]
    rfl
  · show s.threadIds ++ [(s.thread r).id] = _
    rw [h.threadIds, hid, List.range_succ, List.map_append, List.append_assoc]
    rfl
  · exact h.absent
  · exact fun j hj ↦ (h.present j hj).congr (by rw [hs]; nofun) nofun
  · intro j hj
    rcases Nat.lt_succ_iff_lt_or_eq.mp hj with hlt | rfl
    · exact h.past j hlt
    · exact hrank
  · exact ⟨rfl, rfl⟩
  · rw [show s.mutex = s.starter.locked from h.mutex, hs]
    rfl
  · exact fun _ ↦ h.quiet (by rw [hs]; rfl)
  · nofun

/-- `pthread_create` makes the next thread. -/
theorem Ok.create (h : p.Ok s r c failed) (hs : s.starter = .creating i) (hi : i < p.count) :
    p.Ok { s with
      starter := .waiting i
      thread := Function.update s.thread i (.new (p.threadName i)) } r (c + 1) failed := by
  have hst := h.starter
  rw [hs] at hst
  obtain ⟨rfl, rfl⟩ := hst
  have hrun := h.running (by rw [hs]; simp)
  rw [new_threadName]
  constructor
  · exact ⟨Nat.le_succ c, hi⟩
  · intro hfalse
    rw [show s.isRunning = true from hrun] at hfalse
    cases hfalse
  · exact h.threads
  · exact h.threadIds
  · intro j hj
    show Function.update s.thread c _ j = .none
    rw [Function.update_of_ne (by omega)]
    exact h.absent j (by omega)
  · intro j hj
    show p.Present _ j (Function.update s.thread c _ j)
    by_cases hjc : j = c
    · rw [hjc, Function.update_self]
      exact ⟨le_refl 1, rfl⟩
    · rw [Function.update_of_ne hjc]
      exact (h.present j (by omega)).congr (by rw [hs]; nofun) (by simp; omega)
  · intro j hj
    show 7 ≤ (Function.update s.thread c _ j).stage.rank
    rw [Function.update_of_ne (by omega)]
    exact h.past j hj
  · exact ⟨rfl, rfl⟩
  · rw [show s.mutex = s.starter.locked from h.mutex, hs]
    rfl
  · refine fun _ ↦ ⟨(h.quiet (by rw [hs]; rfl)).1, fun j ↦ ?_⟩
    show (Function.update s.thread c _ j).stage ≠ .scanned
    by_cases hjc : j = c
    · rw [hjc, Function.update_self]
      nofun
    · rw [Function.update_of_ne hjc]
      exact (h.quiet (by rw [hs]; rfl)).2 j
  · nofun

/-- When `pthread_create` fails, the rest of `m_threads` stays null. -/
theorem Ok.fail (h : p.Ok s r c failed) (hs : s.starter = .creating i) (hi : i < p.count) :
    p.Ok { s with starter := .unwinding } r c true := by
  have hst := h.starter
  rw [hs] at hst
  obtain ⟨rfl, rfl⟩ := hst
  have hrun := h.running (by rw [hs]; simp)
  constructor
  · exact h.le
  · intro hfalse
    rw [show s.isRunning = true from hrun] at hfalse
    cases hfalse
  · exact h.threads
  · exact h.threadIds
  · exact h.absent
  · exact fun j hj ↦ (h.present j hj).congr (by rw [hs]; nofun) nofun
  · exact h.past
  · rfl
  · rw [show s.mutex = s.starter.locked from h.mutex, hs]
    rfl
  · nofun
  · exact fun _ _ ↦ hi

/-- A thread goes on to its next stage. -/
theorem Ok.thread (h : p.Ok s r c failed) {t : Thread} (hi : i < c) (ht : p.Present s.starter i t)
    (hrank : (s.thread i).stage.rank ≤ t.stage.rank)
    (hscan : s.starter.launching = true → t.stage ≠ .scanned) :
    p.Ok { s with thread := Function.update s.thread i t } r c failed := by
  -- no thread goes back
  have hle : ∀ j, (s.thread j).stage.rank ≤ (Function.update s.thread i t j).stage.rank := by
    intro j
    by_cases hj : j = i
    · rw [hj, Function.update_self]
      exact hrank
    · rw [Function.update_of_ne hj]
  constructor
  · exact h.le
  · exact h.stopped
  · exact h.threads
  · exact h.threadIds
  · intro j hj
    show Function.update s.thread i t j = .none
    rw [Function.update_of_ne (by omega)]
    exact h.absent j hj
  · intro j hj
    show p.Present _ j (Function.update s.thread i t j)
    by_cases hji : j = i
    · rw [hji, Function.update_self]
      exact ht
    · rw [Function.update_of_ne hji]
      exact h.present j hj
  · exact fun j hj ↦ (h.past j hj).trans (hle j)
  · have hst := h.starter
    cases hs : s.starter with
    | creating j | waiting j =>
        rw [hs] at hst
        exact hst
    | recording j =>
        rw [hs] at hst
        exact ⟨hst.1, hst.2.1, hst.2.2.trans (hle j)⟩
    | _ =>
        rw [hs] at hst
        exact hst
  · exact h.mutex
  · refine fun hlaunching ↦ ⟨(h.quiet hlaunching).1, fun j ↦ ?_⟩
    show (Function.update s.thread i t j).stage ≠ .scanned
    by_cases hji : j = i
    · rw [hji, Function.update_self]
      exact hscan hlaunching
    · rw [Function.update_of_ne hji]
      exact (h.quiet hlaunching).2 j
  · exact h.complete

/-- Only the last thread may still be on its way to `notify`, and `start` waits for it. -/
theorem Ok.waiting (h : p.Ok s r c failed) (hi : i < c) (hrank : ¬ 7 ≤ (s.thread i).stage.rank) :
    s.starter = .waiting i := by
  have hri : r ≤ i := Nat.not_lt.mp fun hlt ↦ hrank (h.past i hlt)
  have hst := h.starter
  -- a thread that exists and is not recorded is the one that `start` waits for or records
  cases hs : s.starter with
  | waiting j =>
      rw [hs] at hst
      obtain rfl : i = j := by omega
      rfl
  | recording j =>
      rw [hs] at hst
      obtain rfl : i = j := by omega
      exact absurd hst.2.2 hrank
  | creating j =>
      rw [hs] at hst
      omega
  | _ =>
      rw [hs] at hst
      have heq : c = r := hst
      omega

theorem Ok.resume (h : p.Ok s r c failed) (hs : p.resume s i = some s') : p.Ok s' r c failed := by
  unfold Pool.resume at hs
  have hi : i < c := by
    by_contra hi
    rw [h.absent i (Nat.not_lt.mp hi)] at hs
    simp [Thread.none, Thread.run] at hs
  have hpresent := h.present i hi
  split at hs
  · rename_i hstage
    split at hs
    · cases hs
    · rename_i hmutex
      obtain rfl := Option.some.inj hs
      -- with the mutex free, `start` is not in its loop
      have hlocked : s.starter.locked = false := h.mutex ▸ (Bool.not_eq_true _ ▸ hmutex)
      have hlaunching : s.starter.launching = false := by
        cases hst : s.starter <;> simp_all [Starter.launching, Starter.locked]
      have hne : s.starter ≠ .waiting i := fun hst ↦ by
        rw [hst] at hlaunching
        cases hlaunching
      have hscanned : { s.thread i with stage := .scanned } = p.expected i .scanned 0 := by
        rw [hpresent.2, hstage, postsAt_eq_zero hne]
        rfl
      rw [hscanned]
      refine h.thread hi (present_expected (by decide) hne) ?_ fun htrue ↦ ?_
      · rw [hstage]
        exact Nat.le_succ 7
      · rw [hlaunching] at htrue
        cases htrue
  · rename_i hstage
    obtain ⟨t, ht, rfl⟩ := Option.map_eq_some_iff.mp hs
    have hrank : ¬ 7 ≤ (s.thread i).stage.rank := by
      intro hrank
      rw [Thread.run] at ht
      cases hst : (s.thread i).stage <;> simp_all [Stage.rank]
    rw [hpresent.2, postsAt, if_neg fun hboth ↦ hrank hboth.1] at ht
    obtain ⟨stage', hstage', hne, rfl⟩ := run_expected ht
    have hwaiting := h.waiting hi hrank
    refine h.thread hi ⟨?_, ?_⟩ ?_ fun _ ↦ hne
    · show 1 ≤ stage'.rank
      omega
    · show p.expected i stage' _ = p.expected i stage' (postsAt s.starter i stage')
      rw [postsAt, hwaiting]
      cases stage' with
      | scanned => exact absurd rfl hne
      | _ => simp [Stage.rank]
    · show (s.thread i).stage.rank ≤ stage'.rank
      omega

theorem Ok.start (h : p.Ok s r c failed) (hs : p.start s = some s') :
    ∃ r', p.Ok s' r' c failed := by
  unfold Pool.start at hs
  have hmove : ∀ {starter : Starter}, s.starter.launching = false → starter.launching = false →
      s.isRunning = true → p.Ok { s with starter := starter, mutex := starter.locked } r c failed :=
    fun hold hnew hrun ↦ h.move hold hnew fun hfalse ↦ by simp [hrun] at hfalse
  cases hst : s.starter with
  | locking =>
      rw [hst] at hs
      dsimp only at hs
      split at hs
      · cases hs
      · obtain rfl := Option.some.inj hs
        exact ⟨r, h.move (by rw [hst]; rfl) rfl fun _ ↦ .inr (.inr rfl)⟩
  | testing =>
      rw [hst] at hs
      dsimp only at hs
      have hmutex : s.mutex = true := by rw [h.mutex, hst]; rfl
      split at hs
      · rename_i hrun
        obtain rfl := Option.some.inj hs
        -- a second call finds `m_isRunning` set, and only unlocks
        have hunlock :
            p.Ok { s with starter := .unlocking, mutex := Starter.unlocking.locked } r c failed :=
          hmove (by rw [hst]; rfl) rfl hrun
        rw [show Starter.unlocking.locked = s.mutex from hmutex.symm] at hunlock
        exact ⟨r, hunlock⟩
      · rename_i hrun
        split at hs
        · cases hs
        · obtain rfl := Option.some.inj hs
          have hrun := Bool.not_eq_true _ ▸ hrun
          obtain ⟨rfl, -, rfl, -⟩ := h.stopped hrun
          exact ⟨0, h.begin hst hrun⟩
  | creating i =>
      rw [hst] at hs
      dsimp only at hs
      split at hs
      · cases hs
      · rename_i hi
        obtain rfl := Option.some.inj hs
        exact ⟨r, h.finish hst hi⟩
  | waiting i =>
      rw [hst] at hs
      dsimp only at hs
      split at hs
      · cases hs
      · rename_i hposts
        obtain rfl := Option.some.inj hs
        exact ⟨r, h.wait hst hposts⟩
  | recording i =>
      rw [hst] at hs
      obtain rfl := Option.some.inj hs
      exact ⟨r + 1, h.record hst⟩
  | unlocking =>
      rw [hst] at hs
      obtain rfl := Option.some.inj hs
      exact ⟨r, hmove (by rw [hst]; rfl) rfl (h.running (by rw [hst]; simp))⟩
  | unwinding =>
      rw [hst] at hs
      obtain rfl := Option.some.inj hs
      exact ⟨r, hmove (by rw [hst]; rfl) rfl (h.running (by rw [hst]; simp))⟩
  | outside | returned | threw =>
      rw [hst] at hs
      cases hs

theorem Ok.step (h : p.Ok s r c failed) (hs : p.step s a = some s') :
    ∃ r', p.Ok s' r' (c + if a = .create true then 1 else 0)
      (failed || decide (a = .create false)) := by
  cases a with
  | call =>
      simp only [reduceCtorEq, decide_false, Bool.or_false, if_false, Nat.add_zero]
      have hcall : s.starter.launching = false → s.starter.locked = false →
          some { s with starter := .locking } = some s' → ∃ r', p.Ok s' r' c failed := by
        rintro hold hlocked hsome
        obtain rfl := Option.some.inj hsome
        have hlocking :
            p.Ok { s with starter := .locking, mutex := Starter.locking.locked } r c failed :=
          h.move hold rfl fun _ ↦ .inr (.inl rfl)
        rw [show Starter.locking.locked = s.mutex from (h.mutex.trans hlocked).symm] at hlocking
        exact ⟨r, hlocking⟩
      simp only [Pool.step] at hs
      cases hst : s.starter with
      | outside | returned | threw =>
          rw [hst] at hs hcall
          exact hcall rfl rfl hs
      | _ =>
          rw [hst] at hs
          cases hs
  | start =>
      simp only [reduceCtorEq, decide_false, Bool.or_false, if_false, Nat.add_zero]
      exact h.start hs
  | create ok =>
      simp only [Pool.step, Pool.create] at hs
      split at hs
      · rename_i i hst
        split at hs
        · rename_i hi
          split at hs
          · rename_i hok
            obtain rfl := Option.some.inj hs
            rw [hok]
            simp only [Act.create.injEq, Bool.true_eq_false, decide_false, Bool.or_false, if_true]
            exact ⟨r, h.create hst hi⟩
          · rename_i hok
            obtain rfl := Option.some.inj hs
            rw [Bool.not_eq_true] at hok
            rw [hok]
            simp only [Act.create.injEq, Bool.false_eq_true, if_false, Nat.add_zero, decide_true,
              Bool.or_true]
            exact ⟨r, h.fail hst hi⟩
        · cases hs
      · cases hs
  | thread i =>
      simp only [reduceCtorEq, decide_false, Bool.or_false, if_false, Nat.add_zero]
      exact ⟨r, h.resume hs⟩

theorem run_ok (h : Run (Of p.step) s acts s') (hs : p.Ok s r c failed) :
    ∃ r', p.Ok s' r' (c + acts.count (.create true)) (failed || decide (.create false ∈ acts)) := by
  induction h generalizing r c failed with
  | nil => exact ⟨r, by simpa using hs⟩
  | @cons s s₁ s' a acts hstep _ ih =>
      obtain ⟨r₁, h₁⟩ := hs.step hstep
      obtain ⟨r', h'⟩ := ih h₁
      have hmem : decide (.create false ∈ a :: acts) =
          decide (a = .create false ∨ .create false ∈ acts) :=
        decide_eq_decide.mpr (by rw [List.mem_cons, eq_comm])
      refine ⟨r', ?_⟩
      rw [Bool.or_assoc, ← Bool.decide_or, Nat.add_assoc] at h'
      rw [hmem, List.count_cons, Nat.add_comm (acts.count _)]
      simpa only [beq_iff_eq] using h'

/-- Once `pthread_create` has failed, `start` does not come to it again. -/
theorem Ok.failed_step (h : p.Ok s r c true) (hs : p.step s a = some s') : ∃ r', p.Ok s' r' c true := by
  have hne : a ≠ .create true := by
    rintro rfl
    simp only [Pool.step, Pool.create] at hs
    split at hs
    · rename_i i hst
      have hquiet := (h.quiet (by rw [hst]; rfl)).1
      cases hquiet
    · cases hs
  obtain ⟨r', h'⟩ := h.step hs
  rw [if_neg hne] at h'
  exact ⟨r', h'⟩

/-! ## After `start` -/

/-- All threads exist and are recorded, and each one is in its callback. -/
structure Launched (p : Pool) (s : State) : Prop where
  threads : s.threads = (List.range p.count).map some
  threadIds : s.threadIds = p.ids ++ (List.range p.count).map p.tid
  thread : ∀ i < p.count, ∃ stage, 7 ≤ stage.rank ∧ s.thread i = p.expected i stage 0

/-- When `start` has returned without an exception, the pool is complete, and the ids are those of
the kernel; before that no thread takes a task. -/
theorem start_launches (h : Run (Of p.step) p.initial acts s) (hcreate : .create false ∉ acts) :
    (s.starter = .returned → p.Launched s) ∧
      (s.starter.launching = true → ∀ i, (s.thread i).stage ≠ .scanned) := by
  obtain ⟨r, hok⟩ := run_ok h p.initial_ok
  generalize 0 + acts.count (.create true) = c at hok
  refine ⟨fun hs ↦ ?_, fun hlaunching ↦ (hok.quiet hlaunching).2⟩
  have hrun := hok.running (by rw [hs]; simp)
  have hcount : r = p.count := by
    have hcomplete := hok.complete hrun (by rw [hs]; rfl)
    simpa [hcreate] using hcomplete
  have hcr : c = r := by
    have hst := hok.starter
    rwa [hs] at hst
  subst hcr hcount
  constructor
  · rw [hok.threads hrun, Nat.sub_self, List.replicate_zero, List.append_nil]
  · exact hok.threadIds
  · intro i hi
    have hpresent := (hok.present i hi).2
    rw [postsAt_eq_zero (by rw [hs]; nofun)] at hpresent
    exact ⟨_, hok.past i hi, hpresent⟩

/-- Two threads, with a caller thread beside them. -/
def pair : Pool := ⟨"pool", 2, fun i ↦ 101 + i, [100]⟩

/-- The steps for the next thread. -/
def makeNext (i : Nat) : List Act := .create true :: List.replicate 6 (.thread i) ++ [.start, .start]

theorem start_launches_pair : ∃ s : State, s.starter = .returned ∧ s.threadIds = [100, 101, 102] ∧
    pair.Launched s := by
  obtain ⟨s, h, hP⟩ := exists_run pair.step (fun _ _ ↦ true) (fun _ _ _ hs _ ↦ hs) pair.initial
    ([.call, .start, .start] ++ makeNext 0 ++ makeNext 1 ++ [.start, .start])
    (P := fun s ↦ decide (s.starter = .returned)) (by decide +kernel)
  have hreturned := of_decide_eq_true hP
  have hlaunched := (start_launches h (by decide)).1 hreturned
  exact ⟨s, hreturned, hlaunched.threadIds, hlaunched⟩

/-- After a failed `pthread_create` the scheduler counts as running with null pointers among its
threads, and `start` cannot make up for it: there are the threads that were made before, and never
another one. -/
theorem failed_start {before after : List Act}
    (h : Run (Of p.step) p.initial (before ++ .create false :: after) s) :
    s.isRunning = true ∧ before.count (.create true) < p.count ∧
      s.threads = (List.range (before.count (.create true))).map some ++
        List.replicate (p.count - before.count (.create true)) none ∧
      s.threadIds = p.ids ++ (List.range (before.count (.create true))).map p.tid ∧
      ∀ i, before.count (.create true) ≤ i → s.thread i = .none := by
  obtain ⟨s₁, hbefore, hrest⟩ := h.of_append
  obtain ⟨r, hok⟩ := run_ok hbefore p.initial_ok
  rw [Nat.zero_add] at hok
  generalize before.count (.create true) = k at hok ⊢
  -- up to the failure, at it, and from then on
  cases hrest with
  | @cons _ s₂ _ _ _ hfail hafter =>
      obtain ⟨r₂, hok₂⟩ := hok.step hfail
      simp only [Act.create.injEq, Bool.false_eq_true, if_false, Nat.add_zero, decide_true,
        Bool.or_true] at hok₂
      obtain ⟨r', hok'⟩ := hafter.invariant (I := fun s ↦ ∃ r, p.Ok s r k true)
        (fun _ _ _ ⟨_, hs⟩ hstep ↦ hs.failed_step hstep) ⟨r₂, hok₂⟩
      have hrun : s.isRunning = true := by
        by_contra hrun
        have hfailed := (hok'.stopped (Bool.not_eq_true _ ▸ hrun)).2.2.1
        cases hfailed
      have hlaunching : s.starter.launching = false := by
        by_contra hlaunching
        have hfailed := (hok'.quiet (Bool.not_eq_false _ ▸ hlaunching)).1
        cases hfailed
      -- outside the loop all that exist are recorded
      obtain rfl : k = r' := by
        have hst := hok'.starter
        cases hs : s.starter <;> simp_all [Starter.launching]
      exact ⟨hrun, hok'.complete hrun hlaunching, hok'.threads hrun, hok'.threadIds, hok'.absent⟩

/-- The second `pthread_create` fails, and a second call of `start` returns as if all were well. -/
theorem failed_start_pair : ∃ s : State, s.starter = .returned ∧ s.isRunning = true ∧
    s.threads = [some 0, none] ∧ s.threadIds = [100, 101] ∧ ∀ i, 1 ≤ i → s.thread i = .none := by
  obtain ⟨s, h, hP⟩ := exists_run pair.step (fun _ _ ↦ true) (fun _ _ _ hs _ ↦ hs) pair.initial
    (([.call, .start, .start] ++ makeNext 0) ++
      .create false :: [.start, .thread 0, .call, .start, .start, .start])
    (P := fun s ↦ decide (s.starter = .returned)) (by decide +kernel)
  obtain ⟨hrun, -, hthreads, hids, hnone⟩ := failed_start h
  exact ⟨s, of_decide_eq_true hP, hrun, hthreads, hids, hnone⟩

/-! ## `start` comes to an end -/

/-- How many steps of `start` are left. -/
def startLeft (p : Pool) : Starter → Nat
  | .locking => 3 * p.count + 4
  | .testing => 3 * p.count + 3
  | .creating i => 3 * (p.count - i) + 2
  | .waiting i => 3 * (p.count - i) + 1
  | .recording i => 3 * (p.count - i - 1) + 3
  | .unlocking | .unwinding => 1
  | .outside | .returned | .threw => 0

/-- How many steps are left up to the first scans. -/
def left (p : Pool) (s : State) : Nat :=
  p.startLeft s.starter + ∑ i ∈ Finset.range p.count, (8 - (s.thread i).stage.rank)

theorem rank_le (stage : Stage) : stage.rank ≤ 8 := by
  cases stage <;> decide

theorem sum_update (f : Nat → Thread) (t : Thread) (hi : i < p.count) :
    ∑ j ∈ Finset.range p.count, (8 - (Function.update f i t j).stage.rank) + (8 - (f i).stage.rank) =
      ∑ j ∈ Finset.range p.count, (8 - (f j).stage.rank) + (8 - t.stage.rank) := by
  have hmem : i ∈ Finset.range p.count := Finset.mem_range.mpr hi
  rw [← Finset.add_sum_erase _ _ hmem, ← Finset.add_sum_erase _ (fun j ↦ 8 - (f j).stage.rank) hmem]
  have hrest : ∑ j ∈ (Finset.range p.count).erase i, (8 - (Function.update f i t j).stage.rank) =
      ∑ j ∈ (Finset.range p.count).erase i, (8 - (f j).stage.rank) := by
    refine Finset.sum_congr rfl fun j hj ↦ ?_
    rw [Function.update_of_ne (Finset.ne_of_mem_erase hj)]
  rw [hrest, Function.update_self]
  omega

/-- A step of `start` that leaves the threads where they are. -/
theorem left_lt_start (hstage : ∀ j, (s'.thread j).stage = (s.thread j).stage)
    (hleft : p.startLeft s'.starter < p.startLeft s.starter) : p.left s' < p.left s := by
  unfold left
  simp only [hstage]
  omega

/-- A step of a thread. -/
theorem left_lt_thread (hi : i < p.count) {t : Thread} (starter : Starter)
    (hleft : p.startLeft starter ≤ p.startLeft s.starter)
    (hrank : t.stage.rank = (s.thread i).stage.rank + 1) :
    p.left { s with starter := starter, thread := Function.update s.thread i t } < p.left s := by
  have hsum := sum_update s.thread t hi
  have hle := rank_le t.stage
  show p.startLeft starter +
      ∑ j ∈ Finset.range p.count, (8 - (Function.update s.thread i t j).stage.rank) <
    p.left s
  unfold left
  omega

theorem Ok.left_start (h : p.Ok s r c failed) (hs : p.start s = some s') : p.left s' < p.left s := by
  have hi := h.starter
  have hle := h.le
  unfold Pool.start at hs
  cases hst : s.starter with
  | locking =>
      rw [hst] at hs
      dsimp only at hs
      split at hs
      · cases hs
      · obtain rfl := Option.some.inj hs
        exact left_lt_start (fun _ ↦ rfl) (by rw [hst, startLeft, startLeft]; omega)
  | testing =>
      rw [hst] at hs
      dsimp only at hs
      split at hs
      · obtain rfl := Option.some.inj hs
        exact left_lt_start (fun _ ↦ rfl) (by rw [hst, startLeft, startLeft]; omega)
      · split at hs
        · cases hs
        · obtain rfl := Option.some.inj hs
          exact left_lt_start (fun _ ↦ rfl) (by rw [hst, startLeft, startLeft]; omega)
  | creating i =>
      rw [hst] at hs
      dsimp only at hs
      split at hs
      · cases hs
      · obtain rfl := Option.some.inj hs
        exact left_lt_start (fun _ ↦ rfl) (by rw [hst, startLeft, startLeft]; omega)
  | waiting i =>
      rw [hst] at hs hi
      dsimp only at hs
      split at hs
      · cases hs
      · obtain rfl := Option.some.inj hs
        refine left_lt_start (fun j ↦ ?_) (by rw [hst, startLeft, startLeft]; omega)
        show (Function.update s.thread i _ j).stage = _
        by_cases hj : j = i
        · rw [hj, Function.update_self]
        · rw [Function.update_of_ne hj]
  | recording i =>
      rw [hst] at hs
      obtain rfl := Option.some.inj hs
      exact left_lt_start (fun _ ↦ rfl) (by rw [hst, startLeft, startLeft]; omega)
  | unlocking | unwinding =>
      rw [hst] at hs
      obtain rfl := Option.some.inj hs
      exact left_lt_start (fun _ ↦ rfl) (by rw [hst, startLeft, startLeft]; omega)
  | outside | returned | threw =>
      rw [hst] at hs
      cases hs

/-- Every step but a call of `start` brings the end nearer. -/
theorem Ok.left_lt (h : p.Ok s r c failed) (hcall : a ≠ .call) (hs : p.step s a = some s') :
    p.left s' < p.left s := by
  cases a with
  | call => exact absurd rfl hcall
  | start => exact h.left_start hs
  | create ok =>
      simp only [Pool.step, Pool.create] at hs
      split at hs
      · rename_i i hst
        split at hs
        · rename_i hi
          split at hs
          · obtain rfl := Option.some.inj hs
            -- the new thread has all its stages before it, as the absent one was counted
            have habsent : s.thread i = .none := by
              have hcreating := h.starter
              rw [hst] at hcreating
              exact h.absent i hcreating.2.le
            refine left_lt_thread hi (.waiting i) (by rw [hst, startLeft, startLeft]; omega) ?_
            rw [habsent]
            rfl
          · obtain rfl := Option.some.inj hs
            exact left_lt_start (fun _ ↦ rfl) (by rw [hst, startLeft, startLeft]; omega)
        · cases hs
      · cases hs
  | thread i =>
      simp only [Pool.step, Pool.resume] at hs
      have hi : i < p.count := by
        by_contra hi
        rw [h.absent i (h.le.2.trans (Nat.not_lt.mp hi))] at hs
        simp [Thread.none, Thread.run] at hs
      split at hs
      · rename_i hstage
        split at hs
        · cases hs
        · obtain rfl := Option.some.inj hs
          refine left_lt_thread hi s.starter (le_refl _) ?_
          rw [hstage]
          rfl
      · obtain ⟨t, ht, rfl⟩ := Option.map_eq_some_iff.mp hs
        refine left_lt_thread hi s.starter (le_refl _) ?_
        rw [Thread.run] at ht
        cases hstage : (s.thread i).stage <;> rw [hstage] at ht <;> cases ht <;> rfl

/-- A run without calls of `start` is no longer than that. -/
theorem run_left (h : Run (Of p.step) s acts s') (hs : p.Ok s r c failed) (hcall : .call ∉ acts) :
    acts.length + p.left s' ≤ p.left s := by
  induction h generalizing r c failed with
  | nil => exact (Nat.zero_add _).le
  | @cons s s₁ s' a acts hstep _ ih =>
      obtain ⟨ha, hacts⟩ := List.ne_and_not_mem_of_not_mem_cons hcall
      obtain ⟨r₁, h₁⟩ := hs.step hstep
      have hlt := hs.left_lt (Ne.symm ha) hstep
      have hrest := ih h₁ hacts
      rw [List.length_cons]
      omega

theorem left_le (p : Pool) (s : State) : p.left s ≤ 11 * p.count + 4 := by
  have hsum : ∑ i ∈ Finset.range p.count, (8 - (s.thread i).stage.rank) ≤ 8 * p.count := by
    have hle := Finset.sum_le_card_nsmul (Finset.range p.count)
      (fun i ↦ 8 - (s.thread i).stage.rank) 8 fun i _ ↦ Nat.sub_le _ _
    rw [Finset.card_range, Nat.nsmul_eq_mul] at hle
    omega
  have hstart : p.startLeft s.starter ≤ 3 * p.count + 4 := by
    cases s.starter <;> simp only [startLeft] <;> omega
  unfold left
  omega

theorem run_isSome {t : Thread} {tid : Int} (hrank : 1 ≤ t.stage.rank) (hposted : ¬ 7 ≤ t.stage.rank) :
    (t.run tid).isSome = true := by
  rw [Thread.run]
  cases hstage : t.stage <;> simp_all [Stage.rank]

/-- While `start` is not over, it goes on itself or `pthread_create` does or the thread that it
waits for. -/
theorem Ok.progress (h : p.Ok s r c failed) (hleft : p.startLeft s.starter ≠ 0) :
    ∃ a, a ≠ .call ∧ (p.step s a).isSome = true := by
  have hst := h.starter
  have hmutex := h.mutex
  have hstart : (p.start s).isSome = true → ∃ a, a ≠ .call ∧ (p.step s a).isSome = true :=
    fun hsome ↦ ⟨.start, nofun, hsome⟩
  cases hs : s.starter with
  | outside | returned | threw =>
      rw [hs] at hleft
      exact absurd rfl hleft
  | locking =>
      rw [hs] at hmutex
      refine hstart ?_
      rw [Pool.start, hs]
      dsimp only
      rw [hmutex]
      rfl
  | testing =>
      refine hstart ?_
      rw [Pool.start, hs]
      dsimp only
      split
      · rfl
      · rename_i hrun
        rw [(h.stopped (Bool.not_eq_true _ ▸ hrun)).2.1]
        rfl
  | creating i =>
      by_cases hi : i < p.count
      · refine ⟨.create true, nofun, ?_⟩
        rw [Pool.step, Pool.create, hs]
        dsimp only
        rw [if_pos hi, if_pos rfl]
        rfl
      · refine hstart ?_
        rw [Pool.start, hs]
        dsimp only
        rw [if_neg hi]
        rfl
  | waiting i =>
      rw [hs] at hst
      obtain ⟨hrank, ht⟩ := h.present i (by omega)
      rw [hs, postsAt] at ht
      by_cases hposted : 7 ≤ (s.thread i).stage.rank
      · refine hstart ?_
        have hposts : (s.thread i).posts = 1 := by
          rw [ht, if_pos ⟨hposted, rfl⟩]
          rfl
        rw [Pool.start, hs]
        dsimp only
        rw [hposts]
        rfl
      · refine ⟨.thread i, nofun, ?_⟩
        have hne : (s.thread i).stage ≠ .notified := fun heq ↦ hposted (heq ▸ le_refl _)
        rw [Pool.step, Pool.resume, if_neg hne, Option.isSome_map]
        exact run_isSome hrank hposted
  | recording i | unlocking | unwinding =>
      refine hstart ?_
      rw [Pool.start, hs]
      rfl

theorem Ok.scans (h : p.Ok s r c failed) (hleft : p.startLeft s.starter = 0)
    (hstuck : p.step s (.thread i) = none) :
    (s.thread i).stage = .absent ∨ (s.thread i).stage = .scanned := by
  by_cases hi : i < c
  · have hposted : 7 ≤ (s.thread i).stage.rank := by
      by_contra hposted
      rw [h.waiting hi hposted, startLeft] at hleft
      cases hleft
    have hmutex : s.mutex = false := by
      rw [h.mutex]
      cases hs : s.starter <;> rw [hs] at hleft <;> first | rfl | simp [startLeft] at hleft
    rw [Pool.step, Pool.resume, hmutex] at hstuck
    cases hstage : (s.thread i).stage <;> simp_all [Stage.rank]
  · exact .inl (by rw [h.absent i (Nat.not_lt.mp hi)]; rfl)

/-- Whatever the order of the steps, a call of `start` ends after a bounded number of them, and the
threads get to the queue. -/
theorem start_ends (h : Run (Of p.step) p.initial acts s) :
    (∀ acts' s', Run (Of p.step) s acts' s' → .call ∉ acts' → acts'.length ≤ 11 * p.count + 4) ∧
      ((∀ a ≠ .call, p.step s a = none) →
        (s.starter = .outside ∨ s.starter = .returned ∨ s.starter = .threw) ∧
          ∀ i, (s.thread i).stage = .absent ∨ (s.thread i).stage = .scanned) := by
  obtain ⟨r, hok⟩ := run_ok h p.initial_ok
  constructor
  · intro acts' s' hrun hcall
    have hlength := run_left hrun hok hcall
    have hle := left_le p s
    omega
  · intro hstuck
    have hleft : p.startLeft s.starter = 0 := by
      by_contra hleft
      obtain ⟨a, ha, hsome⟩ := hok.progress hleft
      rw [hstuck a ha] at hsome
      cases hsome
    refine ⟨?_, fun i ↦ hok.scans hleft (hstuck _ nofun)⟩
    cases hs : s.starter <;> rw [hs] at hleft <;> simp_all [startLeft]

theorem start_ends_pair : ∃ s : State, s.starter = .waiting 1 ∧
    (∀ acts' s', Run (Of pair.step) s acts' s' → .call ∉ acts' → acts'.length ≤ 26) ∧
    ((∀ a ≠ .call, pair.step s a = none) →
      (s.starter = .outside ∨ s.starter = .returned ∨ s.starter = .threw) ∧
        ∀ i, (s.thread i).stage = .absent ∨ (s.thread i).stage = .scanned) := by
  obtain ⟨s, h, hP⟩ := exists_run pair.step (fun _ _ ↦ true) (fun _ _ _ hs _ ↦ hs) pair.initial
    ([.call, .start, .start] ++ makeNext 0 ++ [.create true])
    (P := fun s ↦ decide (s.starter = .waiting 1)) (by decide +kernel)
  exact ⟨s, of_decide_eq_true hP, start_ends h⟩

end Pool

end Server.Launch
