import ServerFramework.Scheduler.Tasks
import ServerFramework.Library.Runs
import ServerFramework.Library.Counter
import Mathlib.Logic.Function.Basic
import Mathlib.Algebra.Order.BigOperators.Group.Finset

/-!
# The notify pipe

Workers `W` execute `Scheduler::run` and `IOManager::idle`; they and the other threads `O` call
`schedule`.  One step is a section under `m_mutex`, one access to `m_idleThreadCount`, one `read` or
`write` of the pipe, or a passage into or out of `epoll_wait`, and steps are interleaved arbitrarily.

The tasks themselves, the states of their fibers and the result of `stopped()` are left open, and so
is which of the workers in `epoll_wait` return for an unread byte.
-/

namespace Server.IOManager.Notify

open Runs

/-- An entry of `m_fibers`. -/
structure Queued (T : Type) where
  ft : FiberAndThread
  /-- the thread whose call of `schedule` brought the entry and has not returned -/
  call : Option T
  deriving DecidableEq, Repr

/-- Where a worker is, named by the next access it makes. -/
inductive Stage where
  /-- before `run`: the thread starts, or `stop` has not called the root fiber -/
  | outside
  /-- the section under `m_mutex`; `woken`: `epoll_wait` returned after the last one -/
  | scan (woken : Bool)
  /-- `notify` for a task that was passed over: `hasIdleThreads`, with an entry taken or not -/
  | testIdle (taken : Bool)
  /-- the same: the write of the byte -/
  | write (taken : Bool)
  /-- with the entry it took, until the loop of `run` starts again -/
  | busy
  /-- nothing was taken: the test of `idleFiber`, and `++m_idleThreadCount` -/
  | empty
  /-- `idle`: before `epoll_wait` -/
  | entering
  | blocked
  /-- `idle`: the loop over the events, with that of the pipe ahead or not -/
  | handling (pipe : Bool)
  /-- `idle`: the loop that reads the pipe -/
  | draining
  /-- back in `run`: `--m_idleThreadCount` -/
  | leaving (woken : Bool)
  | exited
  deriving DecidableEq, Repr

/-- Where a thread is in `schedule`. -/
inductive Call where
  | none
  /-- `notify`: `hasIdleThreads` -/
  | testIdle
  /-- `notify`: the write of the byte -/
  | write
  deriving DecidableEq, Repr

structure Worker where
  thread : Int
  stage : Stage
  /-- `idleFiber` is in the state `TERM`. -/
  idleDone : Bool
  deriving DecidableEq, Repr

structure State (W O : Type) where
  fibers : List (Queued (W ⊕ O))
  idleThreadCount : Nat
  /-- the unread bytes of the pipe -/
  bytes : Nat
  /-- the fibers in the state `EXEC` -/
  exec : FiberId → Bool
  worker : W → Worker
  call : W ⊕ O → Call

inductive Action (W O : Type) where
  /-- `schedule`, up to the end of the section under `m_mutex` -/
  | schedule (t : W ⊕ O) (ft : FiberAndThread)
  /-- `stop` calls `notify` -/
  | notify (o : O)
  /-- the next step of a thread in `notify` -/
  | goOn (t : W ⊕ O)
  /-- the next step of `run` or `idle` -/
  | work (w : W)
  /-- a worker is through with its entry -/
  | finish (w : W)
  /-- `idle`: `stopped()` returns true -/
  | stopped (w : W)
  /-- `epoll_wait` returns, with an event of the pipe or not -/
  | wake (w : W) (pipe : Bool)
  /-- a fiber enters or leaves the state `EXEC` -/
  | setExec (f : FiberId) (executes : Bool)
  deriving DecidableEq, Repr

/-- What the loop of `run` under `m_mutex` makes of the queue: `notifyMe`, and the entry that it takes
with the rest. -/
def scanFibers {T : Type} (thread : Int) (exec : FiberId → Bool) :
    List (Queued T) → Bool × Option (Queued T × List (Queued T))
  | [] => (false, none)
  | q :: l =>
    if q.ft.thread != -1 && q.ft.thread != thread then
      (true, (scanFibers thread exec l).2.map fun (p, rest) ↦ (p, q :: rest))
    else if q.ft.fiber.any exec then
      ((scanFibers thread exec l).1,
        (scanFibers thread exec l).2.map fun (p, rest) ↦ (p, q :: rest))
    else (false, some (q, l))

/-- Where a worker goes on after a scan. -/
def Stage.afterScan (taken : Bool) : Stage := if taken then .busy else .empty

/-- The stages in which a worker's thread can call `schedule`: in the task, in `run` for a task that
yielded, and in `triggerEvent`. -/
def Stage.calls : Stage → Bool
  | .busy => true
  | .handling _ => true
  | _ => false

/-- The stages from a scan that found nothing to `epoll_wait`. -/
def Stage.rests : Stage → Bool
  | .testIdle false => true
  | .write false => true
  | .empty => true
  | .entering => true
  | .blocked => true
  | _ => false

/-- Those of them before `++m_idleThreadCount`. -/
def Stage.arrives : Stage → Bool
  | .testIdle false => true
  | .write false => true
  | .empty => true
  | _ => false

/-- `epoll_wait` returned, and the worker has not scanned since. -/
def Stage.woken : Stage → Bool
  | .scan woken => woken
  | .handling _ => true
  | .draining => true
  | .leaving woken => woken
  | _ => false

def Stage.scans : Stage → Bool
  | .scan _ => true
  | _ => false

/-- What a worker adds to `m_idleThreadCount`. -/
def Stage.counted : Stage → Nat
  | .entering => 1
  | .blocked => 1
  | .handling _ => 1
  | .draining => 1
  | .leaving _ => 1
  | _ => 0

/-- An unpinned task whose call of `schedule` has returned. -/
def Queued.Waits {T : Type} (q : Queued T) : Prop := q.ft.thread = -1 ∧ q.call = none

namespace State

variable {W O : Type} [DecidableEq W] [DecidableEq O]

def setStage (s : State W O) (w : W) (stage : Stage) : State W O :=
  { s with worker := Function.update s.worker w { s.worker w with stage := stage } }

def setCall (s : State W O) (t : W ⊕ O) (c : Call) : State W O :=
  { s with call := Function.update s.call t c }

def setFibers (s : State W O) (fibers : List (Queued (W ⊕ O))) : State W O :=
  { s with fibers := fibers }

/-- Whether a thread can call `schedule`. -/
def mayCall (s : State W O) (t : W ⊕ O) : Bool :=
  s.call t == .none &&
    match t with
    | .inl w => (s.worker w).stage.calls
    | .inr _ => true

/-- The section of `schedule` under `m_mutex`; without a need to notify the call returns. -/
def schedule (s : State W O) (t : W ⊕ O) (ft : FiberAndThread) : State W O :=
  let needNotify := (scheduleNoLock (s.fibers.map Queued.ft) ft).1
  let call := if needNotify then some t else none
  (s.setFibers (if ft.nonempty then s.fibers ++ [⟨ft, call⟩] else s.fibers)).setCall t
    (if needNotify then .testIdle else .none)

/-- The call of a thread returns. -/
def returns (s : State W O) (t : W ⊕ O) : State W O :=
  (s.setFibers (s.fibers.map fun q ↦ if q.call = some t then { q with call := none } else q)).setCall
    t .none

def goOn (s : State W O) (t : W ⊕ O) : Option (State W O) :=
  match s.call t with
  | .none => none
  | .testIdle => some (if 0 < s.idleThreadCount then s.setCall t .write else s.returns t)
  | .write => some ({ s with bytes := s.bytes + 1 }.returns t)

/-- The section of `run` under `m_mutex`. -/
def scan (s : State W O) (w : W) : State W O :=
  match scanFibers (s.worker w).thread s.exec s.fibers with
  | (notifyMe, some (_, rest)) =>
    (s.setFibers rest).setStage w (if notifyMe then .testIdle true else .busy)
  | (notifyMe, none) => s.setStage w (if notifyMe then .testIdle false else .empty)

def work (s : State W O) (w : W) : Option (State W O) :=
  match (s.worker w).stage with
  | .outside => some (s.setStage w (.scan false))
  | .scan _ => some (s.scan w)
  | .testIdle taken =>
    some (s.setStage w (if 0 < s.idleThreadCount then .write taken else .afterScan taken))
  | .write taken => some ({ s with bytes := s.bytes + 1 }.setStage w (.afterScan taken))
  | .busy => none
  | .empty =>
    if (s.worker w).idleDone then some (s.setStage w .exited)
    else some ({ s with idleThreadCount := s.idleThreadCount + 1 }.setStage w .entering)
  | .entering => some (s.setStage w .blocked)
  | .blocked => none
  | .handling pipe =>
    if s.call (.inl w) = .none then some (s.setStage w (if pipe then .draining else .leaving true))
    else none
  -- the other events may come before or after that of the pipe
  | .draining =>
    if 0 < s.bytes then some { s with bytes := s.bytes - 1 } else some (s.setStage w (.handling false))
  | .leaving woken =>
    some ({ s with idleThreadCount := s.idleThreadCount - 1 }.setStage w (.scan woken))
  | .exited => none

def step (s : State W O) : Action W O → Option (State W O)
  | .schedule t ft => if s.mayCall t then some (s.schedule t ft) else none
  | .notify o => if s.call (.inr o) = .none then some (s.setCall (.inr o) .testIdle) else none
  | .goOn t => s.goOn t
  | .work w => s.work w
  | .finish w =>
    if (s.worker w).stage = .busy ∧ s.call (.inl w) = .none then some (s.setStage w (.scan false))
    else none
  | .stopped w =>
    if (s.worker w).stage = .entering then
      some { s with worker := Function.update s.worker w
                      { s.worker w with stage := .leaving false, idleDone := true } }
    else none
  | .wake w pipe =>
    if (s.worker w).stage = .blocked ∧ (pipe = true → 0 < s.bytes) then
      some (s.setStage w (.handling pipe))
    else none
  | .setExec f executes => some { s with exec := Function.update s.exec f executes }

/-- After the constructor. -/
def start (thread : W → Int) : State W O where
  fibers := []
  idleThreadCount := 0
  bytes := 0
  exec := fun _ ↦ false
  worker := fun w ↦ ⟨thread w, .outside, false⟩
  call := fun _ ↦ .none

/-! ## What is left to a worker that rests -/

/-- What `run` does not pass over. -/
def takeable (s : State W O) (w : W) (q : Queued (W ⊕ O)) : Bool :=
  !(q.ft.thread != -1 && q.ft.thread != (s.worker w).thread) && !q.ft.fiber.any s.exec

/-- An unread byte, or a worker that `epoll_wait` returned to and that has not scanned since. -/
def Told (s : State W O) : Prop := 0 < s.bytes ∨ ∃ w, (s.worker w).stage.woken = true

/-- The same without the worker `w`. -/
def ToldBut (s : State W O) (w : W) : Prop :=
  0 < s.bytes ∨ ∃ w', w' ≠ w ∧ (s.worker w').stage.woken = true

/-- A step comes in time: it does not leave an unpinned task of a call that has returned to workers of
which none has been told. -/
def Timely (s : State W O) : Action W O → Prop
  | .schedule _ ft =>
    s.fibers ≠ [] → ft.nonempty = true → ft.thread = -1 →
      (∃ w, (s.worker w).stage.rests = true) → s.Told
  | .goOn t =>
    s.call t = .testIdle → s.idleThreadCount = 0 →
      (∃ q ∈ s.fibers, q.ft.thread = -1 ∧ q.call = some t) →
      (∃ w, (s.worker w).stage.arrives = true) → s.Told
  | .work w =>
    (s.worker w).stage.scans = true → (∃ q ∈ s.fibers.eraseP (s.takeable w), q.Waits) →
      ((∃ w', w' ≠ w ∧ (s.worker w').stage.rests = true) ∨ ∀ q ∈ s.fibers, s.takeable w q = false) →
      s.ToldBut w
  | _ => True

end State

namespace State

variable {W O : Type} [DecidableEq W]

/-! ## The scan of the queue -/

omit [DecidableEq W] in
theorem scanFibers_snd (s : State W O) (w : W) (l : List (Queued (W ⊕ O))) :
    (scanFibers (s.worker w).thread s.exec l).2 =
      (l.find? (s.takeable w)).map fun q ↦ (q, l.eraseP (s.takeable w)) := by
  induction l with
  | nil => rfl
  | cons q l ih =>
      have hcons : ∀ r : Option (Queued (W ⊕ O)), (r.map fun p ↦ (p, l.eraseP (s.takeable w))).map
          (fun x ↦ (x.1, q :: x.2)) = r.map fun p ↦ (p, q :: l.eraseP (s.takeable w)) := by
        intro r
        cases r <;> rfl
      unfold scanFibers
      split
      · rename_i hpin
        have htake : s.takeable w q = false := by
          unfold takeable
          rw [hpin]
          rfl
        rw [List.find?_cons, List.eraseP_cons, htake]
        show Option.map _ (scanFibers (s.worker w).thread s.exec l).2 = _
        rw [ih]
        exact hcons _
      · rename_i hpin
        split
        · rename_i hexec
          have htake : s.takeable w q = false := by
            unfold takeable
            rw [hexec, Bool.not_true, Bool.and_false]
          rw [List.find?_cons, List.eraseP_cons, htake]
          show Option.map _ (scanFibers (s.worker w).thread s.exec l).2 = _
          rw [ih]
          exact hcons _
        · rename_i hexec
          have htake : s.takeable w q = true := by
            unfold takeable
            rw [Bool.eq_false_iff.mpr hpin, Bool.eq_false_iff.mpr hexec]
            rfl
          rw [List.find?_cons, List.eraseP_cons, htake]
          rfl

/-- After a scan the queue lacks the first entry that the worker can take; one that cannot take any
comes to rest. -/
theorem scan_spec (s : State W O) (w : W) :
    ∃ stage, s.scan w = (s.setFibers (s.fibers.eraseP (s.takeable w))).setStage w stage ∧
      stage.counted = 0 ∧
      (stage.rests = true → ∀ q ∈ s.fibers, s.takeable w q = false) := by
  have hsnd := scanFibers_snd s w s.fibers
  unfold scan
  cases hfind : s.fibers.find? (s.takeable w) with
  | some q =>
      rw [hfind] at hsnd
      split
      · rename_i notifyMe q' rest heq
        rw [heq] at hsnd
        cases hsnd
        refine ⟨_, rfl, ?_, ?_⟩
        · cases notifyMe <;> rfl
        · cases notifyMe <;> nofun
      · rename_i notifyMe heq
        rw [heq] at hsnd
        cases hsnd
  | none =>
      rw [hfind] at hsnd
      have hnone : ∀ q ∈ s.fibers, s.takeable w q = false := fun q hq ↦
        Bool.eq_false_iff.mpr (List.find?_eq_none.mp hfind q hq)
      split
      · rename_i notifyMe q' rest heq
        rw [heq] at hsnd
        cases hsnd
      · rename_i notifyMe heq
        have herase : s.fibers.eraseP (s.takeable w) = s.fibers :=
          List.eraseP_of_forall_not fun q hq ↦ Bool.eq_false_iff.mp (hnone q hq)
        rw [herase]
        refine ⟨_, rfl, ?_, fun _ ↦ hnone⟩
        cases notifyMe <;> rfl

/-! ## The invariant -/

variable {s s' : State W O} {w : W} {t : W ⊕ O}

/-- Nobody rests beside a task that waits unless somebody has been told. -/
structure Attended [Fintype W] (s : State W O) : Prop where
  count : s.idleThreadCount = ∑ w, (s.worker w).stage.counted
  told : (∃ q ∈ s.fibers, q.Waits) → (∃ w, (s.worker w).stage.rests = true) → s.Told

theorem stage_update (wk : Worker) (x : W) :
    (Function.update s.worker w wk x).stage =
      Function.update (fun x ↦ (s.worker x).stage) w wk.stage x := by
  by_cases hx : x = w
  · rw [hx, Function.update_self, Function.update_self]
  · rw [Function.update_of_ne hx, Function.update_of_ne hx]

theorem stage_setStage (stage : Stage) (x : W) :
    ((s.setStage w stage).worker x).stage =
      Function.update (fun x ↦ (s.worker x).stage) w stage x := stage_update _ x

variable [Fintype W]

/-- A step that only moves one worker: it does not start to rest, stays told, and balances the
counter. -/
theorem Attended.moved (h : s.Attended) {stage : Stage}
    (hstage : ∀ x, (s'.worker x).stage = Function.update (fun x ↦ (s.worker x).stage) w stage x)
    (hfibers : s'.fibers = s.fibers) (hbytes : s.bytes ≤ s'.bytes)
    (hcount : s'.idleThreadCount + (s.worker w).stage.counted = s.idleThreadCount + stage.counted)
    (hrests : stage.rests = true → (s.worker w).stage.rests = true)
    (hwoken : (s.worker w).stage.woken = true → stage.woken = true) : s'.Attended := by
  have hself : (s'.worker w).stage = stage := by rw [hstage, Function.update_self]
  have hother : ∀ x, x ≠ w → (s'.worker x).stage = (s.worker x).stage := fun x hx ↦ by
    rw [hstage, Function.update_of_ne hx]
  constructor
  · have hsum := Counter.sum_update Stage.counted (fun x ↦ (s.worker x).stage) w stage
    rw [← h.count] at hsum
    simp only [hstage]
    omega
  · intro hwaits ⟨x, hx⟩
    rw [hfibers] at hwaits
    have hrest : ∃ x, (s.worker x).stage.rests = true := by
      by_cases hxw : x = w
      · rw [hxw, hself] at hx
        exact ⟨w, hrests hx⟩
      · rw [hother x hxw] at hx
        exact ⟨x, hx⟩
    -- whoever was told is told still, this worker too
    rcases h.told hwaits hrest with hb | ⟨y, hy⟩
    · left
      omega
    · right
      by_cases hyw : y = w
      · rw [hyw] at hy
        exact ⟨w, by rw [hself]; exact hwoken hy⟩
      · exact ⟨y, by rw [hother y hyw]; exact hy⟩

theorem Attended.setStage (h : s.Attended) {stage : Stage}
    (hcount : (s.worker w).stage.counted = stage.counted)
    (hrests : stage.rests = true → (s.worker w).stage.rests = true)
    (hwoken : (s.worker w).stage.woken = true → stage.woken = true) : (s.setStage w stage).Attended :=
  h.moved (stage_setStage stage) rfl (Nat.le_refl _) (by rw [hcount]; rfl) hrests hwoken

omit [DecidableEq W] in
/-- A worker in one of the stages of an idle thread is counted. -/
theorem Attended.counted_le (h : s.Attended) (w : W) :
    (s.worker w).stage.counted ≤ s.idleThreadCount := by
  rw [h.count]
  exact Finset.single_le_sum (f := fun w ↦ (s.worker w).stage.counted) (fun _ _ ↦ Nat.zero_le _)
    (Finset.mem_univ w)

omit [DecidableEq W] in
/-- While the counter is zero, the workers that rest have not reached it. -/
theorem Attended.arrives (h : s.Attended) (hidle : s.idleThreadCount = 0)
    (hw : (s.worker w).stage.rests = true) : (s.worker w).stage.arrives = true := by
  have hle := h.counted_le w
  rw [hidle] at hle
  cases hstage : (s.worker w).stage with
  | testIdle taken =>
      rw [hstage] at hw
      cases taken with
      | false => rfl
      | true => cases hw
  | write taken =>
      rw [hstage] at hw
      cases taken with
      | false => rfl
      | true => cases hw
  | empty => rfl
  | entering =>
      rw [hstage] at hle
      exact absurd hle (by decide)
  | blocked =>
      rw [hstage] at hle
      exact absurd hle (by decide)
  | _ =>
      rw [hstage] at hw
      cases hw

theorem Attended.scan (h : s.Attended) (hscan : (s.worker w).stage.scans = true)
    (htimely : s.Timely (.work w)) : (s.scan w).Attended := by
  obtain ⟨stage, heq, hcounted, hrests⟩ := s.scan_spec w
  have hcount : (s.worker w).stage.counted = 0 ∧ (s.worker w).stage.rests = false := by
    cases hstage : (s.worker w).stage with
    | scan => exact ⟨rfl, rfl⟩
    | _ =>
        rw [hstage] at hscan
        cases hscan
  rw [heq]
  constructor
  · have hsum := Counter.sum_update Stage.counted (fun x ↦ (s.worker x).stage) w stage
    rw [← h.count, hcount.1, hcounted] at hsum
    simp only [stage_setStage]
    exact hsum.symm
  · intro hwaits ⟨x, hx⟩
    -- who rests after the scan rested before, or is this worker, which found nothing
    have hcase : (∃ w', w' ≠ w ∧ (s.worker w').stage.rests = true) ∨
        ∀ q ∈ s.fibers, s.takeable w q = false := by
      by_cases hxw : x = w
      · rw [hxw, stage_setStage, Function.update_self] at hx
        exact .inr (hrests hx)
      · rw [stage_setStage, Function.update_of_ne hxw] at hx
        exact .inl ⟨x, hxw, hx⟩
    rcases htimely hscan hwaits hcase with hb | ⟨y, hyw, hy⟩
    · exact .inl hb
    · exact .inr ⟨y, by rw [stage_setStage, Function.update_of_ne hyw]; exact hy⟩

omit [DecidableEq W] in
theorem Attended.addByte (h : s.Attended) : { s with bytes := s.bytes + 1 : State W O }.Attended :=
  ⟨h.count, fun _ _ ↦ .inl (Nat.succ_pos _)⟩

variable [DecidableEq O]

inductive Stepped (s : State W O) : Action W O → State W O → Prop where
  | scheduled {t : W ⊕ O} {ft : FiberAndThread} :
      s.call t = .none → Stepped s (.schedule t ft) (s.schedule t ft)
  | notified {o : O} : Stepped s (.notify o) (s.setCall (.inr o) .testIdle)
  | foundIdle {t : W ⊕ O} : s.call t = .testIdle → Stepped s (.goOn t) (s.setCall t .write)
  | foundNoIdle {t : W ⊕ O} :
      s.call t = .testIdle → s.idleThreadCount = 0 → Stepped s (.goOn t) (s.returns t)
  | wrote {t : W ⊕ O} :
      s.call t = .write → Stepped s (.goOn t) ({ s with bytes := s.bytes + 1 }.returns t)
  | worked {w : W} {s' : State W O} : s.work w = some s' → Stepped s (.work w) s'
  | finished {w : W} :
      (s.worker w).stage = .busy → Stepped s (.finish w) (s.setStage w (.scan false))
  | stopped {w : W} :
      (s.worker w).stage = .entering →
      Stepped s (.stopped w)
        { s with worker := Function.update s.worker w
                  { s.worker w with stage := .leaving false, idleDone := true } }
  | woke {w : W} {pipe : Bool} :
      (s.worker w).stage = .blocked → Stepped s (.wake w pipe) (s.setStage w (.handling pipe))
  | execSet {f : FiberId} {executes : Bool} :
      Stepped s (.setExec f executes) { s with exec := Function.update s.exec f executes }

omit [Fintype W] in
theorem step_cases {a : Action W O} (hs : s.step a = some s') : Stepped s a s' := by
  cases a with
  | schedule t ft =>
      simp only [step] at hs
      split at hs
      · rename_i hmay
        cases hs
        exact .scheduled (beq_iff_eq.mp (Bool.and_eq_true_iff.mp hmay).1)
      · cases hs
  | notify o =>
      simp only [step] at hs
      split at hs
      · cases hs
        exact .notified
      · cases hs
  | goOn t =>
      simp only [step, goOn] at hs
      split at hs
      · cases hs
      · rename_i hcall
        cases hs
        split
        · exact .foundIdle hcall
        · rename_i hidle
          exact .foundNoIdle hcall (by omega)
      · rename_i hcall
        cases hs
        exact .wrote hcall
  | work w => exact .worked hs
  | finish w =>
      simp only [step] at hs
      split at hs
      · rename_i hbusy
        cases hs
        exact .finished hbusy.1
      · cases hs
  | stopped w =>
      simp only [step] at hs
      split at hs
      · rename_i hentering
        cases hs
        exact .stopped hentering
      · cases hs
  | wake w pipe =>
      simp only [step] at hs
      split at hs
      · rename_i hblocked
        cases hs
        exact .woke hblocked.1
      · cases hs
  | setExec f executes =>
      cases hs
      exact .execSet

/-- The entries of a call that returns count from now on. -/
theorem Attended.returns (h : s.Attended)
    (hnew : (∃ q ∈ s.fibers, q.ft.thread = -1 ∧ q.call = some t) →
      (∃ w, (s.worker w).stage.rests = true) → s.Told) : (s.returns t).Attended := by
  refine ⟨h.count, fun ⟨q', hq', hwaits⟩ hrests ↦ ?_⟩
  obtain ⟨q, hq, rfl⟩ := List.mem_map.mp hq'
  split at hwaits
  · rename_i hcall
    exact hnew ⟨q, hq, hwaits.1, hcall⟩ hrests
  · exact h.told ⟨q, hq, hwaits⟩ hrests

theorem Attended.schedule (h : s.Attended) {ft : FiberAndThread}
    (htimely : s.Timely (.schedule t ft)) : (s.schedule t ft).Attended := by
  refine ⟨h.count, fun ⟨q, hq, hwaits⟩ hrests ↦ ?_⟩
  show s.Told
  change q ∈ (if ft.nonempty then s.fibers ++ [_] else s.fibers) at hq
  have hold : q ∈ s.fibers → s.Told := fun hmem ↦ h.told ⟨q, hmem, hwaits⟩ hrests
  split at hq
  · rename_i hft
    rcases List.mem_append.mp hq with hmem | hmem
    · exact hold hmem
    · -- the entry waits at once only where the queue was not empty
      rw [List.mem_singleton.mp hmem] at hwaits
      have hne : s.fibers ≠ [] := by
        intro hnil
        have hcall := hwaits.2
        rw [hnil] at hcall
        cases hcall
      exact htimely hne hft hwaits.1 hrests
  · exact hold hq

theorem afterScan_rests {taken : Bool} :
    (Stage.afterScan taken).rests = !taken ∧ (Stage.afterScan taken).counted = 0 := by
  cases taken <;> exact ⟨rfl, rfl⟩

omit [DecidableEq O] in
theorem Attended.work (h : s.Attended) (htimely : s.Timely (.work w)) (hs : s.work w = some s') :
    s'.Attended := by
  unfold State.work at hs
  have hcount := h.count
  cases hstage : (s.worker w).stage with
  | outside =>
      rw [hstage] at hs
      cases hs
      exact h.setStage (by rw [hstage]; rfl) nofun (by rw [hstage]; nofun)
  | scan woken =>
      rw [hstage] at hs
      cases hs
      exact h.scan (by rw [hstage]; rfl) htimely
  | testIdle taken =>
      rw [hstage] at hs
      cases hs
      split
      · exact h.setStage (by rw [hstage]; rfl) (by rw [hstage]; cases taken <;> exact id)
          (by rw [hstage]; nofun)
      · exact h.setStage (by rw [hstage, afterScan_rests.2]; rfl)
          (by rw [hstage]; cases taken <;> exact id) (by rw [hstage]; nofun)
  | write taken =>
      rw [hstage] at hs
      cases hs
      refine h.addByte.setStage ?_ ?_ ?_
      · show (s.worker w).stage.counted = _
        rw [hstage, afterScan_rests.2]
        rfl
      · show _ → (s.worker w).stage.rests = true
        rw [hstage]
        cases taken <;> exact id
      · show (s.worker w).stage.woken = true → _
        rw [hstage]
        nofun
  | busy =>
      rw [hstage] at hs
      cases hs
  | empty =>
      rw [hstage] at hs
      dsimp only at hs
      split at hs
      · cases hs
        exact h.setStage (by rw [hstage]; rfl) nofun (by rw [hstage]; nofun)
      · cases hs
        exact h.moved (stage_setStage (s := { s with idleThreadCount := s.idleThreadCount + 1 })
          .entering) rfl (Nat.le_refl _) (by rw [hstage]; rfl) (by rw [hstage]; exact id)
          (by rw [hstage]; nofun)
  | entering =>
      rw [hstage] at hs
      cases hs
      exact h.setStage (by rw [hstage]; rfl) (by rw [hstage]; exact id) (by rw [hstage]; nofun)
  | blocked =>
      rw [hstage] at hs
      cases hs
  | handling pipe =>
      rw [hstage] at hs
      dsimp only at hs
      split at hs
      · cases hs
        cases pipe with
        | true => exact h.setStage (by rw [hstage]; rfl) nofun (fun _ ↦ rfl)
        | false => exact h.setStage (by rw [hstage]; rfl) nofun (fun _ ↦ rfl)
      · cases hs
  | draining =>
      rw [hstage] at hs
      dsimp only at hs
      split at hs
      · cases hs
        -- the worker that reads has been told
        exact ⟨h.count, fun _ _ ↦ .inr ⟨w, by
          show (s.worker w).stage.woken = true
          rw [hstage]
          rfl⟩⟩
      · cases hs
        exact h.setStage (by rw [hstage]; rfl) nofun (fun _ ↦ rfl)
  | leaving woken =>
      rw [hstage] at hs
      cases hs
      have hpos := h.counted_le w
      rw [hstage] at hpos
      refine h.moved (stage_setStage (s := { s with idleThreadCount := s.idleThreadCount - 1 })
        (.scan woken)) rfl (Nat.le_refl _) ?_ nofun (by rw [hstage]; exact id)
      rw [hstage]
      exact Nat.sub_add_cancel hpos
  | exited =>
      rw [hstage] at hs
      cases hs

theorem Attended.step (h : s.Attended) {a : Action W O} (htimely : s.Timely a)
    (hs : s.step a = some s') : s'.Attended := by
  cases step_cases hs with
  | scheduled => exact h.schedule htimely
  | foundNoIdle hcall hzero =>
      refine h.returns fun hentry ⟨w, hw⟩ ↦ ?_
      exact htimely hcall hzero hentry ⟨w, h.arrives hzero hw⟩
  | wrote => exact h.addByte.returns fun _ _ ↦ .inl (Nat.succ_pos _)
  | worked hw => exact h.work htimely hw
  | finished hbusy => exact h.setStage (by rw [hbusy]; rfl) nofun (by rw [hbusy]; nofun)
  | stopped hentering =>
      exact h.moved (stage_update _) rfl (Nat.le_refl _) (by rw [hentering]; rfl) nofun
        (by rw [hentering]; nofun)
  | woke hblocked => exact h.setStage (by rw [hblocked]; rfl) nofun (fun _ ↦ rfl)
  | _ => exact ⟨h.count, h.told⟩

omit [Fintype W] [DecidableEq O] in
/-- Only the scan takes entries out of the queue. -/
theorem work_frame (hs : s.work w = some s') :
    s'.call = s.call ∧ ∀ q ∈ s'.fibers, q ∈ s.fibers := by
  have hsame : ∀ {x : State W O}, some x = some s' → x.call = s.call → x.fibers = s.fibers →
      s'.call = s.call ∧ ∀ q ∈ s'.fibers, q ∈ s.fibers := by
    intro x hx hcall hfibers
    cases hx
    exact ⟨hcall, fun q hq ↦ hfibers ▸ hq⟩
  unfold State.work at hs
  split at hs
  · exact hsame hs rfl rfl
  · cases hs
    obtain ⟨stage, heq, -, -⟩ := s.scan_spec w
    rw [heq]
    exact ⟨rfl, fun q hq ↦ List.mem_of_mem_eraseP hq⟩
  · exact hsame hs rfl rfl
  · exact hsame hs rfl rfl
  · cases hs
  · split at hs
    · exact hsame hs rfl rfl
    · exact hsame hs rfl rfl
  · exact hsame hs rfl rfl
  · cases hs
  · split at hs
    · exact hsame hs rfl rfl
    · cases hs
  · split at hs
    · exact hsame hs rfl rfl
    · exact hsame hs rfl rfl
  · exact hsame hs rfl rfl
  · cases hs

/-- A call that entries are marked with has not returned. -/
def CallsUnderWay (s : State W O) : Prop := ∀ q ∈ s.fibers, ∀ t, q.call = some t → s.call t ≠ .none

omit [Fintype W] in
theorem CallsUnderWay.step (h : s.CallsUnderWay) {a : Action W O} (hs : s.step a = some s') :
    s'.CallsUnderWay := by
  have hreturns : ∀ {s : State W O} {t}, s.CallsUnderWay → (s.returns t).CallsUnderWay := by
    intro s t h q' hq' t' ht'
    obtain ⟨q, hq, rfl⟩ := List.mem_map.mp hq'
    split at ht'
    · cases ht'
    · rename_i hne
      have hother : t' ≠ t := fun heq ↦ hne (heq ▸ ht')
      show Function.update s.call t .none t' ≠ .none
      rw [Function.update_of_ne hother]
      exact h q hq t' ht'
  have hsetCall : ∀ {t c}, c ≠ .none → (s.setCall t c).CallsUnderWay := by
    intro t c hc q hq t' ht'
    show Function.update s.call t c t' ≠ .none
    by_cases heq : t' = t
    · rw [heq, Function.update_self]
      exact hc
    · rw [Function.update_of_ne heq]
      exact h q hq t' ht'
  cases step_cases hs with
  | @scheduled t ft hfree =>
      intro q hq t' ht'
      have hold : q ∈ s.fibers → ((s.schedule t ft).call t' ≠ .none) := by
        intro hmem
        have hcall := h q hmem t' ht'
        have hother : t' ≠ t := fun heq ↦ hcall (heq ▸ hfree)
        show Function.update s.call t _ t' ≠ .none
        rw [Function.update_of_ne hother]
        exact hcall
      change q ∈ (if ft.nonempty then s.fibers ++ [_] else s.fibers) at hq
      split at hq
      · rcases List.mem_append.mp hq with hmem | hmem
        · exact hold hmem
        · -- the new entry is marked with the call that goes on
          rw [List.mem_singleton.mp hmem] at ht'
          dsimp only at ht'
          split at ht'
          · rename_i hneed
            cases ht'
            show Function.update s.call t _ t ≠ .none
            rw [Function.update_self, if_pos hneed]
            nofun
          · cases ht'
      · exact hold hq
  | notified => exact hsetCall nofun
  | foundIdle => exact hsetCall nofun
  | foundNoIdle => exact hreturns h
  | wrote => exact hreturns (s := { s with bytes := s.bytes + 1 }) h
  | worked hw =>
      obtain ⟨hcall, hfibers⟩ := work_frame hw
      intro q hq t ht
      rw [hcall]
      exact h q (hfibers q hq) t ht
  | _ => exact h

omit [Fintype W] in
theorem calls_under_way {thread : W → Int} {as : List (Action W O)}
    (h : Run (Of step) (start thread) as s) : s.CallsUnderWay :=
  h.invariant (fun _ _ _ hI hs ↦ hI.step hs) fun _ hq ↦ absurd hq List.not_mem_nil

omit [DecidableEq W] [DecidableEq O] in
theorem start_attended (thread : W → Int) : (start thread : State W O).Attended :=
  ⟨Finset.sum_const_zero.symm, fun ⟨_, hq, _⟩ ↦ absurd hq List.not_mem_nil⟩

/-- In a run whose steps come in time, no worker sleeps beside an unpinned task without an unread byte
and without another worker that has been woken. -/
theorem wakeup_kept {thread : W → Int} {as : List (Action W O)}
    (h : Run (Guarded (Of step) Timely) (start thread) as s)
    (hwaits : ∃ q ∈ s.fibers, q.ft.thread = -1 ∧ q.call = none)
    (hblocked : ∃ w, (s.worker w).stage = .blocked) :
    0 < s.bytes ∨ ∃ w, (s.worker w).stage.woken = true := by
  have hattended : s.Attended :=
    h.invariant (fun _ _ _ hI hs ↦ hI.step hs.2 hs.1) (start_attended thread)
  obtain ⟨w, hw⟩ := hblocked
  exact hattended.told hwaits ⟨w, by rw [hw]; rfl⟩

/-! ## Runs on fixed inputs -/

instance {T : Type} (q : Queued T) : Decidable q.Waits :=
  inferInstanceAs (Decidable (_ ∧ q.call = none))

instance : Decidable s.Told := inferInstanceAs (Decidable (_ ∨ ∃ _, _))

instance : Decidable (s.ToldBut w) := inferInstanceAs (Decidable (_ ∨ ∃ _, _))

instance (a : Action W O) : Decidable (s.Timely a) :=
  match a with
  | .schedule .. => inferInstanceAs (Decidable (_ → _ → _ → _ → _))
  | .goOn _ => inferInstanceAs (Decidable (_ → _ → _ → _ → _))
  | .work _ => inferInstanceAs (Decidable (_ → _ → _ → _))
  | .notify _ | .finish _ | .stopped _ | .wake .. | .setExec .. => inferInstanceAs (Decidable True)

/-- Two workers, and one thread that schedules. -/
abbrev Two := State Bool Unit

def two : Two := start fun w ↦ if w then 2 else 1

/-- Both workers go to sleep, and one task comes. -/
theorem wakeup_kept_two : ∃ s : Two,
    Run (Guarded (Of step) Timely) two
      [.work false, .work false, .work false, .work false, .work true, .work true, .work true,
        .work true, .schedule (.inr ()) ⟨none, some 0, -1⟩, .goOn (.inr ()), .goOn (.inr ())] s ∧
      (∃ q ∈ s.fibers, q.ft.thread = -1 ∧ q.call = none) ∧
      (∃ w, (s.worker w).stage = .blocked) ∧
      (0 < s.bytes ∨ ∃ w, (s.worker w).stage.woken = true) := by
  obtain ⟨s, h, hP⟩ := exists_run (R := Guarded (Of step) Timely) step
    (fun s a ↦ decide (s.Timely a)) (fun _ _ _ hs hok ↦ ⟨hs, of_decide_eq_true hok⟩) two
    [.work false, .work false, .work false, .work false, .work true, .work true, .work true,
      .work true, .schedule (.inr ()) ⟨none, some 0, -1⟩, .goOn (.inr ()), .goOn (.inr ())]
    (P := fun s ↦ decide ((∃ q ∈ s.fibers, q.ft.thread = -1 ∧ q.call = none) ∧
      ∃ w, (s.worker w).stage = .blocked)) (by decide +kernel)
  obtain ⟨hwaits, hblocked⟩ := of_decide_eq_true hP
  exact ⟨s, h, hwaits, hblocked, wakeup_kept h hwaits hblocked⟩

/-- A call of `schedule` finds no idle thread while a worker is between its scan and
`++m_idleThreadCount`; and of two tasks that come to an empty queue the second is not announced. -/
theorem wakeup_lost :
    (∃ s : Two,
      Run (Of step) two
        [.work false, .work false, .schedule (.inr ()) ⟨none, some 0, -1⟩, .goOn (.inr ()),
          .work false, .work false] s ∧
        (∃ q ∈ s.fibers, q.ft.thread = -1 ∧ q.call = none) ∧ (s.worker false).stage = .blocked ∧
        ¬ (0 < s.bytes ∨ ∃ w, (s.worker w).stage.woken = true)) ∧
    ∃ s : Two,
      Run (Of step) two
        [.work false, .work false, .work false, .work false, .work true, .work true, .work true,
          .work true, .schedule (.inr ()) ⟨none, some 0, -1⟩, .goOn (.inr ()), .goOn (.inr ()),
          .schedule (.inr ()) ⟨none, some 1, -1⟩, .wake false true, .work false, .work false,
          .work false, .work false, .work false, .work false] s ∧
        (∃ q ∈ s.fibers, q.ft.thread = -1 ∧ q.call = none) ∧ (s.worker true).stage = .blocked ∧
        ¬ (0 < s.bytes ∨ ∃ w, (s.worker w).stage.woken = true) := by
  constructor
  · obtain ⟨s, h, hP⟩ := exists_run (R := Of step) step (fun _ _ ↦ true) (fun _ _ _ hs _ ↦ hs) two
      [.work false, .work false, .schedule (.inr ()) ⟨none, some 0, -1⟩, .goOn (.inr ()),
        .work false, .work false]
      (P := fun s ↦ decide ((∃ q ∈ s.fibers, q.ft.thread = -1 ∧ q.call = none) ∧
        (s.worker false).stage = .blocked ∧
        ¬ (0 < s.bytes ∨ ∃ w, (s.worker w).stage.woken = true))) (by decide +kernel)
    exact ⟨s, h, of_decide_eq_true hP⟩
  · obtain ⟨s, h, hP⟩ := exists_run (R := Of step) step (fun _ _ ↦ true) (fun _ _ _ hs _ ↦ hs) two
      [.work false, .work false, .work false, .work false, .work true, .work true, .work true,
        .work true, .schedule (.inr ()) ⟨none, some 0, -1⟩, .goOn (.inr ()), .goOn (.inr ()),
        .schedule (.inr ()) ⟨none, some 1, -1⟩, .wake false true, .work false, .work false,
        .work false, .work false, .work false, .work false]
      (P := fun s ↦ decide ((∃ q ∈ s.fibers, q.ft.thread = -1 ∧ q.call = none) ∧
        (s.worker true).stage = .blocked ∧
        ¬ (0 < s.bytes ∨ ∃ w, (s.worker w).stage.woken = true))) (by decide +kernel)
    exact ⟨s, h, of_decide_eq_true hP⟩

end State

end Server.IOManager.Notify
