import ServerFramework.Scheduler.Drain
import ServerFramework.Scheduler.Stopped

/-!
# Stopping a scheduler

`stop()` beside the workers of a started `Scheduler`, which may be one with a caller thread: the root
worker runs inside `stop()`.  The threads that evaluate `stopped()` are the observers of the machine:
the idle fiber of each worker, and the caller of `stop()`.

A worker scans once more after its idle fiber has ended, so whoever puts a task into the queue last
is still to scan it.
-/

namespace Server

open Runs

/-- Where the caller of `stop` is. -/
inductive StopPc where
  | outside
  /-- `m_autoStop` is set -/
  | entered
  /-- in `stopped()`, for a scheduler without a thread pool -/
  | early
  /-- in `stopped()`, before `m_rootFiber->call()` -/
  | late
  /-- in `m_rootFiber->call()` -/
  | inRoot
  | joining
  | returned
  deriving DecidableEq, Repr

/-- What the users of the scheduler, its workers and the caller of `stop` do.  There is no action for
`yieldToHold` or for a fiber that is scheduled while it is queued or in a worker's hands. -/
inductive Act (W : Type) where
  | newFiber
  /-- a call of `schedule`, before `stop` or by the task on a worker -/
  | schedule (caller : Option W) (t : Task)
  /-- the next step of `run`; in `idle`, `yieldToHold` -/
  | work (w : W)
  | yield (w : W) (y : Yield)
  /-- `idle`: `stopped`, up to the test of the queue -/
  | testQueue (w : W)
  /-- `idle`: the read of `m_activeThreadCount` -/
  | testActive (w : W)
  /-- `idle` ends, after `stopped` returned true -/
  | idleEnd (w : W)
  /-- the next step of `stop` -/
  | stop
  deriving DecidableEq, Repr

structure Shutdown (W : Type) where
  machine : Machine W Empty (Option W)
  stop : StopPc
  /-- the callback that `run` put on a fiber -/
  vehicle : FiberId → Option Callback

def Pc.isRunning : Pc → Bool
  | .at .running _ _ => true
  | _ => false

theorem Pc.isRunning_iff {pc : Pc} : pc.isRunning = true ↔ ∃ role f, pc = .at .running role f := by
  constructor
  · intro h
    unfold isRunning at h
    split at h
    · rename_i role f
      exact ⟨role, f, rfl⟩
    · cases h
  · rintro ⟨role, f, rfl⟩
    rfl

/-- The worker is still to scan the queue, or would be if it had found nothing. -/
def Worker.Scans (wk : Worker) : Prop :=
  match wk.pc with
  | .exited => False
  | .dispatch _ false => wk.idleDone = false
  | _ => True

namespace Machine

variable {W D O : Type} [DecidableEq W] [DecidableEq D] [DecidableEq O] {s s' : Machine W D O} {w : W}

/-! ## `stopped()` -/

/-- While a thread is in `stopped()`, the queue is empty and `stop` has been called. -/
structure Asked (s : Machine W D O) : Prop where
  locked : ∀ o, s.observer o = .atActive → s.mutex = some o
  empty : s.mutex ≠ none → s.fibers = []
  stopping : ∀ o, s.observer o ≠ .out → s.autoStop = true

omit [DecidableEq D] [DecidableEq O] in
theorem Worked.autoStop_eq (hs : Worked s w s') : s'.autoStop = s.autoStop := by
  cases hs <;> rfl

omit [DecidableEq D] [DecidableEq O] in
theorem Worked.idleDone_eq (hs : Worked s w s') :
    (s'.worker w).idleDone = (s.worker w).idleDone := by
  have hself : ∀ {wk : Worker}, s'.worker = Function.update s.worker w wk →
      wk.idleDone = (s.worker w).idleDone → (s'.worker w).idleDone = (s.worker w).idleDone := by
    intro wk hworker hidle
    rw [hworker, Function.update_self]
    exact hidle
  cases hs <;> exact hself rfl rfl

theorem readQueue_frame {o : O} (hs : s.step (.readQueue o) = some s') :
    s'.worker = s.worker ∧ s'.fibers = s.fibers ∧ s'.autoStop = s.autoStop := by
  cases step_cases hs with
  | queueRead => exact ⟨rfl, rfl, rfl⟩
  | queueReadFalse => exact ⟨rfl, rfl, rfl⟩

omit [DecidableEq W] [DecidableEq D] [DecidableEq O] in
theorem Asked.queue (h : Asked s) {o : O} (ho : s.observer o = .atActive) : s.fibers = [] :=
  h.empty (by rw [h.locked o ho]; nofun)

omit [DecidableEq W] [DecidableEq D] in
theorem Asked.observed (h : Asked s) {o : O} {v : Observer}
    (hobserver : s'.observer = Function.update s.observer o v) (hauto : s'.autoStop = s.autoStop)
    (hself : v = .atActive → s'.mutex = some o) (hothers : ∀ p, p ≠ o → s.observer p = .atActive →
      s'.mutex = some p) (hempty : s'.mutex ≠ none → s'.fibers = [])
    (hstopping : v ≠ .out → s.autoStop = true) : Asked s' where
  locked := fun p hp ↦ by
    rw [hobserver] at hp
    by_cases hne : p = o
    · subst hne
      rw [Function.update_self] at hp
      exact hself hp
    · rw [Function.update_of_ne hne] at hp
      exact hothers p hne hp
  empty := hempty
  stopping := fun p hp ↦ by
    rw [hauto]
    rw [hobserver] at hp
    by_cases hne : p = o
    · subst hne
      rw [Function.update_self] at hp
      exact hstopping hp
    · rw [Function.update_of_ne hne] at hp
      exact h.stopping p hp

theorem Asked.step (h : Asked s) {a : Action W D O} (hs : Of step s a s') : Asked s' := by
  cases step_cases hs with
  | scheduled hm _ => exact ⟨h.locked, fun hne ↦ absurd hm hne, h.stopping⟩
  | pushed _ hm => exact ⟨h.locked, fun hne ↦ absurd hm hne, h.stopping⟩
  | worked hw =>
      obtain ⟨hobserver, hmutex, -, hfibers⟩ := worked_frame hw
      refine ⟨?_, fun hne ↦ ?_, ?_⟩
      · rw [hobserver, hmutex]
        exact h.locked
      · rw [hmutex] at hne
        rw [hfibers hne]
        exact h.empty hne
      · rw [hobserver, hw.autoStop_eq]
        exact h.stopping
  | autoStopSet => exact ⟨h.locked, h.empty, fun _ _ ↦ rfl⟩
  | queueRead ho hm hd =>
      unfold drained at hd
      rw [Bool.and_eq_true, Bool.and_eq_true] at hd
      -- `m_mutex` was free, so no other thread has seen the queue empty
      refine h.observed rfl rfl (fun _ ↦ rfl) (fun p _ hp ↦ ?_)
        (fun _ ↦ List.isEmpty_iff.mp hd.2) fun _ ↦ hd.1.1
      rw [h.locked p hp] at hm
      cases hm
  | activeRead ho =>
      -- no other thread is between the two reads: it would hold `m_mutex` too
      refine h.observed rfl rfl (fun hv ↦ ?_) (fun p hne hp ↦ ?_) (fun hne ↦ absurd rfl hne) fun _ ↦ ?_
      · split at hv
        · cases hv
        · cases hv
      · exact absurd (Option.some.inj ((h.locked p hp).symm.trans (h.locked _ ho))) hne
      · exact h.stopping _ (by rw [ho]; nofun)
  | pendingRead ho =>
      exact h.observed rfl rfl nofun (fun p _ hp ↦ h.locked p hp) h.empty fun hv ↦ absurd rfl hv
  | _ => exact ⟨h.locked, h.empty, h.stopping⟩

omit [DecidableEq W] [DecidableEq D] [DecidableEq O] in
theorem start_asked (thread : W → Int) : Asked (start thread : Machine W D O) :=
  ⟨nofun, fun h ↦ absurd rfl h, fun _ h ↦ absurd rfl h⟩

/-! ## Who is still to scan -/

omit [DecidableEq D] [DecidableEq O] in
/-- A worker leaves `run` only after its idle fiber has ended, from a scan that found nothing. -/
theorem work_exited (hs : s.work w = some s') (hexit : (s'.worker w).pc = .exited) :
    (s.worker w).idleDone = true ∧ ¬ (s.worker w).Scans := by
  have hgo : ∀ {wk : Worker}, s'.worker = Function.update s.worker w wk → wk.pc ≠ .exited →
      (s.worker w).idleDone = true ∧ ¬ (s.worker w).Scans := by
    intro wk hworker hpc
    rw [hworker, Function.update_self] at hexit
    exact absurd hexit hpc
  cases work_cases hs with
  | @idled ft pc hpc hfin hcb hpc' =>
      have hdispatch : s.work w = some (s.setPc w (if (s.worker w).idleDone then .exited else .idle)) := by
        have hnone : (ft.fiber.filter fun f ↦ !(s.fiber f).state.finished) = none := by
          rw [Option.filter_eq_none_iff]
          intro x hx
          rw [hfin x hx]
          nofun
        unfold work
        rw [hpc]
        dsimp only
        unfold dispatch
        rw [hnone]
        dsimp only
        rw [hcb, if_neg Bool.false_ne_true, if_neg Bool.false_ne_true]
      rw [hdispatch] at hs
      have hpc'' : pc = if (s.worker w).idleDone then .exited else .idle := by
        have hworker := congrArg (fun m ↦ (m.worker w).pc) (Option.some.inj hs)
        unfold setPc setWorker at hworker
        dsimp only at hworker
        rw [Function.update_self, Function.update_self] at hworker
        exact hworker.symm
      -- `break` is taken where the idle fiber is in `TERM`, and after an empty scan only
      by_cases hidle : (s.worker w).idleDone = true
      · refine ⟨hidle, ?_⟩
        unfold Worker.Scans
        rw [hpc, hidle]
        nofun
      · rw [if_neg hidle] at hpc''
        exact hgo rfl (by rw [hpc'']; nofun)
  | @examined role f hpc =>
      refine hgo rfl ?_
      show s.examined role f ≠ .exited
      unfold examined
      split
      · nofun
      · split
        · cases role <;> nofun
        · nofun
  | _ => exact hgo rfl nofun

omit [DecidableEq D] [DecidableEq O] in
/-- As long as the queue is not empty a worker that is still to scan stays so, and one that puts
something into it is. -/
theorem scans_work (hord : InOrder s) (hs : s.work w = some s') (hne : s'.fibers ≠ []) :
    (s'.worker w).Scans ∨ s'.fibers = s.fibers ∧ ¬ (s.worker w).Scans := by
  have hgo : ∀ {wk : Worker}, s'.worker = Function.update s.worker w wk → wk.Scans →
      (s'.worker w).Scans ∨ s'.fibers = s.fibers ∧ ¬ (s.worker w).Scans := by
    intro wk hworker hscans
    left
    rw [hworker, Function.update_self]
    exact hscans
  cases work_cases hs with
  -- a scan that takes nothing saw the queue empty
  | foundNone _ _ hnone => exact absurd (hord.takes hnone) hne
  | idled _ _ _ hpc' =>
      rcases hpc' with rfl | rfl
      · right
        refine ⟨rfl, (work_exited hs ?_).2⟩
        show (Function.update s.worker w _ w).pc = .exited
        rw [Function.update_self]
      · exact hgo rfl trivial
  | @examined role f hpc =>
      refine hgo rfl ?_
      show ({ s.worker w with pc := s.examined role f } : Worker).Scans
      unfold examined
      split
      · trivial
      · split
        · cases role <;> trivial
        · trivial
  | _ => exact hgo rfl trivial

end Machine

namespace Shutdown

variable {W : Type} [DecidableEq W] [Fintype W]

def start (thread : W → Int) : Shutdown W := ⟨Machine.start thread, .outside, fun _ ↦ none⟩

/-- The user may schedule the task. -/
def Free (s : Shutdown W) : Task → Prop
  | .fiber f => (∀ ft ∈ s.machine.fibers, ft.fiber ≠ some f) ∧ ∀ w, ¬ (s.machine.worker w).Holds f
  | .callback _ => True

instance (s : Shutdown W) (t : Task) : Decidable (s.Free t) :=
  match t with
  | .fiber _ => inferInstanceAs (Decidable (_ ∧ _))
  | .callback _ => inferInstanceAs (Decidable True)

variable (root : Option W)

/-- The root worker runs in `m_rootFiber->call()` only. -/
def MayRun (s : Shutdown W) (w : W) : Prop := root = some w → s.stop = .inRoot

instance (s : Shutdown W) (w : W) : Decidable (s.MayRun root w) := inferInstanceAs (Decidable (_ → _))

/-- The next step of `stop`. -/
def stopStep (s : Shutdown W) : Option (Option (Action W Empty (Option W)) × StopPc) :=
  match s.stop with
  | .outside => some (some .setAutoStop, .entered)
  -- `m_rootFiber` is in the state `INIT`
  | .entered =>
    some (some .clearRunning,
      if root = none then .joining else if ∀ w, root = some w then .early else .late)
  | .early =>
    match s.machine.observer none with
    | .out => some (some (.readQueue none), if s.machine.drained then .early else .late)
    | .atActive =>
      some (some (.readActive none), if s.machine.activeThreadCount = 0 then .returned else .late)
    | .atPending => none
  | .late =>
    match s.machine.observer none with
    | .out => some (some (.readQueue none), if s.machine.drained then .late else .inRoot)
    | .atActive =>
      some (some (.readActive none), if s.machine.activeThreadCount = 0 then .joining else .inRoot)
    | .atPending => none
  | .inRoot =>
    if ∀ w, root = some w → (s.machine.worker w).pc = .exited then some (none, .joining) else none
  | .joining =>
    if ∀ w, root ≠ some w → (s.machine.worker w).pc = .exited then some (none, .returned) else none
  | .returned => none

/-- The step of the machine that an action takes, if any, and where `stop` is after it. -/
def plan (s : Shutdown W) : Act W → Option (Option (Action W Empty (Option W)) × StopPc)
  | .newFiber => some (some .newFiber, s.stop)
  | .schedule none t =>
    if s.stop = .outside ∧ s.Free t then some (some (.schedule t.entry), s.stop) else none
  | .schedule (some w) t =>
    if (s.machine.worker w).pc.isRunning ∧ s.Free t then some (some (.schedule t.entry), s.stop)
    else none
  | .work w =>
    -- a test of `idle` that came out false left no trace
    if s.MayRun root w ∧
        ((s.machine.worker w).pc = .idle → s.machine.observer (some w) = .out) then
      some (some (.work w), s.stop)
    else none
  | .yield w y => if y ≠ .hold then some (some (.yield w y), s.stop) else none
  | .testQueue w =>
    if (s.machine.worker w).pc = .idle then some (some (.readQueue (some w)), s.stop) else none
  | .testActive w => some (some (.readActive (some w)), s.stop)
  | .idleEnd w =>
    if s.machine.observer (some w) = .atPending then some (some (.idleEnd w), s.stop) else none
  | .stop => s.stopStep root

def step (s : Shutdown W) (a : Act W) : Option (Shutdown W) :=
  match s.plan root a with
  | none => none
  | some (none, stop) => some { s with stop := stop }
  | some (some b, stop) =>
    (s.machine.step b).map fun m ↦ ⟨m, stop, s.machine.vehicles s.vehicle b⟩

/-- Whether an action schedules the callback. -/
def schedules (cb : Callback) (_ : Shutdown W) : Act W → Nat
  | .schedule _ (.callback c) => if c = cb then 1 else 0
  | _ => 0

/-- Whether an action schedules the fiber, and it is not one that `run` put a callback on. -/
def submits (f : FiberId) (s : Shutdown W) : Act W → Nat
  | .schedule _ (.fiber g) => if g = f ∧ s.vehicle f = none then 1 else 0
  | _ => 0

/-- Whether an action ends the callback. -/
def callbackEnds (cb : Callback) (s : Shutdown W) : Act W → Nat
  | .yield w y => s.machine.leaves s.vehicle cb (.yield w y)
  | _ => 0

/-- Whether an action ends the fiber. -/
def fiberEnds (f : FiberId) (s : Shutdown W) : Act W → Nat
  | .yield w y => s.machine.ends f (.yield w y)
  | _ => 0

/-! ## The tasks -/

variable {root} {s s' : Shutdown W} {a : Act W}

/-- The steps of the machine that the actions take, and where `stop` is after them. -/
inductive Does (root : Option W) (s : Shutdown W) :
    Act W → Action W Empty (Option W) → StopPc → Prop where
  | newFiber : Does root s .newFiber .newFiber s.stop
  | outside {t : Task} :
      s.stop = .outside → s.Free t → Does root s (.schedule none t) (.schedule t.entry) s.stop
  | nested {w : W} {t : Task} :
      (s.machine.worker w).pc.isRunning = true → s.Free t →
      Does root s (.schedule (some w) t) (.schedule t.entry) s.stop
  | work {w : W} : s.MayRun root w → Does root s (.work w) (.work w) s.stop
  | yield {w : W} {y : Yield} : y ≠ .hold → Does root s (.yield w y) (.yield w y) s.stop
  | testQueue {w : W} : Does root s (.testQueue w) (.readQueue (some w)) s.stop
  | testActive {w : W} : Does root s (.testActive w) (.readActive (some w)) s.stop
  | idleEnd {w : W} :
      s.machine.observer (some w) = .atPending → Does root s (.idleEnd w) (.idleEnd w) s.stop
  | entered : s.stop = .outside → Does root s .stop .setAutoStop .entered
  | cleared {pc : StopPc} :
      s.stop = .entered →
      (pc = .joining ∧ root = none ∨ pc = .early ∧ (∀ w, root = some w) ∨ pc = .late) →
      Does root s .stop .clearRunning pc
  | askedEarly {pc : StopPc} :
      s.stop = .early → pc = .early ∨ pc = .late → Does root s .stop (.readQueue none) pc
  | toldEarly {pc : StopPc} :
      s.stop = .early → s.machine.observer none = .atActive → pc = .returned ∨ pc = .late →
      Does root s .stop (.readActive none) pc
  | askedLate {pc : StopPc} :
      s.stop = .late → pc = .late ∨ pc = .inRoot → Does root s .stop (.readQueue none) pc
  | toldLate {pc : StopPc} :
      s.stop = .late → s.machine.observer none = .atActive → pc = .joining ∨ pc = .inRoot →
      Does root s .stop (.readActive none) pc

theorem does_of_stopStep {b : Action W Empty (Option W)} {pc : StopPc}
    (h : s.stopStep root = some (some b, pc)) : Does root s .stop b pc := by
  unfold stopStep at h
  split at h
  · rename_i hstop
    cases h
    exact .entered hstop
  · rename_i hstop
    cases h
    refine .cleared hstop ?_
    split
    · rename_i hroot
      exact .inl ⟨rfl, hroot⟩
    · split
      · rename_i hall
        exact .inr (.inl ⟨rfl, hall⟩)
      · exact .inr (.inr rfl)
  · rename_i hstop
    split at h
    · cases h
      refine .askedEarly hstop ?_
      split
      · exact .inl rfl
      · exact .inr rfl
    · rename_i hobserver
      cases h
      refine .toldEarly hstop hobserver ?_
      split
      · exact .inl rfl
      · exact .inr rfl
    · cases h
  · rename_i hstop
    split at h
    · cases h
      refine .askedLate hstop ?_
      split
      · exact .inl rfl
      · exact .inr rfl
    · rename_i hobserver
      cases h
      refine .toldLate hstop hobserver ?_
      split
      · exact .inl rfl
      · exact .inr rfl
    · cases h
  · split at h
    · cases h
    · cases h
  · split at h
    · cases h
    · cases h
  · cases h

theorem does_of_plan {b : Action W Empty (Option W)} {pc : StopPc}
    (h : s.plan root a = some (some b, pc)) : Does root s a b pc := by
  cases a with
  | newFiber =>
      cases h
      exact .newFiber
  | schedule caller t =>
      cases caller with
      | none =>
          unfold plan at h
          dsimp only at h
          split at h
          · rename_i hcond
            cases h
            exact .outside hcond.1 hcond.2
          · cases h
      | some w =>
          unfold plan at h
          dsimp only at h
          split at h
          · rename_i hcond
            cases h
            exact .nested hcond.1 hcond.2
          · cases h
  | work w =>
      unfold plan at h
      dsimp only at h
      split at h
      · rename_i hcond
        cases h
        exact .work hcond.1
      · cases h
  | yield w y =>
      unfold plan at h
      dsimp only at h
      split at h
      · rename_i hy
        cases h
        exact .yield hy
      · cases h
  | testQueue w =>
      unfold plan at h
      dsimp only at h
      split at h
      · cases h
        exact .testQueue
      · cases h
  | testActive w =>
      cases h
      exact .testActive
  | idleEnd w =>
      unfold plan at h
      dsimp only at h
      split at h
      · rename_i hobserver
        cases h
        exact .idleEnd hobserver
      · cases h
  | stop => exact does_of_stopStep h

/-- Two steps of `stop` are none of the machine: the root fiber has ended, and the threads of the pool
have. -/
theorem ended_of_plan {pc : StopPc} (h : s.plan root a = some (none, pc)) :
    a = .stop ∧
      (s.stop = .inRoot ∧ pc = .joining ∧
          (∀ w, root = some w → (s.machine.worker w).pc = .exited) ∨
        s.stop = .joining ∧ pc = .returned ∧
          ∀ w, root ≠ some w → (s.machine.worker w).pc = .exited) := by
  cases a with
  | schedule caller t =>
      cases caller with
      | none =>
          unfold plan at h
          dsimp only at h
          split at h <;> cases h
      | some w =>
          unfold plan at h
          dsimp only at h
          split at h <;> cases h
  | stop =>
      refine ⟨rfl, ?_⟩
      change s.stopStep root = _ at h
      unfold stopStep at h
      split at h
      · cases h
      · cases h
      · split at h <;> cases h
      · split at h <;> cases h
      · rename_i hstop
        split at h
        · rename_i hexit
          cases h
          exact .inl ⟨hstop, rfl, hexit⟩
        · cases h
      · rename_i hstop
        split at h
        · rename_i hexit
          cases h
          exact .inr ⟨hstop, rfl, hexit⟩
        · cases h
      · cases h
  | newFiber => cases h
  | testActive w => cases h
  | _ =>
      unfold plan at h
      dsimp only at h
      split at h <;> cases h

theorem step_cases (hs : s.step root a = some s') :
    (∃ b, Does root s a b s'.stop ∧ s.machine.step b = some s'.machine ∧
        s'.vehicle = s.machine.vehicles s.vehicle b) ∨
      ∃ stop, s.plan root a = some (none, stop) ∧ s' = { s with stop := stop } := by
  unfold step at hs
  split at hs
  · cases hs
  · rename_i stop hplan
    cases hs
    exact .inr ⟨stop, hplan, rfl⟩
  · rename_i b stop hplan
    obtain ⟨m, hm, rfl⟩ := Option.map_eq_some_iff.mp hs
    exact .inl ⟨b, does_of_plan hplan, hm, rfl⟩

omit [DecidableEq W] [Fintype W] in
theorem Does.plain {b : Action W Empty (Option W)} {pc : StopPc} (h : Does root s a b pc) :
    s.machine.Plain b := by
  have hschedule : ∀ t, s.Free t → s.machine.Plain (.schedule t.entry) := by
    intro t hfree
    refine ⟨t, rfl, fun f hf ↦ ?_⟩
    rw [hf] at hfree
    exact ⟨fun ⟨ft, hft, hname⟩ ↦ hfree.1 ft hft hname, hfree.2⟩
  cases h with
  | outside _ hfree => exact hschedule _ hfree
  | nested _ hfree => exact hschedule _ hfree
  | yield hy => exact hy
  | _ => trivial

/-! ## The last scan -/

/-- `stop` will still let the worker run. -/
def WillRun (root : Option W) (s : Shutdown W) (w : W) : Prop :=
  root = some w → s.stop ≠ .joining ∧ s.stop ≠ .returned

structure Winding (root : Option W) (s : Shutdown W) : Prop where
  before : s.stop = .outside → s.machine.autoStop = false
  awake : s.machine.autoStop = false → ∀ w, (s.machine.worker w).idleDone = false ∧
    (s.machine.worker w).pc ≠ .exited
  rooted : ∀ w, root = some w → s.stop ≠ .inRoot →
    (s.machine.worker w).pc = .scan ∨ (s.machine.worker w).pc = .exited
  /-- Whoever put something into the queue last is still to scan it. -/
  watched : s.machine.fibers ≠ [] → ∃ w, WillRun root s w ∧ (s.machine.worker w).Scans
  alone : s.stop = .early → ∀ w, root = some w
  gone : s.stop = .returned → ∀ w, root ≠ some w → (s.machine.worker w).pc = .exited

variable {w : W} {wk : Worker}

omit [Fintype W] in
theorem Winding.moved (h : Winding root s) (hstop : s'.stop = s.stop)
    (hauto : s'.machine.autoStop = s.machine.autoStop)
    (hworker : s'.machine.worker = Function.update s.machine.worker w wk)
    (hrun : root = some w → s.stop = .inRoot) (hpc : (s.machine.worker w).pc ≠ .exited)
    (hawake : s.machine.autoStop = false → (s.machine.worker w).idleDone = false →
      wk.idleDone = false ∧ wk.pc ≠ .exited)
    (hscans : s'.machine.fibers ≠ [] → wk.Scans ∨
      s'.machine.fibers = s.machine.fibers ∧ ((s.machine.worker w).Scans → wk.Scans)) :
    Winding root s' := by
  have hself : s'.machine.worker w = wk := by rw [hworker, Function.update_self]
  have hother : ∀ x, x ≠ w → s'.machine.worker x = s.machine.worker x := fun x hx ↦ by
    rw [hworker, Function.update_of_ne hx]
  refine ⟨fun hout ↦ ?_, fun hfalse x ↦ ?_, fun x hx hne ↦ ?_, fun hne ↦ ?_, fun hearly ↦ ?_,
    fun hret x hx ↦ ?_⟩
  · rw [hauto]
    exact h.before (hstop.symm.trans hout)
  · rw [hauto] at hfalse
    by_cases hxw : x = w
    · rw [hxw, hself]
      exact hawake hfalse (h.awake hfalse w).1
    · rw [hother x hxw]
      exact h.awake hfalse x
  · have hxw : x ≠ w := fun heq ↦ hne (hstop.trans (hrun (heq ▸ hx)))
    rw [hother x hxw]
    exact h.rooted x hx (hstop ▸ hne)
  · have hwill : WillRun root s' w := by
      intro hroot
      rw [hstop, hrun hroot]
      exact ⟨nofun, nofun⟩
    rcases hscans hne with hw | ⟨hfibers, hkeep⟩
    · exact ⟨w, hwill, hself ▸ hw⟩
    · rw [hfibers] at hne
      obtain ⟨x, hx, hxs⟩ := h.watched hne
      by_cases hxw : x = w
      · rw [hxw] at hxs
        exact ⟨w, hwill, hself ▸ hkeep hxs⟩
      · refine ⟨x, fun hroot ↦ ?_, by rw [hother x hxw]; exact hxs⟩
        rw [hstop]
        exact hx hroot
  · exact h.alone (hstop.symm.trans hearly)
  · have hexit := h.gone (hstop.symm.trans hret) x hx
    have hxw : x ≠ w := fun heq ↦ hpc (heq ▸ hexit)
    rw [hother x hxw]
    exact hexit

omit [DecidableEq W] [Fintype W] in
theorem Winding.congr (h : Winding root s) (hworker : s'.machine.worker = s.machine.worker)
    (hbefore : s'.stop = .outside → s'.machine.autoStop = false)
    (hauto : s'.machine.autoStop = false → s.machine.autoStop = false)
    (hrooted : s.stop = .inRoot → s'.stop ≠ .inRoot → ∀ w, root = some w →
      (s.machine.worker w).pc = .scan ∨ (s.machine.worker w).pc = .exited)
    (hwatched : s'.machine.fibers ≠ [] → ∃ w, WillRun root s' w ∧ (s.machine.worker w).Scans)
    (halone : s'.stop = .early → ∀ w, root = some w)
    (hgone : s'.stop = .returned → ∀ w, root ≠ some w → (s.machine.worker w).pc = .exited) :
    Winding root s' where
  before := hbefore
  awake := fun hfalse ↦ by
    rw [hworker]
    exact h.awake (hauto hfalse)
  rooted := fun w hw hne ↦ by
    rw [hworker]
    by_cases hin : s.stop = .inRoot
    · exact hrooted hin hne w hw
    · exact h.rooted w hw hin
  watched := hworker ▸ hwatched
  alone := halone
  gone := hworker ▸ hgone

omit [DecidableEq W] [Fintype W] in
theorem Winding.frame (h : Winding root s) (hstop : s'.stop = s.stop)
    (hworker : s'.machine.worker = s.machine.worker) (hauto : s'.machine.autoStop = s.machine.autoStop)
    (hfibers : s'.machine.fibers = s.machine.fibers) : Winding root s' := by
  refine h.congr hworker (fun hout ↦ ?_) (fun hfalse ↦ ?_) (fun hin hne ↦ ?_) (fun hne ↦ ?_)
    (fun hearly ↦ ?_) fun hret ↦ ?_
  · rw [hauto]
    exact h.before (hstop.symm.trans hout)
  · exact hauto.symm.trans hfalse
  · exact absurd (hstop.trans hin) hne
  · obtain ⟨w, hw, hscans⟩ := h.watched (hfibers ▸ hne)
    exact ⟨w, fun hroot ↦ by rw [hstop]; exact hw hroot, hscans⟩
  · exact h.alone (hstop.symm.trans hearly)
  · exact h.gone (hstop.symm.trans hret)

omit [DecidableEq W] [Fintype W] in
/-- The workers that are busy are those that may run. -/
theorem Winding.runs (h : Winding root s) (hscan : (s.machine.worker w).pc ≠ .scan)
    (hexit : (s.machine.worker w).pc ≠ .exited) : root = some w → s.stop = .inRoot := by
  intro hroot
  by_contra hne
  rcases h.rooted w hroot hne with hpc | hpc
  · exact hscan hpc
  · exact hexit hpc

omit [DecidableEq W] [Fintype W] in
theorem Winding.stopped (h : Winding root s) (hworker : s'.machine.worker = s.machine.worker)
    (hfibers : s'.machine.fibers = s.machine.fibers)
    (hauto : s'.machine.autoStop = false → s.machine.autoStop = false) (hout : s'.stop ≠ .outside)
    (hin : s.stop ≠ .inRoot)
    (hwill : s.machine.fibers ≠ [] → root = none ∨ s'.stop ≠ .joining ∧ s'.stop ≠ .returned)
    (halone : s'.stop = .early → ∀ w, root = some w)
    (hgone : s'.stop = .returned → ∀ w, root ≠ some w → (s.machine.worker w).pc = .exited) :
    Winding root s' := by
  refine h.congr hworker (fun heq ↦ absurd heq hout) hauto (fun heq ↦ absurd heq hin) (fun hne ↦ ?_)
    halone hgone
  rw [hfibers] at hne
  obtain ⟨w, -, hscans⟩ := h.watched hne
  refine ⟨w, fun hroot ↦ ?_, hscans⟩
  rcases hwill hne with hnone | hpc
  · rw [hnone] at hroot
    cases hroot
  · exact hpc

omit [DecidableEq W] [Fintype W] in
/-- Before `stop` is called every worker goes on. -/
theorem Winding.scans (h : Winding root s) (hauto : s.machine.autoStop = false) (w : W) :
    (s.machine.worker w).Scans := by
  obtain ⟨hidle, hpc⟩ := h.awake hauto w
  unfold Worker.Scans
  split
  · rename_i heq
    exact absurd heq hpc
  · exact hidle
  · trivial

variable {pc : StopPc} {m : Machine W Empty (Option W)} {v : FiberId → Option Callback}

omit [DecidableEq W] [Fintype W] in
/-- Something comes into the queue while some worker is still to scan it. -/
theorem Winding.scheduled (h : Winding root s) (hwill : WillRun root s w)
    (hscans : (s.machine.worker w).Scans) (fibers : List FiberAndThread) :
    Winding root ⟨{ s.machine with fibers := fibers }, s.stop, v⟩ :=
  h.congr rfl h.before id (fun hin hne ↦ absurd hin hne) (fun _ ↦ ⟨w, hwill, hscans⟩) h.alone h.gone

omit [Fintype W] in
theorem Winding.worked (h : Winding root s) (hord : s.machine.InOrder) (hmay : s.MayRun root w)
    (hm : s.machine.work w = some m) : Winding root ⟨m, s.stop, v⟩ := by
  have hw := Machine.work_cases hm
  obtain ⟨hpc, wk, hworker, -⟩ := hw.worker_eq
  have hself : m.worker w = wk := by rw [hworker, Function.update_self]
  refine h.moved rfl hw.autoStop_eq hworker hmay hpc (fun _ hidle ↦ ?_) fun hne ↦ ?_
  · have hidle' : wk.idleDone = false := by rw [← hself, hw.idleDone_eq, hidle]
    refine ⟨hidle', fun hexit ↦ ?_⟩
    rw [(Machine.work_exited hm (hself ▸ hexit)).1] at hidle
    cases hidle
  · rw [← hself]
    exact (Machine.scans_work hord hm hne).imp_right fun ⟨hq, hnot⟩ ↦
      ⟨hq, fun hscans ↦ absurd hscans hnot⟩

omit [Fintype W] in
/-- `stop` goes on from `stopped()`, up to the test of the queue. -/
theorem Winding.asked (h : Winding root s) (hm : s.machine.step (.readQueue none) = some m)
    (hin : s.stop ≠ .inRoot) (hpc : pc = .early ∧ (∀ w, root = some w) ∨ pc = .late ∨ pc = .inRoot) :
    Winding root ⟨m, pc, v⟩ := by
  obtain ⟨hworker, hfibers, hauto⟩ := Machine.readQueue_frame hm
  rcases hpc with ⟨rfl, hall⟩ | rfl | rfl
  · exact h.stopped hworker hfibers hauto.symm.trans nofun hin (fun _ ↦ .inr ⟨nofun, nofun⟩)
      (fun _ ↦ hall) nofun
  · exact h.stopped hworker hfibers hauto.symm.trans nofun hin (fun _ ↦ .inr ⟨nofun, nofun⟩) nofun
      nofun
  · exact h.stopped hworker hfibers hauto.symm.trans nofun hin (fun _ ↦ .inr ⟨nofun, nofun⟩) nofun
      nofun

omit [Fintype W] in
/-- It goes on from the end of `stopped()`, which held `m_mutex` and saw the queue empty. -/
theorem Winding.told (h : Winding root s) (hasked : s.machine.Asked)
    (hobserver : s.machine.observer none = .atActive)
    (hm : s.machine.step (.readActive none) = some m) (hin : s.stop ≠ .inRoot)
    (hpc : pc ≠ .outside ∧ pc ≠ .early) (hgone : pc = .returned → ∀ w, root = some w) :
    Winding root ⟨m, pc, v⟩ := by
  have hempty := hasked.queue hobserver
  cases Machine.step_cases hm
  exact h.stopped rfl rfl id hpc.1 hin (fun hne ↦ absurd hempty hne) (fun heq ↦ absurd heq hpc.2)
    fun heq w hw ↦ absurd (hgone heq w) hw

omit [Fintype W] in
theorem Does.winding [Nonempty W] {b : Action W Empty (Option W)} (hdoes : Does root s a b pc)
    (h : Winding root s) (hord : s.machine.InOrder) (hasked : s.machine.Asked)
    (hm : s.machine.step b = some m) (v : FiberId → Option Callback) : Winding root ⟨m, pc, v⟩ := by
  have hstepped := Machine.step_cases hm
  cases hdoes with
  | newFiber =>
      cases hstepped
      exact h.frame rfl rfl rfl rfl
  | outside hout _ =>
      cases hstepped
      -- any worker will do
      obtain ⟨w⟩ := ‹Nonempty W›
      refine h.scheduled (fun _ ↦ ?_) (h.scans (h.before hout) w) _
      rw [hout]
      exact ⟨nofun, nofun⟩
  | @nested w t hrun _ =>
      cases hstepped
      -- the worker of the task that schedules scans once more itself
      obtain ⟨role, f, hpc⟩ := Pc.isRunning_iff.mp hrun
      have hscans : (s.machine.worker w).Scans := by
        unfold Worker.Scans
        rw [hpc]
        trivial
      refine h.scheduled (fun hroot ↦ ?_) hscans _
      rw [h.runs (by rw [hpc]; nofun) (by rw [hpc]; nofun) hroot]
      exact ⟨nofun, nofun⟩
  | work hmay => exact h.worked hord hmay hm
  | yield =>
      cases hstepped with
      | yielded hpc =>
          refine h.moved rfl rfl rfl (h.runs (by rw [hpc]; nofun) (by rw [hpc]; nofun))
            (by rw [hpc]; nofun) (fun _ hidle ↦ ⟨hidle, nofun⟩) fun _ ↦ .inl trivial
  | testQueue =>
      obtain ⟨hworker, hfibers, hauto⟩ := Machine.readQueue_frame hm
      exact h.frame rfl hworker hauto hfibers
  | testActive =>
      cases hstepped
      exact h.frame rfl rfl rfl rfl
  | @idleEnd w hobserver =>
      -- `stopped()` has returned true, so `stop` has been called
      have hauto := hasked.stopping (some w) (by rw [hobserver]; nofun)
      cases hstepped with
      | idleEnded hpc =>
          refine h.moved rfl rfl rfl (h.runs (by rw [hpc]; nofun) (by rw [hpc]; nofun))
            (by rw [hpc]; nofun) (fun hfalse _ ↦ ?_) fun _ ↦ .inl trivial
          rw [hauto] at hfalse
          cases hfalse
  | entered hout =>
      cases hstepped
      exact h.stopped rfl rfl nofun nofun (by rw [hout]; nofun) (fun _ ↦ .inr ⟨nofun, nofun⟩) nofun
        nofun
  | cleared hentered hpc =>
      cases hstepped
      have hin : s.stop ≠ .inRoot := by
        rw [hentered]
        nofun
      rcases hpc with ⟨rfl, hroot⟩ | ⟨rfl, hall⟩ | rfl
      · exact h.stopped rfl rfl id nofun hin (fun _ ↦ .inl hroot) nofun nofun
      · exact h.stopped rfl rfl id nofun hin (fun _ ↦ .inr ⟨nofun, nofun⟩) (fun _ ↦ hall) nofun
      · exact h.stopped rfl rfl id nofun hin (fun _ ↦ .inr ⟨nofun, nofun⟩) nofun nofun
  | askedEarly hearly hpc =>
      refine h.asked hm (by rw [hearly]; nofun) ?_
      exact hpc.imp (fun heq ↦ ⟨heq, h.alone hearly⟩) .inl
  | askedLate hlate hpc => exact h.asked hm (by rw [hlate]; nofun) (.inr hpc)
  | toldEarly hearly hobserver hpc =>
      -- `stop` may return at once: there is no pool
      refine h.told hasked hobserver hm (by rw [hearly]; nofun) ?_ fun _ ↦ h.alone hearly
      rcases hpc with rfl | rfl
      · exact ⟨nofun, nofun⟩
      · exact ⟨nofun, nofun⟩
  | toldLate hlate hobserver hpc =>
      rcases hpc with rfl | rfl
      · exact h.told hasked hobserver hm (by rw [hlate]; nofun) ⟨nofun, nofun⟩ nofun
      · exact h.told hasked hobserver hm (by rw [hlate]; nofun) ⟨nofun, nofun⟩ nofun

/-- After the root worker, the ones of the pool are joined. -/
theorem Winding.ended (h : Winding root s) (hplan : s.plan root a = some (none, pc)) :
    Winding root { s with stop := pc } := by
  obtain ⟨-, hend⟩ := ended_of_plan hplan
  rcases hend with ⟨hin, rfl, hexit⟩ | ⟨hjoin, rfl, hexit⟩
  · -- the worker that is still to scan is not the root worker, which has left `run`
    refine h.congr rfl nofun id (fun _ _ w hw ↦ .inr (hexit w hw)) (fun hne ↦ ?_) nofun nofun
    obtain ⟨w, -, hscans⟩ := h.watched hne
    refine ⟨w, fun hroot ↦ ?_, hscans⟩
    unfold Worker.Scans at hscans
    rw [hexit w hroot] at hscans
    exact hscans.elim
  · refine h.congr rfl nofun id (fun hin ↦ ?_) (fun hne ↦ ?_) nofun fun _ ↦ hexit
    · rw [hjoin] at hin
      cases hin
    · obtain ⟨w, hwill, hscans⟩ := h.watched hne
      refine ⟨w, fun hroot ↦ ?_, hscans⟩
      exact absurd hjoin (hwill hroot).1

omit [DecidableEq W] [Fintype W] in
theorem start_winding (thread : W → Int) : Winding root (start thread) where
  before := fun _ ↦ rfl
  awake := fun _ _ ↦ ⟨rfl, nofun⟩
  rooted := fun _ _ _ ↦ .inl rfl
  watched := fun h ↦ absurd rfl h
  alone := nofun
  gone := nofun

/-! ## All of it -/

/-- What every step keeps. -/
structure Ok (root : Option W) (s : Shutdown W) : Prop where
  inOrder : s.machine.InOrder
  tracked : s.machine.Tracked s.vehicle
  asked : s.machine.Asked
  winding : Winding root s

theorem Ok.step [Nonempty W] (h : Ok root s) (hs : s.step root a = some s') : Ok root s' := by
  rcases step_cases hs with ⟨b, hdoes, hm, hv⟩ | ⟨stop, hplan, rfl⟩
  · have hwinding := hdoes.winding h.winding h.inOrder h.asked hm s'.vehicle
    refine ⟨h.inOrder.step hdoes.plain hm, ?_, h.asked.step hm, hwinding⟩
    rw [hv]
    exact h.tracked.step h.inOrder hdoes.plain hm
  · exact ⟨h.inOrder, h.tracked, h.asked, h.winding.ended hplan⟩

omit [DecidableEq W] [Fintype W] in
theorem start_ok (thread : W → Int) : Ok root (start thread) where
  inOrder := Machine.start_inOrder thread
  tracked := ⟨nofun, fun _ h ↦ absurd rfl h⟩
  asked := Machine.start_asked thread
  winding := start_winding thread

/-! ## What has been scheduled has ended -/

variable {cb : Callback} {f : FiberId}

omit [DecidableEq W] [Fintype W] in
theorem Does.enters_eq {b : Action W Empty (Option W)} {pc : StopPc} (h : Does root s a b pc) :
    Machine.enters cb b = schedules cb s a := by
  have hentry : ∀ (caller : Option W) (t : Task),
      Machine.enters cb (.schedule t.entry : Action W Empty (Option W)) =
        schedules cb s (.schedule caller t) := by
    intro caller t
    cases t with
    | fiber => rfl
    | callback c =>
        show (if some c = some cb then 1 else 0) = if c = cb then 1 else 0
        simp only [Option.some_inj]
  cases h with
  | outside => exact hentry none _
  | @nested w => exact hentry (some w) _
  | _ => rfl

omit [DecidableEq W] [Fintype W] in
theorem Does.leaves_eq {b : Action W Empty (Option W)} {pc : StopPc} (h : Does root s a b pc) :
    s.machine.leaves s.vehicle cb b = callbackEnds cb s a := by
  cases h with
  | _ => rfl

omit [DecidableEq W] [Fintype W] in
theorem Does.ends_eq {b : Action W Empty (Option W)} {pc : StopPc} (h : Does root s a b pc) :
    s.machine.ends f b = fiberEnds f s a := by
  cases h with
  | _ => rfl

/-- Every callback that has been scheduled is stored until it ends. -/
theorem Ok.callback (h : Ok root s) (hs : s.step root a = some s') :
    s.machine.stored s.vehicle cb + schedules cb s a =
      s'.machine.stored s'.vehicle cb + callbackEnds cb s a := by
  rcases step_cases hs with ⟨b, hdoes, hm, hv⟩ | ⟨stop, hplan, rfl⟩
  · rw [hv, ← hdoes.enters_eq, ← hdoes.leaves_eq]
    exact Machine.stored_step h.inOrder h.tracked hdoes.plain hm
  · rw [(ended_of_plan hplan).1]
    rfl

theorem Ok.fiber (h : Ok root s) (hs : s.step root a = some s') (hv : s'.vehicle f = none) :
    (s.machine.fiber f).state.finished.toNat + fiberEnds f s a =
      (s'.machine.fiber f).state.finished.toNat := by
  rcases step_cases hs with ⟨b, hdoes, hm, hv'⟩ | ⟨stop, hplan, rfl⟩
  · rw [hv'] at hv
    rw [← hdoes.ends_eq]
    exact Machine.ends_step h.inOrder h.tracked hdoes.plain hm hv
  · rw [(ended_of_plan hplan).1]
    rfl

theorem vehicle_ne_none (hs : s.step root a = some s') (hv : s.vehicle f ≠ none) :
    s'.vehicle f ≠ none := by
  rcases step_cases hs with ⟨b, -, -, hv'⟩ | ⟨stop, -, rfl⟩
  · rw [hv']
    exact Machine.vehicles_ne_none b hv
  · exact hv

/-- A fiber that the users have scheduled is never lost, and `run` puts no callback on it. -/
def Submitted (f : FiberId) (s : Shutdown W) : Prop :=
  s.machine.Placed f ∧ f < s.machine.nextFiber ∧ s.vehicle f = none

theorem Submitted.step (hsub : Submitted f s) (h : Ok root s) (hs : s.step root a = some s') :
    Submitted f s' := by
  obtain ⟨hplaced, hlt, hv⟩ := hsub
  rcases step_cases hs with ⟨b, hdoes, hm, hv'⟩ | ⟨stop, -, rfl⟩
  · refine ⟨Machine.placed_step h.inOrder hm hplaced, ?_, ?_⟩
    · exact Nat.lt_of_lt_of_le hlt (Machine.step_cases hm).nextFiber_le
    · rw [hv']
      exact h.tracked.vehicles_none b hlt hv
  · exact ⟨hplaced, hlt, hv⟩

omit [DecidableEq W] [Fintype W] in
theorem Does.schedule_eq {caller : Option W} {t : Task} {b : Action W Empty (Option W)} {pc : StopPc}
    (h : Does root s (.schedule caller t) b pc) : b = .schedule t.entry := by
  cases h with
  | _ => rfl

theorem submitted_of_submits (hs : s.step root a = some s') (hne : submits f s a ≠ 0) :
    Submitted f s' := by
  cases a with
  | schedule caller t =>
      cases t with
      | callback => exact absurd rfl hne
      | fiber g =>
          have hcond : g = f ∧ s.vehicle f = none := by
            by_contra hcon
            exact hne (if_neg hcon)
          obtain ⟨rfl, hv⟩ := hcond
          rcases step_cases hs with ⟨b, hdoes, hm, hv'⟩ | ⟨stop, hplan, -⟩
          · cases hdoes.schedule_eq
            obtain ⟨hqueued, hlt⟩ := Machine.queued_of_schedule hm
            refine ⟨.inl hqueued, hlt, ?_⟩
            rw [hv']
            exact hv
          · cases (ended_of_plan hplan).1
  | _ => exact absurd rfl hne

omit [DecidableEq W] [Fintype W] in
/-- When `stop` has returned, the queue is empty and no worker has anything in its hands. -/
theorem Winding.returned (h : Winding root s) (hret : s.stop = .returned) :
    s.machine.fibers = [] ∧
      ∀ w, (s.machine.worker w).pc = .scan ∨ (s.machine.worker w).pc = .exited := by
  constructor
  · by_contra hne
    obtain ⟨w, hwill, hscans⟩ := h.watched hne
    have hroot : root ≠ some w := fun hroot ↦ (hwill hroot).2 hret
    unfold Worker.Scans at hscans
    rw [h.gone hret w hroot] at hscans
    exact hscans
  · intro w
    by_cases hroot : root = some w
    · exact h.rooted w hroot (by rw [hret]; nofun)
    · exact .inr (h.gone hret w hroot)

omit [DecidableEq W] in
theorem Ok.stored_eq_zero (h : Ok root s) (hret : s.stop = .returned) :
    s.machine.stored s.vehicle cb = 0 := by
  obtain ⟨hempty, hpc⟩ := h.winding.returned hret
  have hload : ∀ w, s.machine.load s.vehicle cb (s.machine.worker w).pc = 0 := by
    intro w
    rcases hpc w with hpc | hpc
    · rw [hpc]
      rfl
    · rw [hpc]
      rfl
  unfold Machine.stored
  rw [hempty, Finset.sum_eq_zero fun w _ ↦ hload w]
  rfl

omit [DecidableEq W] [Fintype W] in
theorem Ok.finished (h : Ok root s) (hsub : Submitted f s) (hret : s.stop = .returned) :
    (s.machine.fiber f).state.finished = true := by
  obtain ⟨hempty, hpc⟩ := h.winding.returned hret
  obtain ⟨hplaced, -, hv⟩ := hsub
  rcases hplaced with ⟨ft, hft, -⟩ | ⟨w, hpcf | hcb⟩ | hfin
  · rw [hempty] at hft
    exact absurd hft List.not_mem_nil
  · rcases hpc w with hpc | hpc
    · rw [hpc] at hpcf
      cases hpcf
    · rw [hpc] at hpcf
      cases hpcf
  · exact absurd hv (h.tracked.lent w f hcb)
  · exact hfin

/-- When `stop` has returned the queue is empty, every callback has ended as often as it was scheduled,
and every fiber of the users that was scheduled has ended once. -/
theorem shutdown_drains [Nonempty W] {thread : W → Int} {as : List (Act W)}
    (h : Run (Of (step root)) (start thread) as s) (hret : s.stop = .returned) :
    s.machine.fibers = [] ∧
      (∀ cb, tally (step root) (callbackEnds cb) (start thread) as =
        tally (step root) (schedules cb) (start thread) as) ∧
      ∀ f, tally (step root) (submits f) (start thread) as ≠ 0 →
        tally (step root) (fiberEnds f) (start thread) as = 1 := by
  have hI : ∀ (s : Shutdown W) a s', Ok root s → Of (step root) s a s' → Ok root s' :=
    fun _ _ _ hok hs ↦ hok.step hs
  have hok := h.invariant hI (start_ok thread)
  refine ⟨(hok.winding.returned hret).1, fun cb ↦ ?_, fun f hsub ↦ ?_⟩
  · -- nothing was stored at the start, and nothing is stored in the end
    have hbal := tally_balance (n := fun s ↦ s.machine.stored s.vehicle cb) (fun _ _ _ hs ↦ hs) hI
      (fun s a s' hok hs ↦ hok.callback hs) h (start_ok thread)
    have hstart : (start thread).machine.stored (start thread).vehicle cb = 0 := by
      show 0 + ∑ _ : W, 0 = 0
      rw [Finset.sum_const_zero, Nat.zero_add]
    rw [hstart, hok.stored_eq_zero hret, Nat.zero_add, Nat.zero_add] at hbal
    exact hbal.symm
  · have hlast : Submitted f s := h.after_tally (fun _ _ _ hs ↦ hs) hI
      (fun _ _ _ _ hs ↦ submitted_of_submits hs) (fun _ _ _ hok hs hsub ↦ hsub.step hok hs)
      (start_ok thread) hsub
    -- it carried no callback at any time
    obtain ⟨hrun, -⟩ := h.backward (Q := fun s ↦ s.vehicle f = none)
      (fun s a s' hs hnone ↦ by
        by_contra hne
        exact vehicle_ne_none hs hne hnone) hlast.2.2
    have hgain := tally_gain (n := fun s ↦ (s.machine.fiber f).state.finished.toNat)
      (fun _ _ _ hs ↦ hs.1) (fun s a s' hok hs ↦ hI s a s' hok hs.1)
      (fun s a s' hok hs ↦ hok.fiber hs.1 hs.2) hrun (start_ok thread)
    rw [hok.finished hlast hret] at hgain
    exact (Nat.zero_add _).symm.trans hgain

/-- A fiber that yields on a worker of the pool, after it scheduled a callback, and ends on the root
worker, where the callback threw. -/
def handedOver : List (Act Bool) :=
  List.flatten
    [[.newFiber, .schedule none (.fiber 0), .stop, .stop], List.replicate 5 (.work false),
      [.schedule (some false) (.callback 7), .stop], List.replicate 5 (.work true),
      [.yield false .ready], List.replicate 4 (.work false), [.yield true .except],
      List.replicate 9 (.work true), [.yield true .term], List.replicate 3 (.work true),
      [.work false, .work false, .testQueue false, .testActive false, .idleEnd false, .work false,
        .work false, .work true, .work true, .testQueue true, .testActive true, .idleEnd true,
        .work true, .work true, .stop, .stop]]

theorem shutdown_drains_handedOver : ∃ s : Shutdown Bool,
    Run (Of (step (some true))) (start fun w ↦ if w then 1 else 2) handedOver s ∧
      s.machine.fibers = [] ∧
      tally (step (some true)) (callbackEnds 7) (start fun w ↦ if w then 1 else 2) handedOver = 1 ∧
      tally (step (some true)) (fiberEnds 0) (start fun w ↦ if w then 1 else 2) handedOver = 1 := by
  have hexec : (exec (step (some true)) (start fun w ↦ if w then 1 else 2) handedOver).map
      (fun s ↦ decide (s.stop = .returned)) = some true := by decide +kernel
  obtain ⟨s, hs, hret⟩ := Option.map_eq_some_iff.mp hexec
  have hrun := exec_eq_some_iff.mp hs
  obtain ⟨hempty, hcallbacks, hfibers⟩ := shutdown_drains hrun (of_decide_eq_true hret)
  refine ⟨s, hrun, hempty, ?_, hfibers 0 (by decide +kernel)⟩
  rw [hcallbacks 7]
  decide +kernel

end Shutdown

end Server
