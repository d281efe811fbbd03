import ServerFramework.Scheduler.Machine

/-!
# What a step of the machine can do

The next step of a worker is one of seventeen changes, and a step of any other thread leaves the
workers and the fibers alone.  Every invariant of the scheduler is proved from these two lists.
-/

namespace Server

open IOManager (Event)

namespace Machine

variable {W D O : Type} [DecidableEq W]

inductive Worked (s : Machine W D O) (w : W) : Machine W D O → Prop where
  | took {ft : FiberAndThread} {rest : List FiberAndThread} :
      (s.worker w).pc = .scan → s.mutex = none →
      takeFirst (s.takeable (s.worker w).thread) s.fibers = some (ft, rest) →
      Worked s w ({ s with fibers := rest, activeThreadCount := s.activeThreadCount + 1 }.setPc w
        (.dispatch ft true))
  | foundNone :
      (s.worker w).pc = .scan → s.mutex = none →
      takeFirst (s.takeable (s.worker w).thread) s.fibers = none →
      Worked s w (s.setPc w (.dispatch ⟨none, none, -1⟩ false))
  | resumed {ft : FiberAndThread} {isActive : Bool} {f : FiberId} :
      (s.worker w).pc = .dispatch ft isActive → ft.fiber = some f →
      (s.fiber f).state.finished = false → Worked s w (s.setPc w (.at .check .task f))
  | reused {ft : FiberAndThread} {isActive : Bool} {c : FiberId} :
      (s.worker w).pc = .dispatch ft isActive →
      (∀ f, ft.fiber = some f → (s.fiber f).state.finished = true) → ft.cb.isSome = true →
      (s.worker w).cbFiber = some c → (s.fiber c).state.resettable = true →
      Worked s w ((s.setFiber c .fresh).setPc w (.at .check .callback c))
  | made {ft : FiberAndThread} {isActive : Bool} :
      (s.worker w).pc = .dispatch ft isActive →
      (∀ f, ft.fiber = some f → (s.fiber f).state.finished = true) → ft.cb.isSome = true →
      (s.worker w).cbFiber = none →
      Worked s w (({ s with nextFiber := s.nextFiber + 1 }.setFiber s.nextFiber .fresh).setWorker w
        { s.worker w with cbFiber := some s.nextFiber, pc := .at .check .callback s.nextFiber })
  | dropped {ft : FiberAndThread} :
      (s.worker w).pc = .dispatch ft true →
      (∀ f, ft.fiber = some f → (s.fiber f).state.finished = true) → ft.cb.isSome = false →
      Worked s w ({ s with activeThreadCount := s.activeThreadCount - 1 }.setPc w .scan)
  | idled {ft : FiberAndThread} {pc : Pc} :
      (s.worker w).pc = .dispatch ft false →
      (∀ f, ft.fiber = some f → (s.fiber f).state.finished = true) → ft.cb.isSome = false →
      pc = .exited ∨ pc = .idle →
      Worked s w (s.setPc w pc)
  | checked {role : Role} {f : FiberId} :
      (s.worker w).pc = .at .check role f → (s.fiber f).state ≠ .exec →
      Worked s w (s.setPc w (.at .mark role f))
  | marked {role : Role} {f : FiberId} :
      (s.worker w).pc = .at .mark role f →
      Worked s w ((s.setState f .exec).setPc w (.at .switchIn role f))
  | switchedIn {role : Role} {f : FiberId} :
      (s.worker w).pc = .at .switchIn role f →
      Worked s w ((s.setSaved f false).setPc w (.at .running role f))
  | switchedOut {role : Role} {f : FiberId} :
      (s.worker w).pc = .at .leaving role f →
      Worked s w ((s.setSaved f true).setPc w (.at .returned role f))
  | decremented {role : Role} {f : FiberId} :
      (s.worker w).pc = .at .returned role f →
      Worked s w ({ s with activeThreadCount := s.activeThreadCount - 1 }.setPc w
        (.at .examine role f))
  | examined {role : Role} {f : FiberId} :
      (s.worker w).pc = .at .examine role f → Worked s w (s.setPc w (s.examined role f))
  | requeued {role : Role} {f : FiberId} :
      (s.worker w).pc = .at .requeue role f → s.mutex = none →
      Worked s w ({ s with fibers := s.fibers ++ [FiberAndThread.ofFiber (some f) (-1)] }.release w role)
  | held {role : Role} {f : FiberId} :
      (s.worker w).pc = .at .hold role f → Worked s w ((s.setState f .hold).release w role)
  | retired {role : Role} {f : FiberId} :
      (s.worker w).pc = .at .retire role f → (s.fiber f).state.resettable = true →
      Worked s w ((s.setFiber f .fresh).setPc w .scan)
  | awoke :
      (s.worker w).pc = .idle → Worked s w (s.setPc w .scan)

theorem worked_scan {s : Machine W D O} {w : W} (hpc : (s.worker w).pc = .scan)
    (hm : s.mutex = none) : Worked s w (s.scan w) := by
  unfold scan
  split
  · rename_i ft rest htake
    exact .took hpc hm htake
  · rename_i htake
    exact .foundNone hpc hm htake

theorem worked_dispatch {s s' : Machine W D O} {w : W} {ft : FiberAndThread} {isActive : Bool}
    (hpc : (s.worker w).pc = .dispatch ft isActive) (h : s.dispatch w ft isActive = some s') :
    Worked s w s' := by
  unfold dispatch at h
  split at h
  · rename_i f hf
    rw [Option.filter_eq_some_iff, Bool.not_eq_true'] at hf
    cases h
    exact .resumed hpc hf.1 hf.2
  · rename_i hnone
    -- the filter dropped the fiber because it has ended
    have hfin : ∀ f, ft.fiber = some f → (s.fiber f).state.finished = true := by
      intro f hf
      rw [hf] at hnone
      by_contra hcon
      simp [hcon] at hnone
    split at h
    · rename_i hcb
      unfold startCallback at h
      split at h
      · rename_i c hc
        split at h
        · rename_i hreset
          cases h
          exact .reused hpc hfin hcb hc hreset
        · cases h
      · rename_i hc
        cases h
        exact .made hpc hfin hcb hc
    · rename_i hcb
      rw [Bool.not_eq_true] at hcb
      cases isActive with
      | true =>
          rw [if_pos rfl] at h
          cases h
          exact .dropped hpc hfin hcb
      | false =>
          rw [if_neg Bool.false_ne_true] at h
          cases h
          refine .idled hpc hfin hcb ?_
          split
          · exact .inl rfl
          · exact .inr rfl

theorem worked_advance {s s' : Machine W D O} {w : W} {stage : Stage} {role : Role} {f : FiberId}
    (hpc : (s.worker w).pc = .at stage role f) (h : s.advance w stage role f = some s') :
    Worked s w s' := by
  cases stage with
  | check =>
      simp only [advance] at h
      split at h
      · cases h
      · rename_i hexec
        cases h
        exact .checked hpc hexec
  | mark => cases h; exact .marked hpc
  | switchIn => cases h; exact .switchedIn hpc
  | running => cases h
  | leaving => cases h; exact .switchedOut hpc
  | returned => cases h; exact .decremented hpc
  | examine => cases h; exact .examined hpc
  | requeue =>
      simp only [advance] at h
      split at h
      · cases h
      · rename_i hm
        cases h
        exact .requeued hpc (Option.not_isSome_iff_eq_none.mp hm)
  | hold => cases h; exact .held hpc
  | retire =>
      simp only [advance] at h
      split at h
      · rename_i hreset
        cases h
        exact .retired hpc hreset
      · cases h

theorem work_cases {s s' : Machine W D O} {w : W} (h : s.work w = some s') : Worked s w s' := by
  unfold work at h
  split at h
  · rename_i hpc
    split at h
    · cases h
    · rename_i hm
      cases h
      exact worked_scan hpc (Option.not_isSome_iff_eq_none.mp hm)
  · rename_i ft isActive hpc
    exact worked_dispatch hpc h
  · rename_i stage role f hpc
    exact worked_advance hpc h
  · rename_i hpc
    cases h
    exact .awoke hpc
  · cases h

theorem Worked.worker_eq {s s' : Machine W D O} {w : W} (h : Worked s w s') :
    (s.worker w).pc ≠ .exited ∧
      ∃ wk, s'.worker = Function.update s.worker w wk ∧ wk.thread = (s.worker w).thread := by
  cases h with
  | _ hpc => exact ⟨by rw [hpc]; nofun, _, rfl, rfl⟩

variable [DecidableEq D] [DecidableEq O]

inductive Stepped (s : Machine W D O) : Action W D O → Machine W D O → Prop where
  | newFiber :
      Stepped s .newFiber ({ s with nextFiber := s.nextFiber + 1 }.setFiber s.nextFiber .fresh)
  | scheduled {ft : FiberAndThread} :
      s.mutex = none → s.known ft = true →
      Stepped s (.schedule ft) { s with fibers := (scheduleNoLock s.fibers ft).2 }
  | worked {w : W} {s' : Machine W D O} : Worked s w s' → Stepped s (.work w) s'
  | yielded {w : W} {y : Yield} {role : Role} {f : FiberId} :
      (s.worker w).pc = .at .running role f →
      Stepped s (.yield w y) ((s.setState f y.state).setPc w (.at .leaving role f))
  | idleEnded {w : W} :
      (s.worker w).pc = .idle →
      Stepped s (.idleEnd w) (s.setWorker w { s.worker w with pc := .scan, idleDone := true })
  | eventAdded {w : W} {fd : Nat} {event : Event} {role : Role} {f : FiberId} :
      (s.worker w).pc = .at .running role f →
      Stepped s (.addEvent w fd event)
        { s with
          registrations := s.registrations ++ [⟨fd, event, FiberAndThread.ofFiber (some f) (-1)⟩]
          pendingEventCount := s.pendingEventCount + 1 }
  | callbackAdded {fd : Nat} {event : Event} {cb : Callback} :
      Stepped s (.addCallback fd event cb)
        { s with
          registrations := s.registrations ++ [⟨fd, event, FiberAndThread.ofCb (some cb) (-1)⟩]
          pendingEventCount := s.pendingEventCount + 1 }
  | deleted {fd : Nat} {event : Event} {r : Registration} :
      r ∈ s.registrations →
      Stepped s (.delEvent fd event)
        { s with
          registrations := s.registrations.erase r
          pendingEventCount := s.pendingEventCount - 1 }
  | triggered {d : D} {fd : Nat} {event : Event} {r : Registration} :
      s.deliverer d = .free → s.registration fd event = some r → r ∈ s.registrations →
      Stepped s (.trigger d fd event)
        ({ s with registrations := s.registrations.erase r }.setDeliverer d (.pushing r.ft))
  | pushed {d : D} {ft : FiberAndThread} :
      s.deliverer d = .pushing ft → s.mutex = none →
      Stepped s (.push d)
        ({ s with fibers := (scheduleNoLock s.fibers ft).2 }.setDeliverer d .uncounting)
  | uncounted {d : D} :
      s.deliverer d = .uncounting →
      Stepped s (.uncount d)
        ({ s with pendingEventCount := s.pendingEventCount - 1 }.setDeliverer d .free)
  | autoStopSet : Stepped s .setAutoStop { s with autoStop := true }
  | runningCleared : Stepped s .clearRunning { s with isRunning := false }
  | queueRead {o : O} :
      s.observer o = .out → s.mutex = none → s.drained = true →
      Stepped s (.readQueue o) ({ s with mutex := some o }.setObserver o .atActive)
  | queueReadFalse {o : O} : Stepped s (.readQueue o) s
  | activeRead {o : O} :
      s.observer o = .atActive →
      Stepped s (.readActive o)
        ({ s with mutex := none }.setObserver o
          (if s.activeThreadCount = 0 then .atPending else .out))
  | pendingRead {o : O} :
      s.observer o = .atPending → Stepped s (.readPending o) (s.setObserver o .out)

omit [DecidableEq W] [DecidableEq D] [DecidableEq O] in
theorem register_eq {s s' : Machine W D O} {r : Registration} (h : s.register r = some s') :
    s' = { s with
      registrations := s.registrations ++ [r]
      pendingEventCount := s.pendingEventCount + 1 } := by
  unfold register at h
  split at h
  · cases h
  · cases h
    rfl

theorem step_cases {s s' : Machine W D O} {a : Action W D O} (h : s.step a = some s') :
    Stepped s a s' := by
  cases a with
  | newFiber => cases h; exact .newFiber
  | schedule ft =>
      simp only [step] at h
      split at h
      · cases h
      · rename_i hcond
        cases h
        rw [Bool.or_eq_true, not_or, Bool.not_eq_true', Bool.not_eq_false] at hcond
        exact .scheduled (Option.not_isSome_iff_eq_none.mp hcond.1) hcond.2
  | work w => exact .worked (work_cases h)
  | yield w y =>
      simp only [step] at h
      split at h
      · rename_i role f hpc
        cases h
        exact .yielded hpc
      · cases h
  | idleEnd w =>
      simp only [step] at h
      split at h
      · rename_i hpc
        cases h
        exact .idleEnded hpc
      · cases h
  | addEvent w fd event =>
      simp only [step] at h
      split at h
      · rename_i role f hpc
        rw [register_eq h]
        exact .eventAdded hpc
      · cases h
  | addCallback fd event cb =>
      rw [register_eq h]
      exact .callbackAdded
  | delEvent fd event =>
      simp only [step] at h
      split at h
      · rename_i r hr
        cases h
        exact .deleted (List.mem_of_find?_eq_some hr)
      · cases h
  | trigger d fd event =>
      simp only [step] at h
      split at h
      · rename_i r hd hr
        cases h
        exact .triggered hd hr (List.mem_of_find?_eq_some hr)
      · cases h
  | push d =>
      simp only [step] at h
      split at h
      · rename_i ft hd
        split at h
        · cases h
        · rename_i hm
          cases h
          exact .pushed hd (Option.not_isSome_iff_eq_none.mp hm)
      · cases h
  | uncount d =>
      simp only [step] at h
      split at h
      · rename_i hd
        cases h
        exact .uncounted hd
      · cases h
  | setAutoStop => cases h; exact .autoStopSet
  | clearRunning => cases h; exact .runningCleared
  | readQueue o =>
      simp only [step] at h
      split at h
      · rename_i ho hm
        split at h
        · rename_i hd
          cases h
          exact .queueRead ho hm hd
        · cases h
          exact .queueReadFalse
      · cases h
  | readActive o =>
      simp only [step] at h
      split at h
      · rename_i ho
        cases h
        exact .activeRead ho
      · cases h
  | readPending o =>
      simp only [step] at h
      split at h
      · rename_i ho
        cases h
        exact .pendingRead ho
      · cases h

/-- A worker stays on its thread, and leaves the loop of `run` for good. -/
theorem Stepped.worker_kept {s s' : Machine W D O} {a : Action W D O} (h : Stepped s a s') (w : W) :
    (s'.worker w).thread = (s.worker w).thread ∧
      ((s.worker w).pc = .exited → (s'.worker w).pc = .exited) := by
  -- at most one worker moves, and it had not left
  have hone : ∀ (v : W) (wk : Worker), (s.worker v).pc ≠ .exited →
      s'.worker = Function.update s.worker v wk → wk.thread = (s.worker v).thread →
      (s'.worker w).thread = (s.worker w).thread ∧
        ((s.worker w).pc = .exited → (s'.worker w).pc = .exited) := by
    intro v wk hpc hworker hthread
    rw [hworker]
    by_cases hv : w = v
    · subst hv
      rw [Function.update_self]
      exact ⟨hthread, fun hexit ↦ absurd hexit hpc⟩
    · rw [Function.update_of_ne hv]
      exact ⟨rfl, id⟩
  cases h with
  | worked hw =>
      obtain ⟨hpc, wk, hworker, hthread⟩ := hw.worker_eq
      exact hone _ wk hpc hworker hthread
  | yielded hpc => exact hone _ _ (by rw [hpc]; nofun) rfl rfl
  | idleEnded hpc => exact hone _ _ (by rw [hpc]; nofun) rfl rfl
  | _ => exact ⟨rfl, id⟩

omit [DecidableEq D] [DecidableEq O] in
theorem Worked.nextFiber_le {s s' : Machine W D O} {w : W} (h : Worked s w s') :
    s.nextFiber ≤ s'.nextFiber := by
  cases h with
  | made => exact Nat.le_succ _
  | _ => exact Nat.le_refl _

/-- Fibers are not unmade. -/
theorem Stepped.nextFiber_le {s s' : Machine W D O} {a : Action W D O} (h : Stepped s a s') :
    s.nextFiber ≤ s'.nextFiber := by
  cases h with
  | newFiber => exact Nat.le_succ _
  | worked hw => exact hw.nextFiber_le
  | _ => exact Nat.le_refl _

end Machine

end Server
