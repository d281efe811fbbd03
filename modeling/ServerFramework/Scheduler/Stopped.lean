import ServerFramework.Scheduler.Steps
import ServerFramework.Library.Counter

/-!
# What `stopped()` tells

`Scheduler::stopped` reads the queue and `m_activeThreadCount` under `m_mutex`, `IOManager::stopped`
then reads `m_pendingEventCount`.  Both counters are exact, but two moves of work escape the reads: a
fiber that yielded `READY` is not counted between the decrement and its re-queue, and work can enter
the queue between the two reads.
-/

namespace Server

open Runs Counter

/-- The worker has taken a task that `m_activeThreadCount` counts. -/
def Pc.busy : Pc → Nat
  | .dispatch _ true => 1
  | .at .check _ _ | .at .mark _ _ | .at .switchIn _ _ | .at .running _ _ | .at .leaving _ _
  | .at .returned _ _ => 1
  | _ => 0

/-- The worker has decremented the counter, and its fiber yielded `READY`. -/
def Pc.Requeues (fiber : FiberId → Fiber) : Pc → Prop
  | .at .examine _ f => (fiber f).state = .ready
  | .at .requeue _ _ => True
  | _ => False

theorem Pc.Requeues.mono {fiber fiber' : FiberId → Fiber} {pc : Pc} (h : pc.Requeues fiber')
    (hstate : ∀ f, (fiber' f).state = .ready → (fiber f).state = .ready) : pc.Requeues fiber := by
  unfold Requeues at h ⊢
  split at h
  · exact hstate _ h
  · trivial
  · cases h

/-- The delivery is still counted by `m_pendingEventCount`. -/
def Deliverer.counted : Deliverer → Nat
  | .free => 0
  | _ => 1

namespace Machine

variable {W D O : Type} [DecidableEq W] [DecidableEq D] [DecidableEq O] [Fintype W] [Fintype D]

/-- No task is queued, none is taken and not finished, none is still to be queued again. -/
structure Quiet (s : Machine W D O) : Prop where
  queue : s.fibers = []
  finished : ∀ w, (s.worker w).pc.busy = 0
  requeued : ∀ w, ¬ (s.worker w).pc.Requeues s.fiber

/-- Whether a step leaves what an observer has read as it was. -/
def Settled (s : Machine W D O) : Action W D O → Prop
  | .readActive _ => s.activeThreadCount = 0 → ∀ w, ¬ (s.worker w).pc.Requeues s.fiber
  | .schedule ft =>
    ft.nonempty = true → s.pendingEventCount = 0 → ∀ o, s.observer o ≠ .atPending
  | .uncount _ => s.pendingEventCount = 1 → (∃ o, s.observer o = .atPending) → s.Quiet
  | .delEvent _ _ => s.pendingEventCount = 1 → (∃ o, s.observer o = .atPending) → s.Quiet
  | _ => True

variable {s s' : Machine W D O} {w : W} {wk : Worker}

/-! ## Both counters are exact -/

structure Counted (s : Machine W D O) : Prop where
  active : s.activeThreadCount = (∑ w, (s.worker w).pc.busy : Nat)
  pending : s.pendingEventCount = (s.registrations.length + ∑ d, (s.deliverer d).counted : Nat)
  /-- A worker that is not active has found nothing. -/
  inactive : ∀ w ft, (s.worker w).pc = .dispatch ft false → ft = ⟨none, none, -1⟩

omit [DecidableEq D] [DecidableEq O] in
theorem Counted.moved (h : Counted s) {pc pc' : Pc} (n : Int) (hpc : (s.worker w).pc = pc)
    (hpc' : wk.pc = pc') (hworker : s'.worker = Function.update s.worker w wk)
    (hd : s'.deliverer = s.deliverer) (hr : s'.registrations = s.registrations)
    (hp : s'.pendingEventCount = s.pendingEventCount)
    (hactive : s'.activeThreadCount = s.activeThreadCount + n) (hbusy : pc.busy + n = pc'.busy)
    (hidle : ∀ ft, pc' = .dispatch ft false → ft = ⟨none, none, -1⟩) : Counted s' where
  active := by
    have hsum := sum_update (fun wk : Worker ↦ wk.pc.busy) s.worker w wk
    have hold := h.active
    rw [hpc, hpc'] at hsum
    rw [hworker]
    omega
  pending := by
    rw [hp, hr, hd]
    exact h.pending
  inactive := fun w' ft hw' ↦ by
    by_cases hw : w' = w
    · subst hw
      rw [hworker, Function.update_self, hpc'] at hw'
      exact hidle ft hw'
    · rw [hworker, Function.update_of_ne hw] at hw'
      exact h.inactive w' ft hw'

omit [DecidableEq W] [DecidableEq D] [DecidableEq O] in
/-- A worker with a fiber or a callback to execute is active. -/
theorem Counted.isActive (h : Counted s) {ft : FiberAndThread} {isActive : Bool}
    (hpc : (s.worker w).pc = .dispatch ft isActive)
    (hne : ft.nonempty = true) : isActive = true := by
  cases isActive with
  | true => rfl
  | false =>
      rw [h.inactive w ft hpc] at hne
      cases hne

omit [DecidableEq W] [DecidableEq D] [DecidableEq O] [Fintype W] [Fintype D] in
theorem examined_free {f : FiberId} (role : Role) :
    (s.examined role f).busy = 0 ∧
      ∀ ft, s.examined role f = .dispatch ft false → ft = ⟨none, none, -1⟩ := by
  unfold examined
  split
  · exact ⟨rfl, nofun⟩
  · split
    · cases role <;> exact ⟨rfl, nofun⟩
    · exact ⟨rfl, nofun⟩

omit [DecidableEq D] [DecidableEq O] in
theorem Counted.worked (h : Counted s) (hs : Worked s w s') : Counted s' := by
  cases hs with
  | took hpc => exact h.moved 1 hpc rfl rfl rfl rfl rfl rfl rfl nofun
  | foundNone hpc =>
      refine h.moved 0 hpc rfl rfl rfl rfl rfl (Int.add_zero _).symm rfl fun ft heq ↦ ?_
      cases heq
      rfl
  | resumed hpc hf =>
      obtain rfl := h.isActive hpc (FiberAndThread.nonempty_of_fiber hf)
      exact h.moved 0 hpc rfl rfl rfl rfl rfl (Int.add_zero _).symm rfl nofun
  | reused hpc _ hcb =>
      obtain rfl := h.isActive hpc (FiberAndThread.nonempty_of_cb hcb)
      exact h.moved 0 hpc rfl rfl rfl rfl rfl (Int.add_zero _).symm rfl nofun
  | made hpc _ hcb =>
      obtain rfl := h.isActive hpc (FiberAndThread.nonempty_of_cb hcb)
      exact h.moved 0 hpc rfl rfl rfl rfl rfl (Int.add_zero _).symm rfl nofun
  | dropped hpc => exact h.moved (-1) hpc rfl rfl rfl rfl rfl rfl rfl nofun
  | idled hpc _ _ hpc' =>
      rcases hpc' with rfl | rfl <;>
      exact h.moved 0 hpc rfl rfl rfl rfl rfl (Int.add_zero _).symm rfl nofun
  | decremented hpc => exact h.moved (-1) hpc rfl rfl rfl rfl rfl rfl rfl nofun
  | @examined role f hpc =>
      have hfree := examined_free (s := s) (f := f) role
      refine h.moved 0 hpc rfl rfl rfl rfl rfl (Int.add_zero _).symm ?_ hfree.2
      rw [hfree.1]
      rfl
  | checked hpc | marked hpc | switchedIn hpc | switchedOut hpc | requeued hpc | held hpc
  | retired hpc | awoke hpc =>
      exact h.moved 0 hpc rfl rfl rfl rfl rfl (Int.add_zero _).symm rfl nofun

theorem Counted.step (h : Counted s) {a : Action W D O} (hs : Of step s a s') : Counted s' := by
  have hpending := h.pending
  have hcounted := sum_update Deliverer.counted s.deliverer
  cases step_cases hs with
  | worked hw => exact h.worked hw
  | yielded hpc => exact h.moved 0 hpc rfl rfl rfl rfl rfl (Int.add_zero _).symm rfl nofun
  | idleEnded hpc => exact h.moved 0 hpc rfl rfl rfl rfl rfl (Int.add_zero _).symm rfl nofun
  | eventAdded | callbackAdded =>
      refine ⟨h.active, ?_, h.inactive⟩
      rw [List.length_append, List.length_singleton]
      dsimp only
      omega
  | deleted hr =>
      refine ⟨h.active, ?_, h.inactive⟩
      have hlen := List.length_erase_add_one hr
      dsimp only
      omega
  | @triggered d _ _ r hd _ hr =>
      refine ⟨h.active, ?_, h.inactive⟩
      have hlen := List.length_erase_add_one hr
      have hsum := hcounted d (.pushing r.ft)
      rw [hd] at hsum
      simp only [Deliverer.counted, setDeliverer] at hpending hsum ⊢
      omega
  | @pushed d ft hd =>
      refine ⟨h.active, ?_, h.inactive⟩
      have hsum := hcounted d .uncounting
      rw [hd] at hsum
      simp only [Deliverer.counted, setDeliverer] at hpending hsum ⊢
      omega
  | @uncounted d hd =>
      refine ⟨h.active, ?_, h.inactive⟩
      have hsum := hcounted d .free
      rw [hd] at hsum
      simp only [Deliverer.counted, setDeliverer] at hpending hsum ⊢
      omega
  | _ => exact ⟨h.active, h.pending, h.inactive⟩

omit [DecidableEq W] [DecidableEq D] [DecidableEq O] in
theorem start_counted (thread : W → Int) : Counted (start thread : Machine W D O) where
  active := by
    have hsum : ∑ w, ((start thread : Machine W D O).worker w).pc.busy = 0 :=
      Finset.sum_eq_zero fun _ _ ↦ rfl
    rw [hsum]
    rfl
  pending := by
    have hsum : ∑ d, ((start thread : Machine W D O).deliverer d).counted = 0 :=
      Finset.sum_eq_zero fun _ _ ↦ rfl
    rw [hsum]
    rfl
  inactive := nofun

omit [DecidableEq W] [DecidableEq D] [DecidableEq O] in
theorem Counted.nobody (h : Counted s) (hzero : s.activeThreadCount = 0) (w : W) :
    (s.worker w).pc.busy = 0 := by
  have hsum : ∑ w, (s.worker w).pc.busy = 0 := Int.ofNat_eq_zero.mp (h.active.symm.trans hzero)
  exact Finset.sum_eq_zero_iff.mp hsum w (Finset.mem_univ w)

omit [DecidableEq W] [DecidableEq D] [DecidableEq O] in
theorem Counted.nothing (h : Counted s) (hzero : s.pendingEventCount = 0) :
    s.registrations = [] ∧ ∀ d, s.deliverer d = .free := by
  have hsum := Int.ofNat_eq_zero.mp (h.pending.symm.trans hzero)
  obtain ⟨hr, hd⟩ := Nat.add_eq_zero_iff.mp hsum
  refine ⟨List.eq_nil_of_length_eq_zero hr, fun d ↦ ?_⟩
  have hfree := Finset.sum_eq_zero_iff.mp hd d (Finset.mem_univ d)
  cases hv : s.deliverer d with
  | free => rfl
  | pushing ft => rw [hv] at hfree; cases hfree
  | uncounting => rw [hv] at hfree; cases hfree

/-! ## A quiet scheduler stays quiet until something is scheduled -/

omit [DecidableEq W] [DecidableEq D] [DecidableEq O] [Fintype W] [Fintype D] in
theorem Quiet.congr (h : Quiet s) (hq : s'.fibers = s.fibers) (hworker : s'.worker = s.worker)
    (hstate : ∀ f, (s'.fiber f).state = .ready → (s.fiber f).state = .ready) : Quiet s' where
  queue := hq.trans h.queue
  finished := by
    rw [hworker]
    exact h.finished
  requeued := fun w hw ↦ by
    rw [hworker] at hw
    exact h.requeued w (hw.mono hstate)

omit [DecidableEq D] [DecidableEq O] [Fintype W] [Fintype D] in
theorem Quiet.moved (h : Quiet s) (hq : s'.fibers = s.fibers)
    (hworker : s'.worker = Function.update s.worker w wk)
    (hstate : ∀ f, (s'.fiber f).state = .ready → (s.fiber f).state = .ready)
    (hbusy : wk.pc.busy = 0) (hreq : ¬ wk.pc.Requeues s.fiber) : Quiet s' where
  queue := hq.trans h.queue
  finished := fun w' ↦ by
    rw [hworker]
    by_cases hw : w' = w
    · subst hw
      rw [Function.update_self]
      exact hbusy
    · rw [Function.update_of_ne hw]
      exact h.finished w'
  requeued := fun w' hw' ↦ by
    rw [hworker] at hw'
    by_cases hw : w' = w
    · subst hw
      rw [Function.update_self] at hw'
      exact hreq (hw'.mono hstate)
    · rw [Function.update_of_ne hw] at hw'
      exact h.requeued w' (hw'.mono hstate)

omit [DecidableEq W] [DecidableEq D] [DecidableEq O] [Fintype W] [Fintype D] in
theorem ready_of_update {f g : FiberId} {fb : Fiber} (hne : fb.state ≠ .ready)
    (h : (Function.update s.fiber f fb g).state = .ready) : (s.fiber g).state = .ready := by
  by_cases hg : g = f
  · subst hg
    rw [Function.update_self] at h
    exact absurd h hne
  · rwa [Function.update_of_ne hg] at h

omit [DecidableEq D] [DecidableEq O] in
theorem Quiet.worked (h : Quiet s) (hc : Counted s) (hs : Worked s w s') : Quiet s' := by
  have hbusy := h.finished w
  have hreq := h.requeued w
  cases hs with
  | took _ _ htake =>
      -- there is nothing to take
      rw [h.queue] at htake
      cases htake
  | foundNone hpc => exact h.moved rfl rfl (fun _ ↦ id) rfl nofun
  | resumed hpc hf =>
      obtain rfl := hc.isActive hpc (FiberAndThread.nonempty_of_fiber hf)
      rw [hpc] at hbusy
      cases hbusy
  | reused hpc _ hcb =>
      obtain rfl := hc.isActive hpc (FiberAndThread.nonempty_of_cb hcb)
      rw [hpc] at hbusy
      cases hbusy
  | made hpc _ hcb =>
      obtain rfl := hc.isActive hpc (FiberAndThread.nonempty_of_cb hcb)
      rw [hpc] at hbusy
      cases hbusy
  | idled _ _ _ hpc' =>
      rcases hpc' with rfl | rfl <;> exact h.moved rfl rfl (fun _ ↦ id) rfl nofun
  | @examined role f hpc =>
      -- the fiber did not yield `READY`, so it is not queued again
      rw [hpc] at hreq
      refine h.moved rfl rfl (fun _ ↦ id) (examined_free role).1 ?_
      have hne : ¬ (s.fiber f).state = .ready := hreq
      show ¬ (s.examined role f).Requeues s.fiber
      unfold examined
      rw [if_neg hne]
      split
      · cases role <;> nofun
      · nofun
  | requeued hpc =>
      rw [hpc] at hreq
      exact absurd trivial hreq
  | held => exact h.moved rfl rfl (fun _ ↦ ready_of_update nofun) rfl nofun
  | retired => exact h.moved rfl rfl (fun _ ↦ ready_of_update nofun) rfl nofun
  | awoke => exact h.moved rfl rfl (fun _ ↦ id) rfl nofun
  | dropped hpc | checked hpc | marked hpc | switchedIn hpc | switchedOut hpc | decremented hpc =>
      rw [hpc] at hbusy
      cases hbusy

/-! ## What the observers see -/

structure Observed (s : Machine W D O) : Prop where
  locked : ∀ o, s.observer o = .atActive → s.mutex = some o
  empty : s.mutex ≠ none → s.fibers = []
  seen : ∀ o, s.observer o = .atPending → s.pendingEventCount = 0 → Quiet s

omit [DecidableEq D] [DecidableEq O] [Fintype W] [Fintype D] in
/-- A worker leaves the observers alone, and the queue while one of them holds `m_mutex`. -/
theorem worked_frame (hs : Worked s w s') :
    s'.observer = s.observer ∧ s'.mutex = s.mutex ∧
      s'.pendingEventCount = s.pendingEventCount ∧ (s.mutex ≠ none → s'.fibers = s.fibers) := by
  cases hs with
  | took _ hm => exact ⟨rfl, rfl, rfl, fun hne ↦ absurd hm hne⟩
  | requeued _ hm => exact ⟨rfl, rfl, rfl, fun hne ↦ absurd hm hne⟩
  | _ => exact ⟨rfl, rfl, rfl, fun _ ↦ rfl⟩

omit [DecidableEq W] [DecidableEq D] [DecidableEq O] [Fintype W] [Fintype D] in
theorem Observed.frame (h : Observed s) (ho : s'.observer = s.observer) (hm : s'.mutex = s.mutex)
    (hq : s.mutex ≠ none → s'.fibers = s.fibers)
    (hseen : ∀ o, s.observer o = .atPending → s'.pendingEventCount = 0 → Quiet s') :
    Observed s' where
  locked := by
    rw [ho, hm]
    exact h.locked
  empty := fun hne ↦ by
    rw [hm] at hne
    exact (hq hne).trans (h.empty hne)
  seen := by
    rw [ho]
    exact hseen

omit [DecidableEq W] [DecidableEq D] [Fintype W] [Fintype D] in
theorem observer_update {o o' : O} {v : Observer}
    (h : Function.update s.observer o v o' = .atPending) :
    o' = o ∧ v = .atPending ∨ o' ≠ o ∧ s.observer o' = .atPending := by
  by_cases heq : o' = o
  · subst heq
    rw [Function.update_self] at h
    exact .inl ⟨rfl, h⟩
  · rw [Function.update_of_ne heq] at h
    exact .inr ⟨heq, h⟩

omit [DecidableEq W] [DecidableEq D] [DecidableEq O] in
/-- With `m_mutex` held and nobody active, only a re-queue can be under way. -/
theorem Observed.quiet (h : Observed s) (hc : Counted s) {o : O} (ho : s.observer o = .atActive)
    (hzero : s.activeThreadCount = 0) (hreq : ∀ w, ¬ (s.worker w).pc.Requeues s.fiber) :
    Quiet s where
  queue := h.empty (by rw [h.locked o ho]; nofun)
  finished := hc.nobody hzero
  requeued := hreq

theorem scheduleNoLock_empty {fibers : List FiberAndThread} {ft : FiberAndThread}
    (h : ¬ ft.nonempty = true) : (scheduleNoLock fibers ft).2 = fibers := if_neg h

omit [DecidableEq W] [DecidableEq D] [DecidableEq O] [Fintype W] [Fintype D] in
/-- What keeps a quiet scheduler quiet, and leaves the observers alone. -/
theorem Observed.keep (h : Observed s) (ho : s'.observer = s.observer) (hm : s'.mutex = s.mutex)
    (hq : s'.fibers = s.fibers) (hp : s'.pendingEventCount = s.pendingEventCount)
    (hquiet : Quiet s → Quiet s') : Observed s' := by
  refine h.frame ho hm (fun _ ↦ hq) fun o hobs hzero ↦ ?_
  rw [hp] at hzero
  exact hquiet (h.seen o hobs hzero)

omit [DecidableEq W] [DecidableEq D] [DecidableEq O] [Fintype W] [Fintype D] in
theorem Observed.scheduled (h : Observed s) {ft : FiberAndThread} (hm : s.mutex = none)
    (hok : s.Settled (.schedule ft)) :
    Observed { s with fibers := (scheduleNoLock s.fibers ft).2 } := by
  refine h.frame rfl rfl (fun hne ↦ absurd hm hne) fun o ho hzero ↦ ?_
  -- the condition keeps work out between the two reads
  by_cases hne : ft.nonempty = true
  · exact absurd ho (hok hne hzero o)
  · exact (h.seen o ho hzero).congr (scheduleNoLock_empty hne) rfl fun _ ↦ id

omit [DecidableEq D] [DecidableEq O] in
theorem Observed.worked (h : Observed s) (hc : Counted s) (hs : Worked s w s') : Observed s' := by
  obtain ⟨ho, hm, hp, hq⟩ := worked_frame hs
  refine h.frame ho hm hq fun o hobs hzero ↦ ?_
  rw [hp] at hzero
  exact (h.seen o hobs hzero).worked hc hs

omit [DecidableEq W] [DecidableEq D] [Fintype W] [Fintype D] in
/-- An observer goes on, and no other one is between its reads under `m_mutex`. -/
theorem Observed.advance (h : Observed s) {o : O} {v : Observer} {mutex : Option O}
    (hlocked : ∀ o', (if o' = o then v else s.observer o') = .atActive → mutex = some o')
    (hempty : mutex ≠ none → s.fibers = [])
    (hseen : v = .atPending → s.pendingEventCount = 0 → Quiet s) :
    Observed ({ s with mutex := mutex }.setObserver o v) := by
  refine ⟨fun o' ho' ↦ ?_, hempty, fun o' ho' hzero ↦ ?_⟩
  · change Function.update s.observer o v o' = .atActive at ho'
    rw [Function.update_apply] at ho'
    exact hlocked o' ho'
  · rcases observer_update ho' with ⟨-, hv⟩ | ⟨-, hobs⟩
    · exact (hseen hv hzero).congr rfl rfl fun _ ↦ id
    · exact (h.seen o' hobs hzero).congr rfl rfl fun _ ↦ id

omit [DecidableEq W] [DecidableEq D] [Fintype W] [Fintype D] in
theorem Observed.queueRead (h : Observed s) {o : O} (hm : s.mutex = none) (hd : s.drained = true) :
    Observed ({ s with mutex := some o }.setObserver o .atActive) := by
  have hempty : s.fibers = [] := by
    unfold drained at hd
    rw [Bool.and_eq_true] at hd
    exact List.isEmpty_iff.mp hd.2
  refine h.advance (fun o' ho' ↦ ?_) (fun _ ↦ hempty) nofun
  split at ho'
  · rename_i heq
    rw [heq]
  · -- the lock was free
    rw [h.locked o' ho'] at hm
    cases hm

omit [DecidableEq W] [DecidableEq D] in
theorem Observed.activeRead (h : Observed s) (hc : Counted s) {o : O}
    (ho : s.observer o = .atActive) (hok : s.Settled (.readActive o)) :
    Observed ({ s with mutex := none }.setObserver o
      (if s.activeThreadCount = 0 then .atPending else .out)) := by
  refine h.advance (fun o' ho' ↦ ?_) (fun hne ↦ absurd rfl hne) fun hv _ ↦ ?_
  · exfalso
    split at ho'
    · split at ho' <;> cases ho'
    · rename_i hne
      exact hne (Option.some.inj ((h.locked o' ho').symm.trans (h.locked o ho)))
  · split at hv
    · rename_i hactive
      exact h.quiet hc ho hactive (hok hactive)
    · cases hv

omit [DecidableEq W] [DecidableEq D] [Fintype W] [Fintype D] in
theorem Observed.pendingRead (h : Observed s) (o : O) : Observed (s.setObserver o .out) := by
  have hobserved : Observed ({ s with mutex := s.mutex }.setObserver o .out) := by
    refine h.advance (fun o' ho' ↦ ?_) h.empty nofun
    split at ho'
    · cases ho'
    · exact h.locked o' ho'
  exact hobserved

theorem Observed.step (h : Observed s) (hc : Counted s) {a : Action W D O} (hok : s.Settled a)
    (hs : Of step s a s') : Observed s' := by
  have hpending := hc.pending
  cases step_cases hs with
  | newFiber => exact h.keep rfl rfl rfl rfl fun hq ↦ hq.congr rfl rfl fun _ ↦ ready_of_update nofun
  | scheduled hm => exact h.scheduled hm hok
  | worked hw => exact h.worked hc hw
  | @yielded w _ _ _ hpc =>
      refine h.keep rfl rfl rfl rfl fun hq ↦ ?_
      -- no fiber executes in a quiet scheduler
      have hbusy := hq.finished w
      rw [hpc] at hbusy
      cases hbusy
  | idleEnded => exact h.keep rfl rfl rfl rfl fun hq ↦ hq.moved rfl rfl (fun _ ↦ id) rfl nofun
  | eventAdded | callbackAdded =>
      refine h.frame rfl rfl (fun _ ↦ rfl) fun o ho hzero ↦ ?_
      dsimp only at hzero
      omega
  | deleted =>
      refine h.frame rfl rfl (fun _ ↦ rfl) fun o ho hzero ↦ ?_
      dsimp only at hzero
      exact (hok (by omega) ⟨o, ho⟩).congr rfl rfl fun _ ↦ id
  | @pushed d ft hd hm =>
      refine h.frame rfl rfl (fun hne ↦ absurd hm hne) fun o ho hzero ↦ ?_
      -- the delivery is counted until it is over
      have hfree := (hc.nothing hzero).2 d
      rw [hd] at hfree
      cases hfree
  | uncounted =>
      refine h.frame rfl rfl (fun _ ↦ rfl) fun o ho hzero ↦ ?_
      simp only [setDeliverer] at hzero
      exact (hok (by omega) ⟨o, ho⟩).congr rfl rfl fun _ ↦ id
  | triggered | autoStopSet | runningCleared =>
      exact h.keep rfl rfl rfl rfl fun hq ↦ hq.congr rfl rfl fun _ ↦ id
  | queueRead _ hm hd => exact h.queueRead hm hd
  | queueReadFalse => exact h
  | activeRead ho => exact h.activeRead hc ho hok
  | pendingRead => exact h.pendingRead _

omit [DecidableEq W] [DecidableEq D] [DecidableEq O] [Fintype W] [Fintype D] in
theorem start_observed (thread : W → Int) : Observed (start thread : Machine W D O) where
  locked := nofun
  empty := fun _ ↦ rfl
  seen := nofun

def Settling : Machine W D O → Action W D O → Machine W D O → Prop := Guarded (Of step) Settled

theorem run_observed {thread : W → Int} {as : List (Action W D O)}
    (h : Run Settling (start thread) as s) : Counted s ∧ Observed s :=
  h.invariant (I := fun s ↦ Counted s ∧ Observed s)
    (fun _ _ _ hi hs ↦ ⟨hi.1.step hs.1, hi.2.step hi.1 hs.2 hs.1⟩)
    ⟨start_counted thread, start_observed thread⟩

/-- When `Scheduler::stopped` returns true the scheduler is quiet; when `IOManager::stopped` does,
no event is registered and no delivery is under way either. -/
theorem stopped_accurate {thread : W → Int} {as : List (Action W D O)}
    (h : Run Settling (start thread) as s) :
    (∀ o s', Settling s (.readActive o) s' → s.activeThreadCount = 0 → Quiet s') ∧
      ∀ o s', Settling s (.readPending o) s' → s.pendingEventCount = 0 →
        Quiet s' ∧ s'.registrations = [] ∧ ∀ d, s'.deliverer d = .free := by
  obtain ⟨hc, ho⟩ := run_observed h
  refine ⟨fun o s' ⟨hs, hok⟩ hzero ↦ ?_, fun o s' ⟨hs, hok⟩ hzero ↦ ?_⟩
  · cases step_cases hs with
    | activeRead hobs => exact (ho.quiet hc hobs hzero (hok hzero)).congr rfl rfl fun _ ↦ id
  · cases step_cases hs with
    | pendingRead hobs =>
        exact ⟨(ho.seen o hobs hzero).congr rfl rfl fun _ ↦ id, hc.nothing hzero⟩

omit [Fintype W] [Fintype D] in
/-- The condition is exact: a step that does not meet it makes an answer wrong. -/
theorem not_settled {a : Action W D O} (hs : Of step s a s') (hn : ¬ s.Settled a) :
    ¬ Quiet s' ∧ ∃ o, s'.observer o = .atPending ∧
      (a = .readActive o ∨ s'.pendingEventCount = 0) := by
  cases step_cases hs with
  | @scheduled ft =>
      simp only [Settled, Classical.not_imp, not_forall, not_not] at hn
      obtain ⟨hne, hzero, o, ho⟩ := hn
      refine ⟨fun hquiet ↦ ?_, o, ho, .inr hzero⟩
      have hempty : (scheduleNoLock s.fibers ft).2 = [] := hquiet.queue
      unfold scheduleNoLock at hempty
      rw [if_pos hne] at hempty
      exact List.append_ne_nil_of_right_ne_nil _ (List.cons_ne_nil _ _) hempty
  | deleted =>
      simp only [Settled, Classical.not_imp] at hn
      obtain ⟨hone, ⟨o, ho⟩, hquiet⟩ := hn
      refine ⟨fun hq ↦ hquiet (hq.congr rfl rfl fun _ ↦ id), o, ho, .inr ?_⟩
      dsimp only
      omega
  | uncounted =>
      simp only [Settled, Classical.not_imp] at hn
      obtain ⟨hone, ⟨o, ho⟩, hquiet⟩ := hn
      refine ⟨fun hq ↦ hquiet (hq.congr rfl rfl fun _ ↦ id), o, ho, .inr ?_⟩
      simp only [setDeliverer]
      omega
  | @activeRead o ho =>
      simp only [Settled, Classical.not_imp, not_forall, not_not] at hn
      obtain ⟨hzero, w, hw⟩ := hn
      refine ⟨fun hq ↦ hq.requeued w hw, o, ?_, .inl rfl⟩
      show Function.update s.observer o _ o = .atPending
      rw [Function.update_self, if_pos hzero]
  | _ => exact absurd trivial hn

/-! ## Runs on fixed inputs -/

instance (fiber : FiberId → Fiber) (pc : Pc) : Decidable (pc.Requeues fiber) :=
  match pc with
  | .at .examine _ f => inferInstanceAs (Decidable ((fiber f).state = .ready))
  | .at .requeue _ _ => .isTrue trivial
  | .at .check _ _ | .at .mark _ _ | .at .switchIn _ _ | .at .running _ _ | .at .leaving _ _
  | .at .returned _ _ | .at .hold _ _ | .at .retire _ _ | .scan | .dispatch _ _ | .idle
  | .exited => .isFalse id

instance (s : Machine W D O) : Decidable s.Quiet :=
  decidable_of_iff (s.fibers = [] ∧ (∀ w, (s.worker w).pc.busy = 0) ∧
    ∀ w, ¬ (s.worker w).pc.Requeues s.fiber)
    ⟨fun h ↦ ⟨h.1, h.2.1, h.2.2⟩, fun h ↦ ⟨h.queue, h.finished, h.requeued⟩⟩

instance [Fintype O] (s : Machine W D O) (a : Action W D O) : Decidable (s.Settled a) :=
  match a with
  | .readActive _ => inferInstanceAs (Decidable (_ → ∀ w, ¬ (s.worker w).pc.Requeues s.fiber))
  | .schedule _ => inferInstanceAs (Decidable (_ → _ → ∀ o, s.observer o ≠ .atPending))
  | .uncount _ => inferInstanceAs (Decidable (_ → (∃ o, s.observer o = .atPending) → s.Quiet))
  | .delEvent _ _ => inferInstanceAs (Decidable (_ → (∃ o, s.observer o = .atPending) → s.Quiet))
  | .newFiber | .work _ | .yield .. | .idleEnd _ | .addEvent .. | .addCallback .. | .trigger ..
  | .push _ | .setAutoStop | .clearRunning | .readQueue _ | .readPending _ =>
    inferInstanceAs (Decidable True)

/-- An event is delivered, its callback runs to the end, and both answers are true. -/
theorem stopped_accurate_delivery : ∃ s s' s'' : Two,
    Run Settling two
      [.addCallback 5 .read 7, .setAutoStop, .clearRunning, .trigger () 5 .read, .push (),
        .uncount (), .work false, .work false, .work false, .work false, .work false,
        .yield false .term, .work false, .work false, .readQueue ()] s ∧
      Settling s (.readActive ()) s' ∧ Quiet s' ∧
      Settling s' (.readPending ()) s'' ∧ Quiet s'' ∧ s''.registrations = [] ∧
        ∀ d, s''.deliverer d = .free := by
  obtain ⟨s, s', h, h', hP⟩ := exists_run_pair (R := Settling) step (fun s a ↦ decide (s.Settled a))
    (fun _ _ _ hs hok ↦ ⟨hs, of_decide_eq_true hok⟩) two
    [.addCallback 5 .read 7, .setAutoStop, .clearRunning, .trigger () 5 .read, .push (),
      .uncount (), .work false, .work false, .work false, .work false, .work false,
      .yield false .term, .work false, .work false, .readQueue ()] [.readActive ()]
    (P := fun s s' ↦ decide (s.activeThreadCount = 0 ∧ s'.pendingEventCount = 0 ∧
      s'.observer () = .atPending))
    (by decide +kernel)
  obtain ⟨hactive, hpending, hobs⟩ := of_decide_eq_true hP
  have hread : Settling s (.readActive ()) s' := by
    cases h' with
    | cons hstep hrest =>
        cases hrest
        exact hstep
  have hlast : Settling s' (.readPending ()) (s'.setObserver () .out) := by
    refine ⟨?_, trivial⟩
    unfold Of
    simp only [step, hobs]
  obtain ⟨hquiet, hfree⟩ := (stopped_accurate (h.append h')).2 () _ hlast hpending
  exact ⟨s, s', _, h, hread, (stopped_accurate h).1 () s' hread hactive, hlast, hquiet, hfree⟩

/-- A fiber that yielded `READY` is neither counted nor queued while `Scheduler::stopped` reads; and
work enters the queue between the two reads of `IOManager::stopped`. -/
theorem stopped_misses_work :
    (∃ s s' : Two,
      Run (Of step) two
        [.newFiber, .schedule ⟨some 0, none, -1⟩, .setAutoStop, .clearRunning, .work false,
          .work false, .work false, .work false, .work false, .yield false .ready, .work false,
          .work false, .readQueue ()] s ∧
        Run (Of step) s [.readActive ()] s' ∧
        s.activeThreadCount = 0 ∧ s'.observer () = .atPending ∧ ¬ Quiet s') ∧
    ∃ s s' : Two,
      Run (Of step) two
        [.addCallback 5 .read 7, .setAutoStop, .clearRunning, .trigger () 5 .read, .readQueue (),
          .readActive (), .push (), .uncount ()] s ∧
        Run (Of step) s [.readPending ()] s' ∧
        s.pendingEventCount = 0 ∧ s'.fibers ≠ [] := by
  constructor
  · obtain ⟨s, s', h, h', hP⟩ := exists_run_pair (R := Of step) step (fun _ _ ↦ true)
      (fun _ _ _ hs _ ↦ hs) two
      [.newFiber, .schedule ⟨some 0, none, -1⟩, .setAutoStop, .clearRunning, .work false,
        .work false, .work false, .work false, .work false, .yield false .ready, .work false,
        .work false, .readQueue ()] [.readActive ()]
      (P := fun s s' ↦ decide (s.activeThreadCount = 0 ∧ s'.observer () = .atPending ∧
        ¬ Quiet s'))
      (by decide +kernel)
    exact ⟨s, s', h, h', of_decide_eq_true hP⟩
  · obtain ⟨s, s', h, h', hP⟩ := exists_run_pair (R := Of step) step (fun _ _ ↦ true)
      (fun _ _ _ hs _ ↦ hs) two
      [.addCallback 5 .read 7, .setAutoStop, .clearRunning, .trigger () 5 .read, .readQueue (),
        .readActive (), .push (), .uncount ()] [.readPending ()]
      (P := fun s s' ↦ decide (s.pendingEventCount = 0 ∧ s'.fibers ≠ []))
      (by decide +kernel)
    exact ⟨s, s', h, h', of_decide_eq_true hP⟩

end Machine

end Server
