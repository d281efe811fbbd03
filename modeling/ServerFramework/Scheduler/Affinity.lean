import ServerFramework.Scheduler.Ownership

/-!
# Tasks for a specific thread

The thread id given to `schedule` is a field of the queue entry.  An `Affinity` is a machine with a
record beside it of the thread id that each queued task, and the task that each worker took last,
was scheduled with; the record follows a task through its re-queueing, and no step depends on it.
-/

namespace Server

open Runs

/-- What `takeFirst` finds in an image is the image of what it finds. -/
theorem takeFirst_map {α β : Type} (f : α → β) (p : β → Bool) (l : List α) :
    takeFirst p (l.map f) =
      (takeFirst (fun x ↦ p (f x)) l).map fun (x, xs) ↦ (f x, xs.map f) := by
  induction l with
  | nil => rfl
  | cons x xs ih =>
      rw [List.map_cons, takeFirst, takeFirst]
      by_cases hx : p (f x) = true
      · rw [if_pos hx, if_pos hx, Option.map_some]
      · rw [if_neg hx, if_neg hx, ih, Option.map_map, Option.map_map]
        rfl

structure Affinity (W D O : Type) where
  machine : Machine W D O
  /-- the entries of `m_fibers`, each with the thread id its task was scheduled with -/
  queue : List (FiberAndThread × Int)
  /-- the thread id of the task that a worker took last -/
  pin : W → Int

namespace Affinity

variable {W D O : Type} [DecidableEq W]

def start (m : Machine W D O) : Affinity W D O := ⟨m, [], fun _ ↦ -1⟩

/-- `scheduleNoLock` of a task that was scheduled with the thread id `pin`. -/
def enqueue (queue : List (FiberAndThread × Int)) (ft : FiberAndThread) (pin : Int) :
    List (FiberAndThread × Int) :=
  if ft.nonempty then queue ++ [(ft, pin)] else queue

/-- What the scan of a worker takes. -/
def taken (s : Affinity W D O) (w : W) :
    Option ((FiberAndThread × Int) × List (FiberAndThread × Int)) :=
  takeFirst (fun e ↦ s.machine.takeable (s.machine.worker w).thread e.1) s.queue

/-- The record after a step. -/
def record (s : Affinity W D O) : Action W D O → List (FiberAndThread × Int) × (W → Int)
  | .schedule ft => (enqueue s.queue ft ft.thread, s.pin)
  | .push d =>
    match s.machine.deliverer d with
    | .pushing ft => (enqueue s.queue ft ft.thread, s.pin)
    | _ => (s.queue, s.pin)
  | .work w =>
    match (s.machine.worker w).pc with
    | .scan =>
      match s.taken w with
      | some (e, rest) => (rest, Function.update s.pin w e.2)
      | none => (s.queue, s.pin)
    -- the entry says -1, the task goes on
    | .at .requeue _ f => (enqueue s.queue (.ofFiber (some f) (-1)) (s.pin w), s.pin)
    | _ => (s.queue, s.pin)
  | _ => (s.queue, s.pin)

variable [DecidableEq D] [DecidableEq O]

def step (s : Affinity W D O) (a : Action W D O) : Option (Affinity W D O) :=
  (s.machine.step a).map fun m ↦ ⟨m, (s.record a).1, (s.record a).2⟩

/-- Every worker that is in the loop of `run` is on the thread `t`. -/
def Confined (s : Affinity W D O) (t : Int) : Prop :=
  ∀ w, (s.machine.worker w).thread = t ∨ (s.machine.worker w).pc = .exited

/-- A task that was scheduled with a thread id is not re-queued while another thread may take it. -/
def KeepsPin (s : Affinity W D O) : Action W D O → Prop
  | .work w =>
    match (s.machine.worker w).pc with
    | .at .requeue _ _ => s.pin w = -1 ∨ s.Confined (s.pin w)
    | _ => True
  | _ => True

/-! ## The invariant -/

/-- A queued task can be taken by its own thread only, and a worker has only its own tasks. -/
structure Respects (s : Affinity W D O) : Prop where
  linked : s.machine.fibers = s.queue.map Prod.fst
  queued : ∀ e ∈ s.queue, e.2 = -1 ∨ e.1.thread = e.2 ∨ s.Confined e.2
  held : ∀ w, s.pin w = -1 ∨ (s.machine.worker w).thread = s.pin w

variable {s s' : Affinity W D O} {a : Action W D O} {w : W}

omit [DecidableEq W] [DecidableEq D] [DecidableEq O] in
theorem map_enqueue (h : s.machine.fibers = s.queue.map Prod.fst) (ft : FiberAndThread) (pin : Int) :
    (scheduleNoLock s.machine.fibers ft).2 = (enqueue s.queue ft pin).map Prod.fst := by
  rw [scheduleNoLock, enqueue, h]
  split
  · rw [List.map_append]
    rfl
  · rfl

theorem mem_enqueue {queue : List (FiberAndThread × Int)} {ft : FiberAndThread} {pin : Int}
    {e : FiberAndThread × Int} (he : e ∈ enqueue queue ft pin) : e ∈ queue ∨ e = (ft, pin) := by
  rw [enqueue] at he
  split at he
  · exact (List.mem_append.mp he).imp_right List.mem_singleton.mp
  · exact .inl he

theorem Confined.step {t : Int} (h : s.Confined t) (hs : s.step a = some s') : s'.Confined t := by
  obtain ⟨m, hm, rfl⟩ := Option.map_eq_some_iff.mp hs
  intro w
  have hkept := (Machine.step_cases hm).worker_kept w
  show (m.worker w).thread = t ∨ (m.worker w).pc = .exited
  rw [hkept.1]
  exact (h w).imp_right hkept.2

/-- A step that puts nothing with a lost thread id into the queue, and gives no worker a task. -/
theorem Respects.keep (h : Respects s) (hs : s.step a = some s')
    (hlinked : s'.machine.fibers = s'.queue.map Prod.fst)
    (hqueue : ∀ e ∈ s'.queue,
      e ∈ s.queue ∨ e.2 = -1 ∨ e.1.thread = e.2 ∨ s.Confined e.2)
    (hpin : s'.pin = s.pin) : Respects s' where
  linked := hlinked
  queued := fun e he ↦ by
    have hold : e.2 = -1 ∨ e.1.thread = e.2 ∨ s.Confined e.2 := by
      rcases hqueue e he with hmem | hnew
      · exact h.queued e hmem
      · exact hnew
    exact hold.imp_right (Or.imp_right fun hc ↦ hc.step hs)
  held := fun w ↦ by
    obtain ⟨m, hm, rfl⟩ := Option.map_eq_some_iff.mp hs
    rw [hpin]
    show s.pin w = -1 ∨ (m.worker w).thread = s.pin w
    rw [((Machine.step_cases hm).worker_kept w).1]
    exact h.held w

/-- A step that schedules a task, with the thread id it names. -/
theorem Respects.schedule (h : Respects s) (hs : s.step a = some s') (ft : FiberAndThread) {t : Int}
    (hfibers : s'.machine.fibers = (scheduleNoLock s.machine.fibers ft).2)
    (hqueue : s'.queue = enqueue s.queue ft t) (hpin : s'.pin = s.pin)
    (ht : t = -1 ∨ ft.thread = t ∨ s.Confined t) : Respects s' := by
  apply h.keep hs _ _ hpin
  · rw [hfibers, hqueue, map_enqueue h.linked]
  · intro e he
    rw [hqueue] at he
    rcases mem_enqueue he with hmem | rfl
    · exact .inl hmem
    · exact .inr ht

omit [DecidableEq W] [DecidableEq D] [DecidableEq O] in
/-- A worker that takes a task is on the thread that the task was scheduled with. -/
theorem Respects.take (h : Respects s) (hpc : (s.machine.worker w).pc = .scan)
    {e : FiberAndThread × Int} {rest : List (FiberAndThread × Int)}
    (htake : s.taken w = some (e, rest)) :
    (∀ x ∈ rest, x ∈ s.queue) ∧ (e.2 = -1 ∨ (s.machine.worker w).thread = e.2) := by
  obtain ⟨hp, l, r, hqueue, hrest⟩ := takeFirst_some htake
  constructor
  · intro x hx
    rw [hrest, List.mem_append] at hx
    rw [hqueue, List.mem_append, List.mem_cons]
    exact hx.imp_right .inr
  · rw [Machine.takeable, Bool.and_eq_true, Bool.or_eq_true, beq_iff_eq, beq_iff_eq] at hp
    have hmem : e ∈ s.queue := by
      rw [hqueue]
      exact List.mem_append_right _ List.mem_cons_self
    rcases h.queued e hmem with hnone | hthread | hconf
    · exact .inl hnone
    · rw [hthread] at hp
      exact hp.1.imp_right Eq.symm
    · rcases hconf w with hthread | hexit
      · exact .inr hthread
      · rw [hpc] at hexit
        cases hexit

theorem Respects.scan (h : Respects s) (hpc : (s.machine.worker w).pc = .scan)
    (hs : s.step (.work w) = some s') : Respects s' := by
  have hstep := hs
  obtain ⟨m, hm, rfl⟩ := Option.map_eq_some_iff.mp hs
  -- the scan of the queue and that of the record take the same entry
  have htake : takeFirst (s.machine.takeable (s.machine.worker w).thread) s.machine.fibers =
      (s.taken w).map fun (e, rest) ↦ (e.1, rest.map Prod.fst) := by
    rw [h.linked, takeFirst_map]
    rfl
  have hfibers : m.fibers =
      match s.taken w with
      | some (_, rest) => rest.map Prod.fst
      | none => s.queue.map Prod.fst := by
    cases Machine.work_cases hm with
    | took _ _ hsome =>
        rw [htake] at hsome
        obtain ⟨⟨e, rest⟩, heq, hft⟩ := Option.map_eq_some_iff.mp hsome
        cases hft
        rw [heq]
        rfl
    | foundNone _ _ hnone =>
        rw [htake, Option.map_eq_none_iff] at hnone
        rw [hnone]
        exact h.linked
    | _ hpc' => rw [hpc] at hpc'; cases hpc'
  cases htaken : s.taken w with
  | none =>
      have hrec : s.record (.work w) = (s.queue, s.pin) := by simp only [record, hpc, htaken]
      rw [htaken] at hfibers
      rw [hrec] at hstep ⊢
      exact h.keep hstep hfibers (fun e he ↦ .inl he) rfl
  | some taken =>
      obtain ⟨e, rest⟩ := taken
      have hrec : s.record (.work w) = (rest, Function.update s.pin w e.2) := by
        simp only [record, hpc, htaken]
      obtain ⟨hrest, hpin⟩ := h.take hpc htaken
      have hkept := (Machine.step_cases hm).worker_kept
      rw [htaken] at hfibers
      rw [hrec] at hstep ⊢
      refine ⟨hfibers, fun x hx ↦ ?_, fun v ↦ ?_⟩
      · exact (h.queued x (hrest x hx)).imp_right (Or.imp_right fun hc ↦ hc.step hstep)
      · show Function.update s.pin w e.2 v = -1 ∨
          (m.worker v).thread = Function.update s.pin w e.2 v
        rw [(hkept v).1]
        by_cases hv : v = w
        · subst hv
          rw [Function.update_self]
          exact hpin
        · rw [Function.update_of_ne hv]
          exact h.held v

/-- A worker that is not scanning changes the queue only when it re-queues a fiber. -/
theorem Respects.work (h : Respects s) (hok : s.KeepsPin (.work w))
    (hpc : (s.machine.worker w).pc ≠ .scan) (hs : s.step (.work w) = some s') : Respects s' := by
  have hstep := hs
  obtain ⟨m, hm, rfl⟩ := Option.map_eq_some_iff.mp hs
  have hother : (∀ role f, (s.machine.worker w).pc ≠ .at .requeue role f) →
      s.record (.work w) = (s.queue, s.pin) := by
    intro hre
    unfold record
    dsimp only
    split
    · rename_i hscan
      exact absurd hscan hpc
    · rename_i role f hrequeue
      exact absurd hrequeue (hre role f)
    · rfl
  have hkeep : m.fibers = s.machine.fibers →
      (∀ role f, (s.machine.worker w).pc ≠ .at .requeue role f) →
      Respects ⟨m, (s.record (.work w)).1, (s.record (.work w)).2⟩ := by
    intro hfibers hre
    rw [hother hre] at hstep ⊢
    exact h.keep hstep (hfibers.trans h.linked) (fun e he ↦ .inl he) rfl
  cases Machine.work_cases hm with
  | took hscan => exact absurd hscan hpc
  | foundNone hscan => exact absurd hscan hpc
  | @requeued role f hre =>
      have hrec : s.record (.work w) =
          (enqueue s.queue (.ofFiber (some f) (-1)) (s.pin w), s.pin) := by
        simp only [record, hre]
      have hpin : s.pin w = -1 ∨ s.Confined (s.pin w) := by
        simp only [KeepsPin, hre] at hok
        exact hok
      rw [hrec] at hstep ⊢
      exact h.schedule hstep (.ofFiber (some f) (-1)) rfl rfl rfl (hpin.imp_right .inr)
  | _ hpc' => exact hkeep rfl fun _ _ hre ↦ by rw [hpc'] at hre; cases hre

theorem Respects.step (h : Respects s) (hok : s.KeepsPin a) (hs : s.step a = some s') :
    Respects s' := by
  have hstep := hs
  obtain ⟨m, hm, rfl⟩ := Option.map_eq_some_iff.mp hs
  cases Machine.step_cases hm with
  | scheduled => exact h.schedule hstep _ rfl rfl rfl (.inr (.inl rfl))
  | @pushed d ft hd =>
      have hrec : s.record (.push d) = (enqueue s.queue ft ft.thread, s.pin) := by
        simp only [record, hd]
      exact h.schedule hstep ft rfl (congrArg Prod.fst hrec) (congrArg Prod.snd hrec) (.inr (.inl rfl))
  | @worked w =>
      by_cases hpc : (s.machine.worker w).pc = .scan
      · exact h.scan hpc hstep
      · exact h.work hok hpc hstep
  | _ => exact h.keep hstep h.linked (fun e he ↦ .inl he) rfl

omit [DecidableEq W] [DecidableEq D] [DecidableEq O] in
theorem start_respects (thread : W → Int) :
    Respects (start (Machine.start thread : Machine W D O)) :=
  ⟨rfl, nofun, fun _ ↦ .inl rfl⟩

/-- The steps that re-queue a task with a thread id only where no other thread can take it. -/
def Pinned : Affinity W D O → Action W D O → Affinity W D O → Prop :=
  Guarded (Of step) KeepsPin

/-- The fiber that a worker executes, with the thread id its task was scheduled with. -/
def executing (s : Affinity W D O) (w : W) : Option (FiberId × Int) :=
  match (s.machine.worker w).pc with
  | .at .running _ f => some (f, s.pin w)
  | .at .leaving _ f => some (f, s.pin w)
  | _ => none

omit [DecidableEq W] [DecidableEq D] [DecidableEq O] in
theorem pin_of_executing {f : FiberId} {t : Int} (h : s.executing w = some (f, t)) :
    s.pin w = t := by
  unfold executing at h
  split at h
  all_goals cases h
  all_goals rfl

/-- Every portion of a task that was scheduled with a thread id is executed on that thread. -/
theorem executes_on_its_thread {thread : W → Int} {as : List (Action W D O)}
    (h : Run Pinned (start (Machine.start thread)) as s) (w : W) {f : FiberId} {t : Int}
    (hexec : s.executing w = some (f, t)) (ht : t ≠ -1) : (s.machine.worker w).thread = t := by
  have hrespects : Respects s :=
    h.invariant (fun _ _ _ hs hstep ↦ hs.step hstep.2 hstep.1) (start_respects thread)
  rw [← pin_of_executing hexec] at ht ⊢
  exact (hrespects.held w).resolve_left ht

/-! ## Runs on fixed inputs -/

/-- The condition of `Pinned`, as a test. -/
def keepsPin [Fintype W] (s : Affinity W D O) : Action W D O → Bool
  | .work w =>
    match (s.machine.worker w).pc with
    | .at .requeue _ _ =>
      decide (s.pin w = -1 ∨
        ∀ v, (s.machine.worker v).thread = s.pin w ∨ (s.machine.worker v).pc = .exited)
    | _ => true
  | _ => true

omit [DecidableEq W] [DecidableEq D] [DecidableEq O] in
theorem keepsPin_spec [Fintype W] (h : s.keepsPin a = true) : s.KeepsPin a := by
  unfold KeepsPin
  split
  · split
    · rename_i w hpc
      simp only [keepsPin, hpc, decide_eq_true_eq] at h
      exact h
    · trivial
  · trivial

abbrev two : Affinity Bool Unit Unit := start Machine.two

/-- Two tasks, one of them for the thread 2; the other one yields `READY` and is taken by the worker
on the thread 2 as well. -/
theorem executes_on_its_thread_two : ∃ s : Affinity Bool Unit Unit,
    Run Pinned two
      [.newFiber, .newFiber, .schedule ⟨some 0, none, 2⟩, .schedule ⟨some 1, none, -1⟩,
        .work false, .work false, .work false, .work false, .work false, .yield false .ready,
        .work false, .work false, .work false, .work false, .work true, .work true, .work true,
        .work true, .work true] s ∧
      s.executing true = some (0, 2) ∧ (s.machine.worker true).thread = 2 := by
  obtain ⟨s, h, hP⟩ := exists_run (R := Pinned) step keepsPin
    (fun _ _ _ hs hok ↦ ⟨hs, keepsPin_spec hok⟩) two
    [.newFiber, .newFiber, .schedule ⟨some 0, none, 2⟩, .schedule ⟨some 1, none, -1⟩,
      .work false, .work false, .work false, .work false, .work false, .yield false .ready,
      .work false, .work false, .work false, .work false, .work true, .work true, .work true,
      .work true, .work true]
    (P := fun s ↦ decide (s.executing true = some (0, 2))) (by decide +kernel)
  have hexec := of_decide_eq_true hP
  exact ⟨s, h, hexec, executes_on_its_thread h true hexec (by decide)⟩

/-- A fiber scheduled for the thread 1 yields `READY`, and goes on on the thread 2. -/
theorem executes_elsewhere : ∃ s : Affinity Bool Unit Unit,
    Run (Of step) two
      [.newFiber, .schedule ⟨some 0, none, 1⟩, .work false, .work false, .work false, .work false,
        .work false, .yield false .ready, .work false, .work false, .work false, .work false,
        .work true, .work true, .work true, .work true, .work true] s ∧
      s.executing true = some (0, 1) ∧ (s.machine.worker true).thread = 2 := by
  obtain ⟨s, h, hP⟩ := exists_run (R := Of step) step (fun _ _ ↦ true) (fun _ _ _ hs _ ↦ hs) two
    [.newFiber, .schedule ⟨some 0, none, 1⟩, .work false, .work false, .work false, .work false,
      .work false, .yield false .ready, .work false, .work false, .work false, .work false,
      .work true, .work true, .work true, .work true, .work true]
    (P := fun s ↦ decide (s.executing true = some (0, 1) ∧ (s.machine.worker true).thread = 2))
    (by decide +kernel)
  exact ⟨s, h, of_decide_eq_true hP⟩

end Affinity

end Server
