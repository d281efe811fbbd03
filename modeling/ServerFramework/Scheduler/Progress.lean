import ServerFramework.Scheduler.Shutdown
import ServerFramework.Scheduler.Reuse

/-!
# The way to the end of `stop`

`stop()` waits for the workers, a worker for `stopped()`, and `stopped()` for the flags that
`stop()` writes, for the queue and for all other workers.  However the threads were interleaved
before, they can always go on so that `stop()` returns: a weight of each state says how far it still
is, and from every state a few steps lead to a lighter one.
-/

namespace Server

open Runs Counter

variable {W : Type}

/-- A step that brings nothing new up: no fiber is made, nothing is scheduled, and a fiber that
executes ends. -/
def Act.Closing : Act W → Prop
  | .newFiber => False
  | .schedule .. => False
  | .yield _ y => y = .term
  | _ => True

/-- How far a worker is from its exit while it has a fiber.  One that may still be queued again adds
an entry, and with it up to four for each of the `n` workers that have to scan once more. -/
def Stage.weight (n : Nat) : Stage → Nat
  | .check => 14
  | .mark => 13
  | .switchIn => 12
  | .running => 11
  | .leaving => 24 + 4 * n
  | .returned => 23 + 4 * n
  | .examine => 22 + 4 * n
  | .requeue => 21 + 4 * n
  | .hold => 7
  | .retire => 7

/-- How far it is in any state, which depends on whether the queue is empty and where it is in
`stopped()`. -/
def Worker.weight (n : Nat) (empty : Bool) (o : Observer) (wk : Worker) : Nat :=
  match wk.pc with
  | .scan => if wk.idleDone then 2 else 6
  | .dispatch _ true => 15
  | .dispatch _ false => if wk.idleDone then 1 else if empty then 5 else 8
  | .at stage _ _ => stage.weight n
  | .idle =>
    if empty then
      match o with
      | .atActive => 5
      | .out => 4
      | .atPending => 3
    else 7
  | .exited => 0

/-- How far `stop` is from its waits, and from their ends. -/
def StopPc.weight : StopPc → Observer → Nat
  | .outside, _ => 9
  | .entered, _ => 8
  | .early, .out => 7
  | .early, _ => 6
  | .late, .out => 5
  | .late, _ => 4
  | .inRoot, _ => 3
  | .joining, _ => 2
  | .returned, _ => 0

/-- What comes into the queue weighs on the workers by four at most. -/
theorem Worker.weight_le {n k : Nat} {empty empty' : Bool} {o : Observer} (wk : Worker)
    (h : (empty = true → empty' = true) ∨ k = 4) :
    wk.weight n empty' o ≤ wk.weight n empty o + k := by
  unfold weight
  cases wk.pc with
  | dispatch ft isActive =>
      cases isActive with
      | true => simp
      | false => cases empty <;> cases empty' <;> cases wk.idleDone <;> simp at h ⊢ <;> omega
  | idle => cases empty <;> cases empty' <;> cases o <;> simp at h ⊢ <;> omega
  | _ => simp

namespace Shutdown

variable [DecidableEq W] [Fintype W] {root : Option W} {s s' t : Shutdown W} {a : Act W} {w : W}

/-! ## `stopped()`, and what `stop` has written -/

structure Asking (s : Shutdown W) : Prop where
  holder : ∀ o, s.machine.mutex = some o → s.machine.observer o = .atActive
  idle : ∀ w, s.machine.observer (some w) = .atActive → (s.machine.worker w).pc = .idle
  caller : s.machine.observer none = .atActive → s.stop = .early ∨ s.stop = .late
  told : s.machine.observer none = .atPending →
    s.stop = .inRoot ∨ s.stop = .joining ∨ s.stop = .returned
  called : s.stop ≠ .outside → s.machine.autoStop = true
  cleared : s.stop ≠ .outside → s.stop ≠ .entered → s.machine.isRunning = false

theorem plan_of_step (hs : s.step root a = some s') :
    (∃ b, s.plan root a = some (some b, s'.stop) ∧ s.machine.step b = some s'.machine) ∨
      ∃ pc, s.plan root a = some (none, pc) ∧ s' = { s with stop := pc } := by
  unfold step at hs
  split at hs
  · cases hs
  · rename_i pc hplan
    cases hs
    exact .inr ⟨pc, hplan, rfl⟩
  · rename_i b pc hplan
    obtain ⟨m, hm, rfl⟩ := Option.map_eq_some_iff.mp hs
    exact .inl ⟨b, hplan, hm⟩

/-- A worker in `idle` goes on after a test that came out false only. -/
theorem out_of_work {b : Action W Empty (Option W)} {pc : StopPc}
    (hplan : s.plan root (.work w) = some (some b, pc)) (hpc : (s.machine.worker w).pc = .idle) :
    s.machine.observer (some w) = .out := by
  unfold plan at hplan
  dsimp only at hplan
  split at hplan
  · rename_i hcond
    exact hcond.2 hpc
  · cases hplan

theorem idle_of_testQueue {b : Action W Empty (Option W)} {pc : StopPc}
    (hplan : s.plan root (.testQueue w) = some (some b, pc)) : (s.machine.worker w).pc = .idle := by
  unfold plan at hplan
  dsimp only at hplan
  split at hplan
  · assumption
  · cases hplan

theorem step_of_plan {b : Action W Empty (Option W)} {pc : StopPc} {m : Machine W Empty (Option W)}
    (hplan : s.plan root a = some (some b, pc)) (hm : s.machine.step b = some m) :
    s.step root a = some ⟨m, pc, s.machine.vehicles s.vehicle b⟩ := by
  unfold step
  rw [hplan]
  simp only [hm, Option.map_some]

theorem step_of_end {pc : StopPc} (hplan : s.plan root a = some (none, pc)) :
    s.step root a = some { s with stop := pc } := by
  unfold step
  rw [hplan]

omit [DecidableEq W] [Fintype W] in
/-- Neither the flags nor the observers change, and the workers in `idle` stay there. -/
theorem Asking.congr (h : Asking s) (hstop : s'.stop = s.stop)
    (hmutex : s'.machine.mutex = s.machine.mutex)
    (hobserver : s'.machine.observer = s.machine.observer)
    (hauto : s'.machine.autoStop = s.machine.autoStop)
    (hrunning : s'.machine.isRunning = s.machine.isRunning)
    (hidle : ∀ w, s.machine.observer (some w) = .atActive → (s'.machine.worker w).pc = .idle) :
    Asking s' where
  holder := by
    rw [hmutex, hobserver]
    exact h.holder
  idle := by
    rw [hobserver]
    exact hidle
  caller := by
    rw [hobserver, hstop]
    exact h.caller
  told := by
    rw [hobserver, hstop]
    exact h.told
  called := by
    rw [hauto, hstop]
    exact h.called
  cleared := by
    rw [hrunning, hstop]
    exact h.cleared

omit [Fintype W] in
/-- One worker moves that is not between the two reads of `stopped()`. -/
theorem Asking.moved (h : Asking s) (hstop : s'.stop = s.stop)
    (hmutex : s'.machine.mutex = s.machine.mutex)
    (hobserver : s'.machine.observer = s.machine.observer)
    (hauto : s'.machine.autoStop = s.machine.autoStop)
    (hrunning : s'.machine.isRunning = s.machine.isRunning) {wk : Worker}
    (hworker : s'.machine.worker = Function.update s.machine.worker w wk)
    (hout : s.machine.observer (some w) ≠ .atActive) : Asking s' := by
  refine h.congr hstop hmutex hobserver hauto hrunning fun x hx ↦ ?_
  have hxw : x ≠ w := fun heq ↦ hout (heq ▸ hx)
  rw [hworker, Function.update_of_ne hxw]
  exact h.idle x hx

omit [Fintype W] in
/-- One thread moves in `stopped()`, and no other is between the two reads. -/
theorem asking_observed {o : Option W} {v : Observer}
    (hobserver : s'.machine.observer = Function.update s.machine.observer o v)
    (hothers : ∀ p, p ≠ o → s.machine.observer p ≠ .atActive)
    (hmutex : ∀ p, s'.machine.mutex = some p → p = o ∧ v = .atActive)
    (hidle : ∀ w, o = some w → (s'.machine.worker w).pc = .idle)
    (hcaller : s'.machine.observer none = .atActive → s'.stop = .early ∨ s'.stop = .late)
    (htold : s'.machine.observer none = .atPending →
      s'.stop = .inRoot ∨ s'.stop = .joining ∨ s'.stop = .returned)
    (hcalled : s'.stop ≠ .outside → s'.machine.autoStop = true)
    (hcleared : s'.stop ≠ .outside → s'.stop ≠ .entered → s'.machine.isRunning = false) :
    Asking s' where
  holder := fun p hp ↦ by
    obtain ⟨rfl, rfl⟩ := hmutex p hp
    rw [hobserver, Function.update_self]
  idle := fun w hw ↦ by
    by_cases hwo : some w = o
    · exact hidle w hwo.symm
    · rw [hobserver, Function.update_of_ne hwo] at hw
      exact absurd hw (hothers _ hwo)
  caller := hcaller
  told := htold
  called := hcalled
  cleared := hcleared

omit [DecidableEq W] [Fintype W] in
theorem others_of_free (hasked : s.machine.Asked) (hm : s.machine.mutex = none) (o : Option W) :
    s.machine.observer o ≠ .atActive := by
  intro ho
  rw [hasked.locked o ho] at hm
  cases hm

omit [DecidableEq W] [Fintype W] in
theorem others_of_held (hasked : s.machine.Asked) {o : Option W}
    (ho : s.machine.observer o = .atActive) (p : Option W) (hp : p ≠ o) :
    s.machine.observer p ≠ .atActive := by
  intro hact
  exact hp (Option.some.inj ((hasked.locked p hact).symm.trans (hasked.locked o ho)))

omit [DecidableEq W] [Fintype W] in
/-- Before `stop` is in `stopped()` its thread has read nothing. -/
theorem Asking.out (h : Asking s) (hstop : s.stop = .outside ∨ s.stop = .entered) :
    s.machine.observer none = .out := by
  cases ho : s.machine.observer none with
  | out => rfl
  | atActive =>
      rcases h.caller ho with heq | heq <;> simp [heq] at hstop
  | atPending =>
      rcases h.told ho with heq | heq | heq <;> simp [heq] at hstop

variable {m : Machine W Empty (Option W)} {pc : StopPc} {v : FiberId → Option Callback}

omit [Fintype W] in
/-- `stop` goes on from `stopped()`, up to the test of the queue. -/
theorem Asking.asked (h : Asking s) (hasked : s.machine.Asked)
    (hstop : s.stop ≠ .outside ∧ s.stop ≠ .entered) (ho : s.machine.observer none = .out)
    (hm : s.machine.step (.readQueue none) = some m)
    (hpc : s.machine.drained = true → pc = .early ∨ pc = .late) : Asking ⟨m, pc, v⟩ := by
  have hcalled := h.called hstop.1
  have hcleared := h.cleared hstop.1 hstop.2
  cases Machine.step_cases hm with
  | queueRead _ hfree hdrained =>
      refine asking_observed (s := s) (o := none) rfl (fun p _ ↦ others_of_free hasked hfree p)
        (fun p hp ↦ ⟨(Option.some.inj hp).symm, rfl⟩) nofun (fun _ ↦ hpc hdrained) (fun hpend ↦ ?_)
        (fun _ ↦ hcalled) fun _ _ ↦ hcleared
      simp [Machine.setObserver] at hpend
  | queueReadFalse =>
      refine ⟨h.holder, h.idle, fun hact ↦ ?_, fun hpend ↦ ?_, fun _ ↦ hcalled, fun _ _ ↦ hcleared⟩
      · simp [ho] at hact
      · simp [ho] at hpend

omit [Fintype W] in
/-- It goes on from the end of `stopped()`. -/
theorem Asking.answered (h : Asking s) (hasked : s.machine.Asked)
    (hstop : s.stop ≠ .outside ∧ s.stop ≠ .entered)
    (hm : s.machine.step (.readActive none) = some m)
    (hpc : s.machine.activeThreadCount = 0 → pc = .joining ∨ pc = .returned) :
    Asking ⟨m, pc, v⟩ := by
  cases Machine.step_cases hm with
  | activeRead ho =>
      refine asking_observed (s := s) (o := none) rfl (others_of_held hasked ho) nofun nofun
        (fun hact ↦ ?_) (fun hpend ↦ ?_) (fun _ ↦ h.called hstop.1) fun _ _ ↦
          h.cleared hstop.1 hstop.2
      · simp only [Machine.setObserver, Function.update_self] at hact
        split at hact <;> cases hact
      · simp only [Machine.setObserver, Function.update_self] at hpend
        split at hpend
        · rename_i hzero
          exact .inr (hpc hzero)
        · cases hpend

omit [DecidableEq W] [Fintype W] in
theorem Asking.ended (h : Asking s) (hstop : s.stop = .inRoot ∨ s.stop = .joining)
    (hpc : pc = .joining ∨ pc = .returned) : Asking { s with stop := pc } := by
  have hout : s.stop ≠ .outside ∧ s.stop ≠ .entered := by
    rcases hstop with hstop | hstop <;> simp [hstop]
  refine ⟨h.holder, h.idle, fun hact ↦ ?_, fun _ ↦ .inr hpc, fun _ ↦ h.called hout.1,
    fun _ _ ↦ h.cleared hout.1 hout.2⟩
  rcases h.caller hact with heq | heq <;> simp [heq] at hstop

/-- The steps of `stop` that are steps of the machine. -/
theorem Asking.stopped (h : Asking s) (hasked : s.machine.Asked) {b : Action W Empty (Option W)}
    (hplan : s.stopStep root = some (some b, pc)) (hm : s.machine.step b = some m) :
    Asking ⟨m, pc, v⟩ := by
  unfold stopStep at hplan
  cases hstop : s.stop with
  | outside =>
      -- the caller asks nothing yet, so the other clauses are empty
      simp only [hstop] at hplan
      cases hplan
      cases hm
      have ho := h.out (.inl hstop)
      refine ⟨h.holder, h.idle, fun hact ↦ ?_, fun hpend ↦ ?_, fun _ ↦ rfl,
        fun _ hne ↦ absurd rfl hne⟩
      · exact nomatch ho.symm.trans hact
      · exact nomatch ho.symm.trans hpend
  | entered =>
      simp only [hstop] at hplan
      cases hplan
      cases hm
      have ho := h.out (.inr hstop)
      refine ⟨h.holder, h.idle, fun hact ↦ ?_, fun hpend ↦ ?_, fun _ ↦ ?_, fun _ _ ↦ rfl⟩
      · exact nomatch ho.symm.trans hact
      · exact nomatch ho.symm.trans hpend
      · exact h.called (by rw [hstop]; nofun)
  | early =>
      have hout : s.stop ≠ .outside ∧ s.stop ≠ .entered := by simp [hstop]
      simp only [hstop] at hplan
      cases ho : s.machine.observer none with
      | out =>
          simp only [ho] at hplan
          cases hplan
          exact h.asked hasked hout ho hm fun hdrained ↦ .inl (if_pos hdrained)
      | atActive =>
          simp only [ho] at hplan
          cases hplan
          exact h.answered hasked hout hm fun hzero ↦ .inr (if_pos hzero)
      | atPending => simp [ho] at hplan
  | late =>
      have hout : s.stop ≠ .outside ∧ s.stop ≠ .entered := by simp [hstop]
      simp only [hstop] at hplan
      cases ho : s.machine.observer none with
      | out =>
          simp only [ho] at hplan
          cases hplan
          exact h.asked hasked hout ho hm fun hdrained ↦ .inr (if_pos hdrained)
      | atActive =>
          simp only [ho] at hplan
          cases hplan
          exact h.answered hasked hout hm fun hzero ↦ .inl (if_pos hzero)
      | atPending => simp [ho] at hplan
  | inRoot | joining =>
      simp only [hstop] at hplan
      split at hplan <;> cases hplan
  | returned => simp [hstop] at hplan

theorem Asking.step (h : Asking s) (hasked : s.machine.Asked) (hs : s.step root a = some s') :
    Asking s' := by
  have hsame : ∀ {m : Machine W Empty (Option W)} {v : FiberId → Option Callback},
      m.mutex = s.machine.mutex → m.observer = s.machine.observer →
      m.autoStop = s.machine.autoStop → m.isRunning = s.machine.isRunning →
      m.worker = s.machine.worker → Asking ⟨m, s.stop, v⟩ :=
    fun hmutex hobserver hauto hrunning hworker ↦
      h.congr rfl hmutex hobserver hauto hrunning fun w hw ↦ by
        dsimp only
        rw [hworker]
        exact h.idle w hw
  obtain ⟨m, pc, v⟩ := s'
  rcases plan_of_step hs with ⟨b, hplan, hm⟩ | ⟨pc, hplan, heq⟩
  · dsimp only at hplan hm
    cases does_of_plan hplan with
    | newFiber =>
        cases Machine.step_cases hm
        exact hsame rfl rfl rfl rfl rfl
    | outside =>
        cases Machine.step_cases hm
        exact hsame rfl rfl rfl rfl rfl
    | nested =>
        cases Machine.step_cases hm
        exact hsame rfl rfl rfl rfl rfl
    | @work w =>
        have hw := Machine.work_cases hm
        obtain ⟨hobserver, hmutex, -, -⟩ := Machine.worked_frame hw
        obtain ⟨-, wk, hworker, -⟩ := hw.worker_eq
        have hrunning : m.isRunning = s.machine.isRunning := by cases hw <;> rfl
        refine h.moved rfl hmutex hobserver hw.autoStop_eq hrunning hworker fun hact ↦ ?_
        -- a worker between the two reads is in `idle`
        rw [out_of_work hplan (h.idle w hact)] at hact
        cases hact
    | yield =>
        cases Machine.step_cases hm with
        | yielded hpc =>
            refine h.moved rfl rfl rfl rfl rfl rfl fun hact ↦ ?_
            rw [h.idle _ hact] at hpc
            cases hpc
    | @testQueue w =>
        have hidle := idle_of_testQueue hplan
        cases Machine.step_cases hm with
        | queueRead _ hfree hdrained =>
            refine asking_observed (s := s) (o := some w) rfl
              (fun p _ ↦ others_of_free hasked hfree p)
              (fun p hp ↦ ⟨(Option.some.inj hp).symm, rfl⟩) (fun x hx ↦ Option.some.inj hx ▸ hidle)
              (fun hact ↦ h.caller ?_) (fun hpend ↦ h.told ?_) h.called h.cleared
            · simpa [Machine.setObserver] using hact
            · simpa [Machine.setObserver] using hpend
        | queueReadFalse => exact hsame rfl rfl rfl rfl rfl
    | @testActive w =>
        cases Machine.step_cases hm with
        | activeRead ho =>
            refine asking_observed (s := s) (o := some w) rfl (others_of_held hasked ho) nofun
              (fun x hx ↦ Option.some.inj hx ▸ h.idle w ho) (fun hact ↦ h.caller ?_)
              (fun hpend ↦ h.told ?_) h.called h.cleared
            · simpa [Machine.setObserver] using hact
            · simpa [Machine.setObserver] using hpend
    | idleEnd hpend =>
        cases Machine.step_cases hm with
        | idleEnded =>
            refine h.moved rfl rfl rfl rfl rfl rfl fun hact ↦ ?_
            rw [hpend] at hact
            cases hact
    | _ => exact h.stopped hasked hplan hm
  · rw [heq]
    rcases (ended_of_plan hplan).2 with ⟨hin, rfl, -⟩ | ⟨hjoin, rfl, -⟩
    · exact h.ended (.inl hin) (.inl rfl)
    · exact h.ended (.inr hjoin) (.inr rfl)

omit [DecidableEq W] [Fintype W] in
theorem start_asking (thread : W → Int) : Asking (start thread) where
  holder := nofun
  idle := nofun
  caller := nofun
  told := nofun
  called := fun hne ↦ absurd rfl hne
  cleared := fun hne ↦ absurd rfl hne

/-! ## How far it is -/

/-- How far `stop` is from its return. -/
def weight (s : Shutdown W) : Nat :=
  -- an entry that is taken gives its weight to the worker, which goes from 2 or 6 to 15
  14 * s.machine.fibers.length +
    ∑ w, (s.machine.worker w).weight (Fintype.card W) s.machine.fibers.isEmpty
      (s.machine.observer (some w)) +
    s.stop.weight (s.machine.observer none)

omit [DecidableEq W] in
/-- One worker moves, and the queue changes. -/
theorem weight_lt {k : Nat} (hstop : s'.stop = s.stop)
    (hcaller : s'.machine.observer none = s.machine.observer none)
    (hworker : ∀ x, x ≠ w → s'.machine.worker x = s.machine.worker x)
    (hobserver : ∀ x, x ≠ w → s'.machine.observer (some x) = s.machine.observer (some x))
    (hk : (s.machine.fibers.isEmpty = true → s'.machine.fibers.isEmpty = true) ∨ k = 4)
    (hlt : 14 * s'.machine.fibers.length + (s'.machine.worker w).weight (Fintype.card W)
        s'.machine.fibers.isEmpty (s'.machine.observer (some w)) + k * Fintype.card W <
      14 * s.machine.fibers.length + (s.machine.worker w).weight (Fintype.card W)
        s.machine.fibers.isEmpty (s.machine.observer (some w))) : s'.weight < s.weight := by
  have hsum := sum_change_le (k := k)
    (f := fun x ↦ (s'.machine.worker x).weight (Fintype.card W) s'.machine.fibers.isEmpty
      (s'.machine.observer (some x)))
    (g := fun x ↦ (s.machine.worker x).weight (Fintype.card W) s.machine.fibers.isEmpty
      (s.machine.observer (some x))) w fun x hx ↦ by
        rw [hworker x hx, hobserver x hx]
        exact Worker.weight_le _ hk
  unfold weight
  rw [hstop, hcaller]
  omega

/-- What every step keeps. -/
structure Due (root : Option W) (s : Shutdown W) : Prop where
  ok : Ok root s
  hand : s.machine.InHand
  counted : s.machine.Counted
  asking : Asking s

theorem Due.step [Nonempty W] (h : Due root s) (hs : s.step root a = some s') : Due root s' := by
  have hasking := h.asking.step h.ok.asked hs
  have hok := h.ok.step hs
  rcases step_cases hs with ⟨b, hdoes, hm, -⟩ | ⟨stop, -, rfl⟩
  · exact ⟨hok, h.hand.step hdoes.plain.exclusive hm, h.counted.step hm, hasking⟩
  · exact ⟨hok, h.hand, h.counted, hasking⟩

omit [DecidableEq W] in
theorem start_due (thread : W → Int) : Due root (start thread) where
  ok := start_ok thread
  hand := Machine.start_inHand thread
  counted := Machine.start_counted thread
  asking := start_asking thread

omit [Fintype W] in
/-- An empty scan leads to the idle fiber, or out of `run`. -/
theorem work_empty (hpc : (s.machine.worker w).pc = .dispatch ⟨none, none, -1⟩ false)
    (hm : s.machine.work w = some m) :
    m = s.machine.setPc w (if (s.machine.worker w).idleDone then .exited else .idle) := by
  unfold Machine.work at hm
  rw [hpc] at hm
  exact (Option.some.inj hm).symm

/-- A step of `run` makes the state lighter, except from `idle` with the queue empty. -/
theorem Due.works (h : Due root s) (hm : s.machine.work w = some m)
    (hidle : (s.machine.worker w).pc = .idle → s.machine.fibers ≠ []) :
    (⟨m, s.stop, v⟩ : Shutdown W).weight < s.weight := by
  have hw := Machine.work_cases hm
  have hobserver := (Machine.worked_frame hw).1
  -- a step that changes the queue, or lets others look at it again
  have hgo : ∀ {wk : Worker} (fibers : List FiberAndThread) (k : Nat),
      m.worker = Function.update s.machine.worker w wk → m.fibers = fibers →
      ((s.machine.fibers.isEmpty = true → fibers.isEmpty = true) ∨ k = 4) →
      14 * fibers.length +
          wk.weight (Fintype.card W) fibers.isEmpty (s.machine.observer (some w)) +
          k * Fintype.card W <
        14 * s.machine.fibers.length + (s.machine.worker w).weight (Fintype.card W)
          s.machine.fibers.isEmpty (s.machine.observer (some w)) →
      (⟨m, s.stop, v⟩ : Shutdown W).weight < s.weight := by
    rintro wk fibers k hworker rfl hk hlt
    refine weight_lt (w := w) rfl (congrFun hobserver none) (fun x hx ↦ ?_)
      (fun x _ ↦ congrFun hobserver _) hk ?_
    · rw [hworker, Function.update_of_ne hx]
    · rwa [hworker, Function.update_self, hobserver]
  -- a step that leaves the queue as it is
  have hsame : ∀ {wk : Worker}, m.worker = Function.update s.machine.worker w wk →
      m.fibers = s.machine.fibers →
      wk.weight (Fintype.card W) s.machine.fibers.isEmpty (s.machine.observer (some w)) <
        (s.machine.worker w).weight (Fintype.card W) s.machine.fibers.isEmpty
          (s.machine.observer (some w)) →
      (⟨m, s.stop, v⟩ : Shutdown W).weight < s.weight := by
    intro wk hworker hq hlt
    refine hgo _ 0 hworker hq (.inl id) ?_
    omega
  cases hw with
  | took hpc _ htake =>
      obtain ⟨-, l, l', hl, hrest⟩ := takeFirst_some htake
      refine hgo (l ++ l') 0 rfl hrest (.inl fun hempty ↦ by simp [hl] at hempty) ?_
      simp [Worker.weight, hpc, hl]
      split <;> omega
  | foundNone hpc _ hnone =>
      -- a scan that takes nothing saw the queue empty
      refine hsame rfl rfl ?_
      simp only [Worker.weight, hpc, h.ok.inOrder.takes hnone]
      split <;> simp
  | resumed hpc hf _ =>
      obtain rfl := h.counted.isActive hpc (FiberAndThread.nonempty_of_fiber hf)
      exact hsame rfl rfl (by simp [Worker.weight, Stage.weight, hpc])
  | reused hpc _ hcb _ _ =>
      obtain rfl := h.counted.isActive hpc (FiberAndThread.nonempty_of_cb hcb)
      exact hsame rfl rfl (by simp [Worker.weight, Stage.weight, hpc])
  | made hpc _ hcb _ =>
      obtain rfl := h.counted.isActive hpc (FiberAndThread.nonempty_of_cb hcb)
      exact hsame rfl rfl (by simp [Worker.weight, Stage.weight, hpc])
  | dropped hpc _ _ =>
      refine hsame rfl rfl ?_
      simp only [Worker.weight, hpc]
      split <;> omega
  | @idled ft pc hpc _ _ _ =>
      rw [h.counted.inactive w ft hpc] at hpc
      -- a worker between the two reads of `stopped()` is in `idle`
      have hout : s.machine.observer (some w) ≠ .atActive := fun hact ↦ by
        simpa [hpc] using h.asking.idle w hact
      rw [work_empty hpc hm] at hsame ⊢
      refine hsame rfl rfl ?_
      cases hdone : (s.machine.worker w).idleDone with
      | true => simp [Worker.weight, hpc, hdone]
      | false =>
          simp only [Worker.weight, hpc, hdone]
          cases s.machine.fibers.isEmpty <;> cases ho : s.machine.observer (some w) <;>
            simp [ho] at hout ⊢
  | checked hpc _ | marked hpc | switchedIn hpc | switchedOut hpc | decremented hpc =>
      exact hsame rfl rfl (by simp [Worker.weight, Stage.weight, hpc])
  | @examined role f hpc =>
      refine hsame rfl rfl ?_
      unfold Machine.examined
      split
      · simp [Worker.weight, Stage.weight, hpc]
      · split
        · cases role with
          | task =>
              simp only [Worker.weight, Stage.weight, hpc]
              split <;> omega
          | callback =>
              simp only [Worker.weight, Stage.weight, hpc]
              omega
        · simp only [Worker.weight, Stage.weight, hpc]
          omega
  | @requeued role f hpc _ =>
      -- the others may have to look at the queue again
      refine hgo (s.machine.fibers ++ [.ofFiber (some f) (-1)]) 4 rfl rfl (.inr rfl) ?_
      simp [Worker.weight, Stage.weight, hpc]
      split <;> omega
  | held hpc | retired hpc _ =>
      refine hsame rfl rfl ?_
      simp only [Worker.weight, Stage.weight, hpc]
      split <;> omega
  | awoke hpc =>
      refine hsame rfl rfl ?_
      simp [Worker.weight, hpc, hidle hpc]
      split <;> omega

/-! ## What is possible -/

/-- No assertion of `run` fails, so a worker can go on unless its fiber executes. -/
theorem Due.canWork (h : Due root s) (hfree : s.machine.mutex = none)
    (hrunning : (s.machine.worker w).pc.isRunning = false)
    (hexit : (s.machine.worker w).pc ≠ .exited) : ∃ m, s.machine.work w = some m := by
  have hresets := fun f ↦ h.hand.resettable (w := w) (f := f)
  unfold Machine.resets at hresets
  unfold Machine.work
  cases hpc : (s.machine.worker w).pc with
  | scan => simp [hfree]
  | dispatch ft isActive =>
      simp only [hpc] at hresets ⊢
      unfold Machine.dispatch
      split
      · exact ⟨_, rfl⟩
      · rename_i hnone
        split
        · rename_i hcb
          unfold Machine.startCallback
          split
          · rename_i c hc
            rw [if_pos (hresets c (by simp [hnone, hcb, hc]))]
            exact ⟨_, rfl⟩
          · exact ⟨_, rfl⟩
        · split <;> exact ⟨_, rfl⟩
  | «at» stage role f =>
      simp only [hpc] at hresets ⊢
      unfold Machine.advance
      cases stage with
      | check => simp [((h.hand.owned f).ok hpc).1]
      | running => simp [hpc, Pc.isRunning] at hrunning
      | requeue => simp [hfree]
      | retire => simp [hresets]
      | _ => exact ⟨_, rfl⟩
  | idle => exact ⟨_, rfl⟩
  | exited => exact absurd hpc hexit

theorem step_work (hmay : s.MayRun root w)
    (hidle : (s.machine.worker w).pc = .idle → s.machine.observer (some w) = .out)
    (hm : s.machine.work w = some m) :
    s.step root (.work w) = some ⟨m, s.stop, s.machine.vehicles s.vehicle (.work w)⟩ :=
  step_of_plan (if_pos ⟨hmay, hidle⟩) hm

/-- The steps with which `stop` can come to its end. -/
def Closes (root : Option W) : Shutdown W → Act W → Shutdown W → Prop :=
  Guarded (Of (step root)) fun _ a ↦ a.Closing

/-! ## The end of a fiber -/

/-- A worker gets back to the top of the loop, and nothing else changes that matters here. -/
def Lands (root : Option W) (s : Shutdown W) (w : W) : Prop :=
  ∃ as t, Run (Closes root) s as t ∧
    t.machine.worker =
      Function.update s.machine.worker w { s.machine.worker w with pc := .scan } ∧
    t.machine.fibers = s.machine.fibers ∧ t.machine.observer = s.machine.observer ∧
    t.stop = s.stop

theorem Lands.cons {pc : Pc} (hs : s.step root a = some t) (hclosing : a.Closing)
    (hworker : t.machine.worker =
      Function.update s.machine.worker w { s.machine.worker w with pc := pc })
    (hfibers : t.machine.fibers = s.machine.fibers)
    (hobserver : t.machine.observer = s.machine.observer) (hstop : t.stop = s.stop)
    (h : Lands root t w) : Lands root s w := by
  obtain ⟨as, t', hrun, hworker', hfibers', hobserver', hstop'⟩ := h
  refine ⟨a :: as, t', .cons ⟨hs, hclosing⟩ hrun, ?_, hfibers'.trans hfibers,
    hobserver'.trans hobserver, hstop'.trans hstop⟩
  rw [hworker', hworker, Function.update_idem, Function.update_self]

theorem Lands.here (hpc : (s.machine.worker w).pc = .scan) : Lands root s w := by
  refine ⟨[], s, .nil _, ?_, rfl, rfl, rfl⟩
  rw [← hpc, Function.update_eq_self]

variable {r : Role} {f : FiberId}

theorem lands_retire (hmay : s.MayRun root w) (hpc : (s.machine.worker w).pc = .at .retire r f)
    (hfin : (s.machine.fiber f).state = .term) : Lands root s w := by
  have hm : s.machine.work w = some ((s.machine.setFiber f .fresh).setPc w .scan) := by
    unfold Machine.work
    rw [hpc]
    simp [Machine.advance, hfin, FiberState.resettable]
  refine .cons (step_work hmay (by simp [hpc]) hm) trivial rfl rfl rfl rfl (.here ?_)
  simp [Machine.setPc, Machine.setWorker]

theorem lands_examine (hmay : s.MayRun root w) (hpc : (s.machine.worker w).pc = .at .examine r f)
    (hfin : (s.machine.fiber f).state = .term) : Lands root s w := by
  have hm : s.machine.work w = some (s.machine.setPc w (s.machine.examined r f)) := by
    unfold Machine.work
    rw [hpc]
    rfl
  refine .cons (step_work hmay (by simp [hpc]) hm) trivial rfl rfl rfl rfl ?_
  cases r with
  | task =>
      apply Lands.here
      simp [Machine.setPc, Machine.setWorker, Machine.examined, hfin, FiberState.finished]
  | callback =>
      apply lands_retire (r := .callback) (f := f)
      · exact hmay
      · simp [Machine.setPc, Machine.setWorker, Machine.examined, hfin, FiberState.finished]
      · exact hfin

theorem lands_returned (hmay : s.MayRun root w)
    (hpc : (s.machine.worker w).pc = .at .returned r f)
    (hfin : (s.machine.fiber f).state = .term) : Lands root s w := by
  have hm : s.machine.work w =
      some ({ s.machine with activeThreadCount := s.machine.activeThreadCount - 1 }.setPc w
        (.at .examine r f)) := by
    unfold Machine.work
    rw [hpc]
    rfl
  refine .cons (step_work hmay (by simp [hpc]) hm) trivial rfl rfl rfl rfl ?_
  apply lands_examine (r := r) (f := f)
  · exact hmay
  · simp [Machine.setPc, Machine.setWorker]
  · exact hfin

theorem lands_leaving (hmay : s.MayRun root w) (hpc : (s.machine.worker w).pc = .at .leaving r f)
    (hfin : (s.machine.fiber f).state = .term) : Lands root s w := by
  have hm : s.machine.work w = some ((s.machine.setSaved f true).setPc w (.at .returned r f)) := by
    unfold Machine.work
    rw [hpc]
    rfl
  refine .cons (step_work hmay (by simp [hpc]) hm) trivial rfl rfl rfl rfl ?_
  apply lands_returned (r := r) (f := f)
  · exact hmay
  · simp [Machine.setPc, Machine.setWorker]
  · simp [Machine.setPc, Machine.setWorker, Machine.setSaved, Machine.setFiber, hfin]

/-- A fiber that executes ends. -/
theorem lands_running (hmay : s.MayRun root w) (hpc : (s.machine.worker w).pc = .at .running r f) :
    Lands root s w := by
  have hm : s.machine.step (.yield w .term) =
      some ((s.machine.setState f .term).setPc w (.at .leaving r f)) := by
    simp [Machine.step, hpc, Yield.state]
  have hplan : s.plan root (.yield w .term) = some (some (.yield w .term), s.stop) := rfl
  refine .cons (step_of_plan hplan hm) rfl rfl rfl rfl rfl ?_
  apply lands_leaving (r := r) (f := f)
  · exact hmay
  · simp [Machine.setPc, Machine.setWorker]
  · simp [Machine.setPc, Machine.setWorker, Machine.setState, Machine.setFiber]

/-! ## From every state to a lighter one -/

def Lightens (root : Option W) (s : Shutdown W) : Prop :=
  ∃ as t, Run (Closes root) s as t ∧ t.weight < s.weight

theorem lightens_of_step (hs : s.step root a = some t) (hclosing : a.Closing)
    (hlt : t.weight < s.weight) : Lightens root s :=
  ⟨[a], t, .cons ⟨hs, hclosing⟩ (.nil _), hlt⟩

theorem lightens_of_stopStep {b : Action W Empty (Option W)}
    (hplan : s.stopStep root = some (some b, pc)) (hm : s.machine.step b = some m)
    (hworker : m.worker = s.machine.worker) (hfibers : m.fibers = s.machine.fibers)
    (hobserver : ∀ w, m.observer (some w) = s.machine.observer (some w))
    (hlt : pc.weight (m.observer none) < s.stop.weight (s.machine.observer none)) :
    Lightens root s := by
  refine lightens_of_step (a := .stop) (step_of_plan hplan hm) trivial ?_
  unfold weight
  simp only [hworker, hfibers, hobserver]
  omega

/-- Whoever holds `m_mutex` in `stopped()` reads the count, and lets it go. -/
theorem Due.lightens_held (h : Due root s) {o : Option W} (hheld : s.machine.mutex = some o) :
    Lightens root s := by
  have ho := h.asking.holder o hheld
  have hstep : s.machine.step (.readActive o) =
      some ({ s.machine with mutex := none }.setObserver o
        (if s.machine.activeThreadCount = 0 then .atPending else .out)) := by
    simp [Machine.step, ho]
  cases o with
  | some w =>
      have hempty := h.ok.asked.queue ho
      have hplan : s.plan root (.testActive w) = some (some (.readActive (some w)), s.stop) := rfl
      refine lightens_of_step (step_of_plan hplan hstep) trivial ?_
      refine weight_lt (w := w) (k := 0) rfl ?_ (fun _ _ ↦ rfl) (fun x hx ↦ ?_) (.inl id) ?_
      · simp [Machine.setObserver]
      · simp [Machine.setObserver, hx]
      · simp only [Machine.setObserver, Function.update_self, Worker.weight, h.asking.idle w ho, ho,
          hempty]
        by_cases hzero : s.machine.activeThreadCount = 0 <;> simp [hzero]
  | none =>
      rcases h.asking.caller ho with hstop | hstop
      · have hplan : s.stopStep root = some (some (.readActive none),
            if s.machine.activeThreadCount = 0 then .returned else .late) := by
          simp [stopStep, hstop, ho]
        refine lightens_of_stopStep hplan hstep rfl rfl (fun w ↦ ?_) ?_
        · simp [Machine.setObserver]
        · simp only [Machine.setObserver, Function.update_self, hstop, ho]
          split <;> simp [StopPc.weight]
      · have hplan : s.stopStep root = some (some (.readActive none),
            if s.machine.activeThreadCount = 0 then .joining else .inRoot) := by
          simp [stopStep, hstop, ho]
        refine lightens_of_stopStep hplan hstep rfl rfl (fun w ↦ ?_) ?_
        · simp [Machine.setObserver]
        · simp only [Machine.setObserver, Function.update_self, hstop, ho]
          split <;> simp [StopPc.weight]

/-- The test of the queue in `stop`, with `m_mutex` free. -/
theorem lightens_asking (yes no : StopPc) (hfree : s.machine.mutex = none)
    (ho : s.machine.observer none = .out)
    (hplan : s.stopStep root = some (some (.readQueue none), if s.machine.drained then yes else no))
    (hyes : yes.weight .atActive < s.stop.weight .out) (hno : no.weight .out < s.stop.weight .out) :
    Lightens root s := by
  by_cases hdrained : s.machine.drained = true
  · rw [if_pos hdrained] at hplan
    have hstep : s.machine.step (.readQueue none) =
        some ({ s.machine with mutex := some none }.setObserver none .atActive) := by
      simp [Machine.step, ho, hfree, hdrained]
    refine lightens_of_stopStep hplan hstep rfl rfl (fun w ↦ ?_) ?_
    · simp [Machine.setObserver]
    · simpa [Machine.setObserver, ho] using hyes
  · rw [if_neg hdrained] at hplan
    have hstep : s.machine.step (.readQueue none) = some s.machine := by
      simp [Machine.step, ho, hfree, hdrained]
    refine lightens_of_stopStep hplan hstep rfl rfl (fun _ ↦ rfl) ?_
    rw [ho]
    exact hno

/-- `stop` gets as far as to its waits. -/
theorem Due.lightens_stop (h : Due root s) (hfree : s.machine.mutex = none)
    (hstop : s.stop = .entered ∨ s.stop = .early ∨ s.stop = .late) : Lightens root s := by
  have hout : s.stop ≠ .entered → s.machine.observer none = .out := by
    intro hne
    cases ho : s.machine.observer none with
    | out => rfl
    | atActive => exact absurd ho (others_of_free h.ok.asked hfree none)
    | atPending =>
        rcases hstop with heq | heq | heq
        · exact absurd heq hne
        · simpa [heq] using h.asking.told ho
        · simpa [heq] using h.asking.told ho
  rcases hstop with hstop | hstop | hstop
  · have hplan : s.stopStep root = some (some .clearRunning,
        if root = none then .joining else if ∀ w, root = some w then .early else .late) := by
      simp [stopStep, hstop]
    refine lightens_of_stopStep hplan rfl rfl rfl (fun _ ↦ rfl) ?_
    rw [h.asking.out (.inr hstop), hstop]
    split
    · simp [StopPc.weight]
    · split <;> simp [StopPc.weight]
  · have ho := hout (by simp [hstop])
    refine lightens_asking .early .late hfree ho ?_ ?_ ?_
    · simp [stopStep, hstop, ho]
    · simp [StopPc.weight, hstop]
    · simp [StopPc.weight, hstop]
  · have ho := hout (by simp [hstop])
    refine lightens_asking .late .inRoot hfree ho ?_ ?_ ?_
    · simp [stopStep, hstop, ho]
    · simp [StopPc.weight, hstop]
    · simp [StopPc.weight, hstop]

/-- A worker that may run goes on, unless its fiber executes or it is idle without work. -/
theorem Due.lightens_work (h : Due root s) (hfree : s.machine.mutex = none)
    (hmay : s.MayRun root w) (hrunning : (s.machine.worker w).pc.isRunning = false)
    (hexit : (s.machine.worker w).pc ≠ .exited)
    (hidle : (s.machine.worker w).pc = .idle →
      s.machine.fibers ≠ [] ∧ s.machine.observer (some w) = .out) : Lightens root s := by
  obtain ⟨m, hm⟩ := h.canWork hfree hrunning hexit
  exact lightens_of_step (step_work hmay (fun hpc ↦ (hidle hpc).2) hm) trivial
    (h.works hm fun hpc ↦ (hidle hpc).1)

theorem Lands.lightens (h : Lands root s w)
    (hweight : 6 < (s.machine.worker w).weight (Fintype.card W) s.machine.fibers.isEmpty
      (s.machine.observer (some w))) : Lightens root s := by
  obtain ⟨as, t, hrun, hworker, hfibers, hobserver, hstop⟩ := h
  refine ⟨as, t, hrun, weight_lt (w := w) (k := 0) hstop ?_ (fun x hx ↦ ?_) (fun x _ ↦ ?_)
    (.inl fun hempty ↦ by rwa [hfibers]) ?_⟩
  · rw [hobserver]
  · rw [hworker, Function.update_of_ne hx]
  · rw [hobserver]
  · rw [hworker, Function.update_self, hfibers]
    have hscan : ({ s.machine.worker w with pc := .scan } : Worker).weight (Fintype.card W)
        s.machine.fibers.isEmpty (t.machine.observer (some w)) ≤ 6 := by
      simp only [Worker.weight]
      split <;> omega
    omega

/-- A worker with something in its hands gets rid of it. -/
theorem Due.lightens_busy (h : Due root s) (hfree : s.machine.mutex = none)
    (hscan : (s.machine.worker w).pc ≠ .scan) (hidle : (s.machine.worker w).pc ≠ .idle)
    (hexit : (s.machine.worker w).pc ≠ .exited) : Lightens root s := by
  have hmay : s.MayRun root w := h.ok.winding.runs hscan hexit
  cases hrunning : (s.machine.worker w).pc.isRunning with
  | false => exact h.lightens_work hfree hmay hrunning hexit fun hpc ↦ absurd hpc hidle
  | true =>
      obtain ⟨role, f, hpc⟩ := Pc.isRunning_iff.mp hrunning
      exact (lands_running hmay hpc).lightens (by simp [Worker.weight, Stage.weight, hpc])

/-- An idle worker that was told that the scheduler has stopped scans once more. -/
theorem lightens_told (hpc : (s.machine.worker w).pc = .idle)
    (hpend : s.machine.observer (some w) = .atPending) : Lightens root s := by
  have hplan : s.plan root (.idleEnd w) = some (some (.idleEnd w), s.stop) := if_pos hpend
  have hstep : s.machine.step (.idleEnd w) =
      some (s.machine.setWorker w { s.machine.worker w with pc := .scan, idleDone := true }) := by
    simp [Machine.step, hpc]
  refine lightens_of_step (step_of_plan hplan hstep) trivial ?_
  refine weight_lt (w := w) (k := 0) rfl rfl (fun x hx ↦ Function.update_of_ne hx _ _)
    (fun _ _ ↦ rfl) (.inl id) ?_
  simp only [Machine.setWorker, Function.update_self, Worker.weight, hpc, hpend, if_pos]
  split <;> omega

/-- Whoever is still to scan takes something. -/
theorem Due.lightens_queue (h : Due root s) (hfree : s.machine.mutex = none)
    (hstop : s.stop = .inRoot ∨ s.stop = .joining) (hne : s.machine.fibers ≠ []) :
    Lightens root s := by
  obtain ⟨w, hwill, hscans⟩ := h.ok.winding.watched hne
  have hmay : s.MayRun root w := fun hroot ↦ hstop.resolve_right (hwill hroot).1
  cases hpc : (s.machine.worker w).pc with
  | scan =>
      exact h.lightens_work hfree hmay (by simp [hpc, Pc.isRunning]) (by simp [hpc]) (by simp [hpc])
  | idle =>
      cases ho : s.machine.observer (some w) with
      | out =>
          exact h.lightens_work hfree hmay (by simp [hpc, Pc.isRunning]) (by simp [hpc])
            fun _ ↦ ⟨hne, ho⟩
      | atActive => exact absurd ho (others_of_free h.ok.asked hfree _)
      | atPending => exact lightens_told hpc ho
  | exited =>
      unfold Worker.Scans at hscans
      rw [hpc] at hscans
      exact hscans.elim
  | _ => exact h.lightens_busy (w := w) hfree (by simp [hpc]) (by simp [hpc]) (by simp [hpc])

/-- With nothing left to do, an idle worker is told so. -/
theorem Due.lightens_idle (h : Due root s) (hfree : s.machine.mutex = none)
    (hstop : s.stop = .inRoot ∨ s.stop = .joining) (hempty : s.machine.fibers = [])
    (hzero : s.machine.activeThreadCount = 0) (hpc : (s.machine.worker w).pc = .idle)
    (ho : s.machine.observer (some w) = .out) : Lightens root s := by
  have hcalled : s.stop ≠ .outside ∧ s.stop ≠ .entered := by
    rcases hstop with hstop | hstop <;> simp [hstop]
  have hdrained : s.machine.drained = true := by
    simp [Machine.drained, h.asking.called hcalled.1, h.asking.cleared hcalled.1 hcalled.2, hempty]
  have hqueue : s.machine.step (.readQueue (some w)) =
      some ({ s.machine with mutex := some (some w) }.setObserver (some w) .atActive) := by
    simp [Machine.step, ho, hfree, hdrained]
  have hplan : s.plan root (.testQueue w) = some (some (.readQueue (some w)), s.stop) := if_pos hpc
  have hfirst := step_of_plan hplan hqueue
  have hactive : ({ s.machine with mutex := some (some w) }.setObserver (some w) .atActive).step
      (.readActive (some w)) =
        some ({ s.machine with mutex := none }.setObserver (some w) .atPending) := by
    simp [Machine.step, Machine.setObserver, hzero]
  have hsecond : Shutdown.step root
      ⟨{ s.machine with mutex := some (some w) }.setObserver (some w) .atActive, s.stop,
        s.machine.vehicles s.vehicle (.readQueue (some w))⟩ (.testActive w) = _ :=
    step_of_plan rfl hactive
  refine ⟨[.testQueue w, .testActive w], _,
    .cons ⟨hfirst, trivial⟩ (.cons ⟨hsecond, trivial⟩ (.nil _)), ?_⟩
  refine weight_lt (w := w) (k := 0) rfl ?_ (fun _ _ ↦ rfl) (fun x hx ↦ ?_) (.inl id) ?_
  · simp [Machine.setObserver]
  · simp [Machine.setObserver, hx]
  · simp [Machine.setObserver, Worker.weight, hpc, ho, hempty]

theorem Due.lightens_free (h : Due root s) (hfree : s.machine.mutex = none)
    (hstop : s.stop = .inRoot ∨ s.stop = .joining) (hempty : s.machine.fibers = [])
    (hzero : s.machine.activeThreadCount = 0) (hmay : s.MayRun root w)
    (hpc : (s.machine.worker w).pc = .scan ∨ (s.machine.worker w).pc = .idle) :
    Lightens root s := by
  rcases hpc with hpc | hpc
  · exact h.lightens_work hfree hmay (by simp [hpc, Pc.isRunning]) (by simp [hpc]) (by simp [hpc])
  · cases ho : s.machine.observer (some w) with
    | out => exact h.lightens_idle hfree hstop hempty hzero hpc ho
    | atActive => exact absurd ho (others_of_free h.ok.asked hfree _)
    | atPending => exact lightens_told hpc ho

/-- With the queue empty, the workers that `stop` waits for leave `run`. -/
theorem Due.lightens_empty (h : Due root s) (hfree : s.machine.mutex = none)
    (hstop : s.stop = .inRoot ∨ s.stop = .joining) (hempty : s.machine.fibers = []) :
    Lightens root s := by
  by_cases hbusy : ∃ w, (s.machine.worker w).pc ≠ .scan ∧ (s.machine.worker w).pc ≠ .idle ∧
      (s.machine.worker w).pc ≠ .exited
  · obtain ⟨w, hscan, hidle, hexit⟩ := hbusy
    exact h.lightens_busy hfree hscan hidle hexit
  have hwaiting : ∀ w, (s.machine.worker w).pc ≠ .exited →
      (s.machine.worker w).pc = .scan ∨ (s.machine.worker w).pc = .idle := by
    intro w hexit
    by_contra hne
    rw [not_or] at hne
    exact hbusy ⟨w, hne.1, hne.2, hexit⟩
  -- nobody has taken anything, so `stopped()` will see it too
  have hzero : s.machine.activeThreadCount = 0 := by
    rw [h.counted.active, Finset.sum_eq_zero fun w _ ↦ ?_]
    · rfl
    · by_cases hexit : (s.machine.worker w).pc = .exited
      · rw [hexit]
        rfl
      · rcases hwaiting w hexit with hpc | hpc <;> rw [hpc] <;> rfl
  rcases hstop with hin | hjoin
  · by_cases hexit : ∀ w, root = some w → (s.machine.worker w).pc = .exited
    · have hplan : s.stopStep root = some (none, .joining) := by
        unfold stopStep
        rw [hin]
        exact if_pos hexit
      refine lightens_of_step (a := .stop) (step_of_end hplan) trivial ?_
      simp [weight, hin, StopPc.weight]
    · rw [not_forall] at hexit
      obtain ⟨w, hw⟩ := hexit
      rw [Classical.not_imp] at hw
      exact h.lightens_free hfree (.inl hin) hempty hzero (fun _ ↦ hin) (hwaiting w hw.2)
  · by_cases hexit : ∀ w, root ≠ some w → (s.machine.worker w).pc = .exited
    · have hplan : s.stopStep root = some (none, .returned) := by
        unfold stopStep
        rw [hjoin]
        exact if_pos hexit
      refine lightens_of_step (a := .stop) (step_of_end hplan) trivial ?_
      simp [weight, hjoin, StopPc.weight]
    · rw [not_forall] at hexit
      obtain ⟨w, hw⟩ := hexit
      rw [Classical.not_imp] at hw
      exact h.lightens_free hfree (.inr hjoin) hempty hzero (fun hroot ↦ absurd hroot hw.1)
        (hwaiting w hw.2)

/-- A state from which `stop` has not returned leads to a lighter one. -/
theorem Due.lightens (h : Due root s) (hcalled : s.stop ≠ .outside) (hret : s.stop ≠ .returned) :
    Lightens root s := by
  by_cases hheld : ∃ o, s.machine.mutex = some o
  · obtain ⟨o, ho⟩ := hheld
    exact h.lightens_held ho
  have hfree : s.machine.mutex = none := by
    rw [Option.eq_none_iff_forall_ne_some]
    exact fun o ho ↦ hheld ⟨o, ho⟩
  by_cases hwaits : s.stop = .inRoot ∨ s.stop = .joining
  · by_cases hempty : s.machine.fibers = []
    · exact h.lightens_empty hfree hwaits hempty
    · exact h.lightens_queue hfree hwaits hempty
  · refine h.lightens_stop hfree ?_
    cases hstop : s.stop with
    | outside => exact absurd hstop hcalled
    | returned => exact absurd hstop hret
    | _ => simp [hstop] at hwaits ⊢

theorem called_step (hcalled : s.stop ≠ .outside) (hs : s.step root a = some t) :
    t.stop ≠ .outside := by
  rcases step_cases hs with ⟨b, hdoes, -, -⟩ | ⟨stop, hplan, rfl⟩
  · obtain ⟨m, pc, v⟩ := t
    dsimp only at hdoes ⊢
    cases hdoes with
    | outside hout => exact absurd hout hcalled
    | cleared _ hpc => rcases hpc with ⟨rfl, -⟩ | ⟨rfl, -⟩ | rfl <;> nofun
    | askedEarly _ hpc | toldEarly _ _ hpc | askedLate _ hpc | toldLate _ _ hpc =>
        rcases hpc with rfl | rfl <;> nofun
    | entered => nofun
    | _ => exact hcalled
  · rcases (ended_of_plan hplan).2 with ⟨-, rfl, -⟩ | ⟨-, rfl, -⟩ <;> nofun

/-- Once `stop` has been called it can always come to its end, whatever has happened until then: the
threads can go on so that it returns, with no new fiber, nothing scheduled and every fiber that
executes running to its end; then nothing is queued or in a worker's hands. -/
theorem stop_returns [Nonempty W] {thread : W → Int} {as : List (Act W)}
    (h : Run (Of (step root)) (start thread) as s) (hcalled : s.stop ≠ .outside) :
    ∃ bs t, Run (Closes root) s bs t ∧ t.stop = .returned ∧ t.machine.fibers = [] ∧
      ∀ w, (t.machine.worker w).pc = .scan ∨ (t.machine.worker w).pc = .exited := by
  have hdue : Due root s := h.invariant (fun _ _ _ hd hs ↦ hd.step hs) (start_due thread)
  obtain ⟨bs, t, hrun, hret⟩ := exists_run_of_decreases (R := Closes root)
    (I := fun s ↦ Due root s ∧ s.stop ≠ .outside) (P := fun s ↦ s.stop = .returned) weight
    (fun s a t hs hstep ↦ ⟨hs.1.step hstep.1, called_step hs.2 hstep.1⟩)
    (fun s hs hret ↦ hs.1.lightens hs.2 hret) ⟨hdue, hcalled⟩
  have hlast := hrun.invariant (I := Due root) (fun _ _ _ hd hs ↦ hd.step hs.1) hdue
  exact ⟨bs, t, hrun, hret, hlast.ok.winding.returned hret⟩

/-- A fiber executes on the worker of the pool, and a callback on the root worker, inside `stop`. -/
def midway : List (Act Bool) :=
  List.flatten
    [[.newFiber, .schedule none (.fiber 0), .stop, .stop], List.replicate 5 (.work false),
      [.schedule (some false) (.callback 7), .stop], List.replicate 5 (.work true)]

theorem stop_returns_midway : ∃ s : Shutdown Bool,
    Run (Of (step (some true))) (start fun w ↦ if w then 1 else 2) midway s ∧
      s.stop = .inRoot ∧ ∃ bs t, Run (Closes (some true)) s bs t ∧ t.stop = .returned ∧
        t.machine.fibers = [] ∧
        ∀ w, (t.machine.worker w).pc = .scan ∨ (t.machine.worker w).pc = .exited := by
  have hexec : (exec (step (some true)) (start fun w ↦ if w then 1 else 2) midway).map
      (fun s ↦ decide (s.stop = .inRoot)) = some true := by decide +kernel
  obtain ⟨s, hs, hin⟩ := Option.map_eq_some_iff.mp hexec
  have hrun := exec_eq_some_iff.mp hs
  have hstop : s.stop = .inRoot := of_decide_eq_true hin
  exact ⟨s, hrun, hstop, stop_returns hrun (by rw [hstop]; nofun)⟩

end Shutdown

end Server
