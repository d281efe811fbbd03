import ServerFramework.Scheduler.Reuse
import ServerFramework.Scheduler.Stopped

/-!
# The books of the workers

`m_activeThreadCount` goes up under `m_mutex` and down in three places of `run`; `m_idleThreadCount`
goes up before `idleFiber->swapIn()` and down after it.  The machine counts the first; here each worker
also has the three steps around its idle fiber, and the second is counted as well.  Both counters are
exact in every run, and a worker that may reuse its `cbFiber` finds it ready for `reset`.
-/

namespace Server

open Runs Counter

/-- Where a worker is with its idle fiber, while its program counter is `idle`. -/
inductive IdleStage where
  /-- before `++m_idleThreadCount` -/
  | before
  /-- in `idleFiber` -/
  | inside
  /-- before `--m_idleThreadCount`; the idle fiber ended, or it yielded -/
  | back (ended : Bool)
  deriving DecidableEq, Repr

/-- Between the increment and the decrement. -/
def IdleStage.counted : IdleStage → Nat
  | .before => 0
  | _ => 1

theorem IdleStage.counted_le (stage : IdleStage) : stage.counted ≤ 1 := by
  cases stage <;> simp [counted]

theorem Pc.busy_le (pc : Pc) : pc.busy ≤ 1 := by
  unfold busy
  split <;> decide

/-- The machine with `m_idleThreadCount`. -/
structure Accounts (W D O : Type) where
  machine : Machine W D O
  idleThreadCount : Int
  idle : W → IdleStage

namespace Accounts

variable {W D O : Type} [DecidableEq W] [DecidableEq D] [DecidableEq O]

def setIdle (s : Accounts W D O) (w : W) (stage : IdleStage) : Accounts W D O :=
  { s with idle := Function.update s.idle w stage }

/-- The step of the machine that follows the decrement. -/
def wake (w : W) (ended : Bool) : Action W D O := if ended then .idleEnd w else .work w

def lift (s : Accounts W D O) (a : Action W D O) : Option (Accounts W D O) :=
  (s.machine.step a).map fun m ↦ { s with machine := m }

/-- A worker around its idle fiber. -/
def idleWork (s : Accounts W D O) (w : W) : Option (Accounts W D O) :=
  match s.idle w with
  | .before => some ({ s with idleThreadCount := s.idleThreadCount + 1 }.setIdle w .inside)
  -- `yieldToHold` in `idle`
  | .inside => some (s.setIdle w (.back false))
  | .back ended =>
    ({ s with idleThreadCount := s.idleThreadCount - 1 }.setIdle w .before).lift (wake w ended)

def step (s : Accounts W D O) : Action W D O → Option (Accounts W D O)
  | .work w => if (s.machine.worker w).pc = .idle then s.idleWork w else s.lift (.work w)
  | .idleEnd w =>
    if (s.machine.worker w).pc = .idle ∧ s.idle w = .inside then some (s.setIdle w (.back true))
    else none
  -- none of the others is a step of an idle fiber
  | a => s.lift a

def start (thread : W → Int) : Accounts W D O := ⟨Machine.start thread, 0, fun _ ↦ .before⟩

/-! ## What a step can do -/

inductive Stepped (s : Accounts W D O) : Action W D O → Accounts W D O → Prop where
  | entered {w : W} :
      (s.machine.worker w).pc = .idle → s.idle w = .before →
      Stepped s (.work w) ({ s with idleThreadCount := s.idleThreadCount + 1 }.setIdle w .inside)
  | left {a : Action W D O} {w : W} (ended : Bool) :
      (s.machine.worker w).pc = .idle → s.idle w = .inside →
      Stepped s a (s.setIdle w (.back ended))
  | woke {w : W} {ended : Bool} {m : Machine W D O} :
      s.idle w = .back ended → Of Machine.step s.machine (wake w ended) m →
      Stepped s (.work w) ⟨m, s.idleThreadCount - 1, Function.update s.idle w .before⟩
  | lifted {a : Action W D O} {m : Machine W D O} :
      Of Machine.step s.machine a m →
      (∀ w, (s.machine.worker w).pc = .idle → (m.worker w).pc = .idle) →
      Stepped s a { s with machine := m }

/-- A worker leaves `idle` by a step of its own. -/
theorem idle_kept {m m' : Machine W D O} {a : Action W D O} (h : Machine.Stepped m a m') {w : W}
    (hpc : (m.worker w).pc = .idle) (hwork : a ≠ .work w) (hend : a ≠ .idleEnd w) :
    (m'.worker w).pc = .idle := by
  cases h with
  | @worked v _ hw =>
      obtain ⟨-, wk, hworker, -⟩ := hw.worker_eq
      have hne : w ≠ v := fun heq ↦ hwork (heq ▸ rfl)
      rw [hworker, Function.update_of_ne hne]
      exact hpc
  | @yielded v y role f hv =>
      have hne : w ≠ v := by
        rintro rfl
        rw [hpc] at hv
        cases hv
      show (Function.update m.worker v _ w).pc = .idle
      rw [Function.update_of_ne hne]
      exact hpc
  | @idleEnded v =>
      have hne : w ≠ v := fun heq ↦ hend (heq ▸ rfl)
      show (Function.update m.worker v _ w).pc = .idle
      rw [Function.update_of_ne hne]
      exact hpc
  | _ => exact hpc

theorem lift_cases {s s' : Accounts W D O} {a : Action W D O} (h : s.lift a = some s')
    (hne : ∀ w, a = .work w ∨ a = .idleEnd w → (s.machine.worker w).pc ≠ .idle) :
    Stepped s a s' := by
  unfold lift at h
  rcases Option.map_eq_some_iff.mp h with ⟨m, hm, rfl⟩
  apply Stepped.lifted hm
  intro w hpc
  apply idle_kept (Machine.step_cases hm) hpc
  · exact fun heq ↦ hne w (.inl heq) hpc
  · exact fun heq ↦ hne w (.inr heq) hpc

theorem step_cases {s s' : Accounts W D O} {a : Action W D O} (h : s.step a = some s') :
    Stepped s a s' := by
  cases a with
  | work w =>
      simp only [step] at h
      split at h
      · rename_i hpc
        unfold idleWork at h
        split at h
        · rename_i hidle
          cases h
          exact .entered hpc hidle
        · rename_i hidle
          cases h
          exact .left false hpc hidle
        · rename_i ended hidle
          rcases Option.map_eq_some_iff.mp h with ⟨m, hm, rfl⟩
          exact .woke hidle hm
      · rename_i hpc
        apply lift_cases h
        rintro v (heq | heq)
        · cases heq
          exact hpc
        · cases heq
  | idleEnd w =>
      simp only [step] at h
      split at h
      · rename_i hcond
        cases h
        exact .left true hcond.1 hcond.2
      · cases h
  | _ => exact lift_cases h fun w heq ↦ by rcases heq with heq | heq <;> cases heq

/-- A step is one of the machine, or the machine stands still. -/
theorem Stepped.machine_step {s s' : Accounts W D O} {a : Action W D O} (h : Stepped s a s') :
    s'.machine = s.machine ∨
      ∃ b, Of Machine.step s.machine b s'.machine ∧ (s.machine.Exclusive a → s.machine.Exclusive b) := by
  cases h with
  | entered | left => exact .inl rfl
  | @woke w ended m _ hm =>
      right
      refine ⟨wake w ended, hm, fun _ ↦ ?_⟩
      cases ended <;> trivial
  | lifted hm => exact .inr ⟨a, hm, id⟩

/-! ## Both counters are exact -/

variable [Fintype W] [Fintype D]

structure Exact (s : Accounts W D O) : Prop where
  counted : s.machine.Counted
  idle : s.idleThreadCount = (∑ w, (s.idle w).counted : Nat)
  entered : ∀ w, s.idle w ≠ .before → (s.machine.worker w).pc = .idle

omit [DecidableEq D] [DecidableEq O] [Fintype D] in
/-- The counter moves with the stage of one worker. -/
theorem idle_moved {s s' : Accounts W D O} {w : W} {stage stage' : IdleStage} (n : Int)
    (hsum : s.idleThreadCount = (∑ w, (s.idle w).counted : Nat)) (hstage : s.idle w = stage)
    (hidle : s'.idle = Function.update s.idle w stage')
    (hcount : s'.idleThreadCount = s.idleThreadCount + n)
    (hn : stage.counted + n = stage'.counted) :
    s'.idleThreadCount = (∑ w, (s'.idle w).counted : Nat) := by
  have hw := sum_update IdleStage.counted s.idle w stage'
  rw [hstage] at hw
  rw [hidle]
  omega

theorem Exact.step {s s' : Accounts W D O} (h : Exact s) {a : Action W D O}
    (hs : Of Accounts.step s a s') : Exact s' := by
  -- a worker elsewhere has not entered its idle fiber, or is still in it
  have hother : ∀ {w : W} {stage : IdleStage} (w' : W), w' ≠ w →
      Function.update s.idle w stage w' ≠ .before → (s.machine.worker w').pc = .idle := by
    intro w stage w' hne hw'
    rw [Function.update_of_ne hne] at hw'
    exact h.entered w' hw'
  cases step_cases hs with
  | @entered w hpc hbefore =>
      refine ⟨h.counted, idle_moved 1 h.idle hbefore rfl rfl rfl, fun w' hw' ↦ ?_⟩
      by_cases hne : w' = w
      · exact hne ▸ hpc
      · exact hother w' hne hw'
  | @left _ w ended hpc hinside =>
      refine ⟨h.counted, idle_moved 0 h.idle hinside rfl (Int.add_zero _).symm rfl,
        fun w' hw' ↦ ?_⟩
      by_cases hne : w' = w
      · exact hne ▸ hpc
      · exact hother w' hne hw'
  | @woke w ended m hback hm =>
      refine ⟨h.counted.step hm, idle_moved (-1) h.idle hback rfl rfl rfl, fun w' hw' ↦ ?_⟩
      by_cases hne : w' = w
      · rw [hne] at hw'
        exact absurd (Function.update_self w _ _) hw'
      -- the step that follows the decrement is of `w` alone
      · apply idle_kept (Machine.step_cases hm) (hother w' hne hw')
        · cases ended
          · exact fun heq ↦ hne (Action.work.inj heq).symm
          · nofun
        · cases ended
          · nofun
          · exact fun heq ↦ hne (Action.idleEnd.inj heq).symm
  | lifted hm hkept => exact ⟨h.counted.step hm, h.idle, fun w hw ↦ hkept w (h.entered w hw)⟩

omit [DecidableEq W] [DecidableEq D] [DecidableEq O] in
theorem start_exact (thread : W → Int) : Exact (start thread : Accounts W D O) where
  counted := Machine.start_counted thread
  idle := by
    have hsum : ∑ w, ((start thread : Accounts W D O).idle w).counted = 0 :=
      Finset.sum_eq_zero fun _ _ ↦ rfl
    rw [hsum]
    rfl
  entered := fun _ hw ↦ absurd rfl hw

/-! ## Every run -/

/-- What is put in the queue from outside `run` is in nobody's hands. -/
def Exclusive (s : Accounts W D O) (a : Action W D O) : Prop := s.machine.Exclusive a

omit [Fintype W] [Fintype D] in
theorem inHand_step {s s' : Accounts W D O} (h : s.machine.InHand) {a : Action W D O}
    (hs : Guarded (Of Accounts.step) Exclusive s a s') : s'.machine.InHand := by
  rcases (step_cases hs.1).machine_step with hsame | ⟨b, hb, hfree⟩
  · rw [hsame]
    exact h
  · exact h.step (hfree hs.2) hb

omit [DecidableEq W] [DecidableEq D] [DecidableEq O] [Fintype D] in
theorem le_card {p : W → Prop} [DecidablePred p] {n : Int}
    (h : n = (Finset.univ.filter p).card) (hW : Fintype.card W < 2 ^ 64) : 0 ≤ n ∧ n < 2 ^ 64 := by
  have hle := Finset.card_le_univ (Finset.univ.filter p)
  omega

/-- The counters are what they are meant to be, and `reset` is content with every fiber that `run`
gives it.  The number of workers is a `size_t`. -/
theorem counters_exact {thread : W → Int} {as : List (Action W D O)} {s : Accounts W D O}
    (h : Run (Of Accounts.step) (start thread) as s) (hW : Fintype.card W < 2 ^ 64) :
    s.machine.activeThreadCount =
        (Finset.univ.filter fun w ↦ (s.machine.worker w).pc.busy = 1).card ∧
      s.idleThreadCount = (Finset.univ.filter fun w ↦ (s.idle w).counted = 1).card ∧
      (0 ≤ s.machine.activeThreadCount ∧ s.machine.activeThreadCount < 2 ^ 64) ∧
      (0 ≤ s.idleThreadCount ∧ s.idleThreadCount < 2 ^ 64) ∧
      (Run (Guarded (Of Accounts.step) Exclusive) (start thread) as s →
        (∀ w c, (s.machine.worker w).pc = .scan → (s.machine.worker w).cbFiber = some c →
          (s.machine.fiber c).state = .init) ∧
        ∀ w c, s.machine.resets w = some c → (s.machine.fiber c).state.resettable = true) := by
  have hexact : Exact s := h.invariant (fun _ _ _ hi hs ↦ hi.step hs) (start_exact thread)
  have hactive := hexact.counted.active
  rw [sum_eq_card fun w ↦ (s.machine.worker w).pc.busy_le] at hactive
  have hidle := hexact.idle
  rw [sum_eq_card fun w ↦ (s.idle w).counted_le] at hidle
  refine ⟨hactive, hidle, le_card hactive hW, le_card hidle hW, fun hrun ↦ ?_⟩
  have hhand : s.machine.InHand :=
    hrun.invariant (I := fun s ↦ s.machine.InHand) (fun _ _ _ hi hs ↦ inHand_step hi hs)
      (Machine.start_inHand thread)
  exact ⟨fun w c hpc hc ↦ hhand.scanning hpc hc, fun w c hc ↦ hhand.resettable hc⟩

/-- The condition `Exclusive`, as a test for runs without events. -/
def exclusive (s : Accounts W D O) : Action W D O → Bool
  | .schedule ft =>
    match ft.fiber with
    | some f =>
      decide (f ∉ s.machine.fibers.filterMap FiberAndThread.fiber ∧
        ∀ w, ¬ (s.machine.worker w).Holds f)
    | none => true
  | .push _ => false
  | _ => true

omit [DecidableEq W] [DecidableEq D] [DecidableEq O] [Fintype D] in
theorem exclusive_spec {s : Accounts W D O} {a : Action W D O} (h : s.exclusive a = true) :
    s.Exclusive a := by
  cases a with
  | schedule ft =>
      intro f hf
      simp only [exclusive, hf, decide_eq_true_eq] at h
      exact ⟨fun hq ↦ h.1 (Machine.queued_iff.mp hq), h.2⟩
  | push => cases h
  | _ => trivial

/-- One worker is about to run its second callback, the other is in its idle fiber. -/
theorem counters_exact_pair : ∃ s : Accounts Bool Unit Unit,
    Run (Guarded (Of Accounts.step) Exclusive) (start fun w ↦ if w then 2 else 1)
      [.schedule ⟨none, some 7, -1⟩, .work false, .work true, .work false, .work false, .work false,
        .work false, .work true, .yield false .term, .work false, .work false, .work false, .work false,
        .schedule ⟨none, some 8, -1⟩, .work false, .work true] s ∧
      s.machine.activeThreadCount = 1 ∧ s.idleThreadCount = 1 ∧
      s.machine.activeThreadCount =
        (Finset.univ.filter fun w ↦ (s.machine.worker w).pc.busy = 1).card ∧
      s.idleThreadCount = (Finset.univ.filter fun w ↦ (s.idle w).counted = 1).card ∧
      s.machine.resets false = some 0 ∧ (s.machine.fiber 0).state.resettable = true := by
  rcases exists_run (R := Guarded (Of Accounts.step) Exclusive) Accounts.step exclusive
    (fun _ _ _ hs hok ↦ ⟨hs, exclusive_spec hok⟩) (start fun w ↦ if w then 2 else 1)
    [.schedule ⟨none, some 7, -1⟩, .work false, .work true, .work false, .work false, .work false,
      .work false, .work true, .yield false .term, .work false, .work false, .work false, .work false,
      .schedule ⟨none, some 8, -1⟩, .work false, .work true]
    (P := fun s : Accounts Bool Unit Unit ↦ decide (s.machine.activeThreadCount = 1 ∧
      s.idleThreadCount = 1 ∧ s.machine.resets false = some 0))
    (by decide +kernel) with ⟨s, h, hP⟩
  have hend := of_decide_eq_true hP
  have hcounters := counters_exact h.unguard (by decide)
  exact ⟨s, h, hend.1, hend.2.1, hcounters.1, hcounters.2.1, hend.2.2,
    (hcounters.2.2.2.2 h).2 false 0 hend.2.2⟩

end Accounts

end Server
