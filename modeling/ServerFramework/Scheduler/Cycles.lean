import ServerFramework.Scheduler.Restart

/-!
# What a sequence of starts and stops leaves undone

Nothing, when `stop()` returns, as long as the root fiber is not needed a second time: `stop()` calls it
whenever it finds something left to do, and it can be called once.
-/

namespace Server.Restart

open Runs

namespace State

variable {n : Nat} {s s' : State n} {a : Act n} {cb : Callback} {f : FiberId}
  {b : Action (Option (Fin n)) Empty (Option (Option (Fin n)))} {c : Caller n}
  {m : Machine (Option (Fin n)) Empty (Option (Option (Fin n)))}

theorem Does.enters_eq (h : Does s a b c) : Machine.enters cb b = schedules cb s a := by
  cases h with
  | @scheduled t =>
      cases t with
      | fiber => rfl
      | callback c' =>
          show (if some c' = some cb then 1 else 0) = if c' = cb then 1 else 0
          simp only [Option.some_inj]
  | @worker w mv => cases mv <;> rfl
  | _ => rfl

theorem Does.finishes_eq (h : Does s a b c) :
    s.machine.finishes s.executing cb b = callbackEnds cb s a := by
  cases h with
  | _ => rfl

theorem Does.ends_eq (h : Does s a b c) : s.machine.ends f b = fiberEnds f s a := by
  cases h with
  | _ => rfl

theorem launched_unfinished (hexit : ∀ p, (m.worker (some p)).pc = .exited)
    (v : Option (Fin n) → Option Callback) : (launched m).unfinished v cb = m.unfinished v cb := by
  unfold Machine.unfinished
  congr 1
  apply Finset.sum_congr rfl
  intro w _
  cases w with
  | none => rfl
  | some p =>
      rw [hexit p]
      rfl

/-- Every callback that has been scheduled is to end until it does. -/
theorem Ok.callback (h : Ok s) (hmeets : s.Meets a) (hs : Of State.step s a s') :
    s.machine.unfinished s.executing cb + schedules cb s a =
      s'.machine.unfinished s'.executing cb + callbackEnds cb s a := by
  cases step_cases hs with
  | did hdoes hm =>
      rw [← hdoes.enters_eq, ← hdoes.finishes_eq]
      exact h.straight.unfinished_step (hdoes.inOnePiece hmeets) hm
  | started hfree hempty =>
      exact (launched_unfinished (h.exited hfree hempty) s.executing).symm
  | _ => rfl

/-- The fiber is one of the users', or is not made yet. -/
def Theirs (f : FiberId) (s : State n) : Prop := f ∈ s.made ∨ s.machine.nextFiber ≤ f

theorem theirs_before (hs : Of step s a s') (h : s'.Theirs f) : s.Theirs f := by
  cases step_cases hs with
  | @did _ b _ _ hdoes hm =>
      rcases h with hmade | hle
      · cases hdoes with
        | newFiber =>
            change f ∈ s.machine.nextFiber :: s.made at hmade
            rcases List.mem_cons.mp hmade with rfl | hmade
            · exact .inr (Nat.le_refl _)
            · exact .inl hmade
        | @worker w mv =>
            cases mv <;> exact .inl hmade
        | _ => exact .inl hmade
      · exact .inr (Nat.le_trans (Machine.step_cases hm).nextFiber_le hle)
  | _ => exact h

theorem Ok.fiber (h : Ok s) (hmeets : s.Meets a) (hs : Of State.step s a s') (htheirs : s'.Theirs f) :
    (s.machine.fiber f).state.finished.toNat + fiberEnds f s a =
      (s'.machine.fiber f).state.finished.toNat := by
  -- both sides matter: the fiber may be made by this very step
  have h' := h.step hmeets hs
  have hbefore := theirs_before hs htheirs
  cases step_cases hs with
  | @did _ b c m hdoes hm =>
      rw [← hdoes.ends_eq]
      rcases hbefore with hmade | hle
      · exact h.straight.ends_step (hdoes.inOnePiece hmeets) hm hmade
      · -- it does not exist yet, or is made by this step
        rw [h.straight.ends_absent hle b, h.straight.fresh f hle]
        rcases htheirs with hmade | hle'
        · cases hdoes with
          | newFiber =>
              change f ∈ s.machine.nextFiber :: s.made at hmade
              rcases List.mem_cons.mp hmade with rfl | hmade
              · cases hm
                show 0 = (Function.update s.machine.fiber _ _ _).state.finished.toNat
                rw [Function.update_self]
                rfl
              · exact absurd (h.straight.exist f hmade) (Nat.not_lt.mpr hle)
          | @worker w mv =>
              have hold : f ∈ s.made := by
                cases mv <;> exact hmade
              exact absurd (h.straight.exist f hold) (Nat.not_lt.mpr hle)
          | _ => exact absurd (h.straight.exist f hmade) (Nat.not_lt.mpr hle)
        · have hfresh : m.fiber f = .fresh := h'.straight.fresh f hle'
          show _ = (m.fiber f).state.finished.toNat
          rw [hfresh]
          rfl
  | _ => rfl

/-- A fiber that has been scheduled is never lost. -/
def Submitted (f : FiberId) (s : State n) : Prop := f ∈ s.made ∧ s.machine.Placed f

theorem Submitted.step (hsub : Submitted f s) (h : Ok s) (hs : Of step s a s') : Submitted f s' := by
  obtain ⟨hmade, hplaced⟩ := hsub
  cases step_cases hs with
  | did hdoes hm =>
      refine ⟨?_, h.straight.placed hm hplaced⟩
      cases hdoes with
      | newFiber => exact List.mem_cons_of_mem _ hmade
      | @worker w mv => cases mv <;> exact hmade
      | _ => exact hmade
  | started hfree hempty =>
      refine ⟨hmade, ?_⟩
      rcases hplaced with hqueued | ⟨w, hw⟩ | hfin
      · exact .inl hqueued
      · refine .inr (.inl ⟨w, ?_⟩)
        cases w with
        | none => exact hw
        | some p =>
            -- a worker of the last pool had nothing of the users' in its hands
            rcases hw with hw | hw
            · rw [h.exited hfree hempty p] at hw
              cases hw
            · exact absurd hmade ((h.straight.worker (some p)).kept f hw).1
      · exact .inr (.inr hfin)
  | _ => exact ⟨hmade, hplaced⟩

theorem submitted_of_submits (hs : Of step s a s') (hne : submits f s a ≠ 0) : Submitted f s' := by
  cases step_cases hs with
  | did hdoes hm =>
      cases hdoes with
      | @scheduled t hfree hby =>
          cases t with
          | callback => exact absurd rfl hne
          | fiber g =>
              have hg : g = f := by
                by_contra hcon
                exact hne (if_neg hcon)
              rw [hg] at hm hby
              exact ⟨hby, .inl (Machine.queued_of_schedule hm).1⟩
      | _ => exact absurd rfl hne
  | _ => exact absurd rfl hne

theorem Ok.returned (h : Ok s) (hret : s.caller = .returned) :
    s.machine.fibers = [] ∧
      ∀ w, (s.machine.worker w).pc = .scan ∨ (s.machine.worker w).pc = .exited := by
  have hcaller := h.caller
  unfold CallerOk at hcaller
  rw [hret] at hcaller
  refine ⟨hcaller.2.1, fun w ↦ ?_⟩
  -- the caller is back from the root fiber, and the pool has been joined
  cases w with
  | none => exact h.root.rests (by rw [hret]; nofun)
  | some p => exact .inr (h.exited (by rw [hret]; rfl) hcaller.2.2 p)

theorem Ok.unfinished_eq_zero (h : Ok s) (hret : s.caller = .returned) :
    s.machine.unfinished s.executing cb = 0 := by
  obtain ⟨hempty, hpc⟩ := h.returned hret
  have hhand : ∀ w, (s.machine.worker w).pc.hand (s.executing w) cb = 0 := by
    intro w
    rcases hpc w with hpc | hpc
    · rw [hpc]
      rfl
    · rw [hpc]
      rfl
  unfold Machine.unfinished
  rw [hempty, Finset.sum_eq_zero fun w _ ↦ hhand w]
  rfl

theorem Ok.finished (h : Ok s) (hsub : Submitted f s) (hret : s.caller = .returned) :
    (s.machine.fiber f).state.finished = true := by
  obtain ⟨hempty, hpc⟩ := h.returned hret
  obtain ⟨hmade, ⟨ft, hft, -⟩ | ⟨w, hw | hw⟩ | hfin⟩ := hsub
  · rw [hempty] at hft
    exact absurd hft List.not_mem_nil
  · rcases hpc w with hpc | hpc
    · rw [hpc] at hw
      cases hw
    · rw [hpc] at hw
      cases hw
  · exact absurd hmade ((h.straight.worker w).kept f hw).1
  · exact hfin

theorem Ok.asserted (h : Ok s) : s.Asserted where
  workers := h.straight.asserts
  start := fun hfree ↦ (h.caller.free hfree).2
  call := fun hcalling ↦ by
    rw [(h.caller.calling hcalling).2]
    nofun
  destroyed := fun _ hnot ↦ h.straight.destroyable hnot

/-- As long as no `stop` finds something left to do after the root fiber has ended, and no worker goes
into `swapIn` with a fiber that another one is in `swapIn` with or executes: the root fiber is never
called after its end, the assertions hold, and a `stop` that returns has left nothing undone. -/
theorem restart_safe {thread : Option (Fin n) → Int} {as : List (Act n)}
    (h : Run (Guarded (Of step) Meets) (constructed thread) as s) :
    ¬ (s.caller = .calling ∧ s.rootFiber.finished = true) ∧ s.Asserted ∧
      (s.caller = .returned →
        (∀ cb, tally step (callbackEnds cb) (constructed thread) as =
          tally step (schedules cb) (constructed thread) as) ∧
        ∀ f, tally step (submits f) (constructed thread) as ≠ 0 →
          tally step (fiberEnds f) (constructed thread) as = 1) := by
  have hI : ∀ (s : State n) a s', Ok s → Guarded (Of step) Meets s a s' → Ok s' :=
    fun _ _ _ hok hs ↦ hok.step hs.2 hs.1
  have hok := h.invariant hI (constructed_ok thread)
  refine ⟨fun ⟨hcalling, hfin⟩ ↦ ?_, hok.asserted, fun hret ↦ ⟨fun cb ↦ ?_, fun f hsub ↦ ?_⟩⟩
  · rw [(hok.caller.calling hcalling).2] at hfin
    cases hfin
  · -- nothing was to end at the start, and nothing is at the end
    have hbal := tally_balance (n := fun s ↦ s.machine.unfinished s.executing cb)
      (fun _ _ _ hs ↦ hs.1) hI (fun s a s' hok hs ↦ hok.callback hs.2 hs.1) h (constructed_ok thread)
    have hstart : (constructed thread : State n).machine.unfinished (fun _ ↦ none) cb = 0 := by
      unfold Machine.unfinished
      rw [Finset.sum_eq_zero fun w _ ↦ ?_]
      · rfl
      · cases w <;> rfl
    change (constructed thread : State n).machine.unfinished (fun _ ↦ none) cb + _ = _ at hbal
    rw [hstart, hok.unfinished_eq_zero hret, Nat.zero_add, Nat.zero_add] at hbal
    exact hbal.symm
  -- once scheduled the fiber stays submitted, and it ends at most once from when it is made
  · have hlast : Submitted f s := h.after_tally (fun _ _ _ hs ↦ hs.1) hI
      (fun _ _ _ _ hs ↦ submitted_of_submits hs.1) (fun _ _ _ hok hs hsub ↦ hsub.step hok hs.1)
      (constructed_ok thread) hsub
    obtain ⟨hrun, -⟩ := h.backward (Q := Theirs f) (fun s a s' hs ↦ theirs_before hs.1)
      (.inl hlast.1)
    have hgain := tally_gain (n := fun s ↦ (s.machine.fiber f).state.finished.toNat)
      (fun _ _ _ hs ↦ hs.1.1) (fun s a s' hok hs ↦ hI s a s' hok hs.1)
      (fun s a s' hok hs ↦ hok.fiber hs.1.2 hs.1.1 hs.2) hrun (constructed_ok thread)
    rw [hok.finished hlast hret] at hgain
    exact (Nat.zero_add _).symm.trans hgain

/-- The next `k` steps of a worker in `run`. -/
def works (w : Option (Fin n)) (k : Nat) : List (Act n) := List.replicate k (.worker w .work)

/-- From a scan that finds nothing to the end of `run`. -/
def leaves (w : Option (Fin n)) : List (Act n) :=
  works w 2 ++ [.worker w .testQueue, .worker w .testActive, .worker w .idleEnd] ++ works w 2

/-- A pool of one.  The first `stop` calls the root fiber, which runs a fiber while a callback throws on
the pool; before the second one the new pool has run everything. -/
def twoCycles : List (Act 1) :=
  List.flatten
    [[.start, .newFiber, .schedule (.fiber 0), .schedule (.callback 7), .stop, .stop, .stop, .stop],
      works none 5, works (some 0) 5, [.worker none (.yield .term)], works none 3,
      [.worker (some 0) (.yield .except)], works (some 0) 4, leaves none, leaves (some 0),
      [.stop, .stop, .stop, .stop, .start, .schedule (.callback 8)], works (some 0) 5,
      [.worker (some 0) (.yield .term)], works (some 0) 6,
      [.stop, .stop, .stop, .stop, .stop, .stop, .worker (some 0) .testQueue,
        .worker (some 0) .testActive, .worker (some 0) .idleEnd],
      works (some 0) 2, [.stop, .stop]]

theorem restart_safe_twoCycles : ∃ s : State 1,
    Run (Guarded (Of step) Meets) (constructed fun _ ↦ 1) twoCycles s ∧
      s.caller = .returned ∧ s.rootFiber = .term ∧ s.Asserted ∧
      tally step (callbackEnds 7) (constructed fun _ ↦ 1) twoCycles = 1 ∧
      tally step (callbackEnds 8) (constructed fun _ ↦ 1) twoCycles = 1 ∧
      tally step (fiberEnds 0) (constructed fun _ ↦ 1) twoCycles = 1 := by
  obtain ⟨s, hrun, hend⟩ := exists_run step (fun s a ↦ decide (s.Meets a))
    (fun s a s' hs hok ↦ (⟨hs, of_decide_eq_true hok⟩ : Guarded (Of step) Meets s a s'))
    (constructed fun _ ↦ 1) twoCycles
    (P := fun s ↦ decide (s.caller = .returned ∧ s.rootFiber = .term)) (by decide +kernel)
  obtain ⟨hret, hterm⟩ := of_decide_eq_true hend
  obtain ⟨-, hasserted, hdone⟩ := restart_safe hrun
  obtain ⟨hcallbacks, hfibers⟩ := hdone hret
  refine ⟨s, hrun, hret, hterm, hasserted, ?_, ?_, hfibers 0 (by decide +kernel)⟩
  · rw [hcallbacks 7]
    decide +kernel
  · rw [hcallbacks 8]
    decide +kernel

/-! ## The other steps -/

/-- A `stop` that finds something left to do after the root fiber has ended calls it once more. -/
theorem calls_ended_root (hfin : s.rootFiber.finished = true) (hwork : s.FindsWork)
    (hs : Of step s .stop s') : s'.caller = .calling ∧ s'.rootFiber.finished = true := by
  obtain ⟨hlate, hcond⟩ := hwork
  cases step_cases hs with
  | did hdoes hm =>
      refine ⟨?_, hfin⟩
      cases hdoes with
      | askedLate _ ho =>
          obtain ⟨-, hne⟩ | ⟨ho', -⟩ := hcond
          · have hfalse : s.machine.drained ≠ true := by
              intro hdrained
              unfold Machine.drained at hdrained
              rw [Bool.and_eq_true] at hdrained
              exact hne (List.isEmpty_iff.mp hdrained.2)
            show (if s.machine.drained = true then Caller.late else Caller.calling) = .calling
            rw [if_neg hfalse]
          · cases ho.symm.trans ho'
      | toldLate _ ho =>
          obtain ⟨ho', -⟩ | ⟨-, hne⟩ := hcond
          · cases ho.symm.trans ho'
          · show (if s.machine.activeThreadCount = 0 then Caller.late else Caller.calling) = .calling
            rw [if_neg hne]
      | stoppedLate _ ho =>
          obtain ⟨ho', -⟩ | ⟨ho', -⟩ := hcond
          · cases ho.symm.trans ho'
          · cases ho.symm.trans ho'
      | entered hfree =>
          rw [hlate] at hfree
          cases hfree
      | cleared hc => cases hlate.symm.trans hc
      | askedEarly hc => cases hlate.symm.trans hc
      | toldEarly hc => cases hlate.symm.trans hc
      | stoppedEarly hc => cases hlate.symm.trans hc
      | clearedAgain hc => cases hlate.symm.trans hc
  | called hc => cases hlate.symm.trans hc
  | back hc => cases hlate.symm.trans hc
  | swapped hc => cases hlate.symm.trans hc
  | joined hc => cases hlate.symm.trans hc
  | returned hc => cases hlate.symm.trans hc

/-- A worker that goes into `swapIn` with a fiber that another one is in `swapIn` with or executes shares
it with the other. -/
theorem shares_fiber {w : Option (Fin n)} (hover : s.machine.Overlaps w)
    (hs : s.machine.work w = some m) :
    ∃ f w', w' ≠ w ∧ (m.worker w).pc.at? = some f ∧ (m.worker w').pc.at? = some f := by
  obtain ⟨f, htaken, hlive, w', hat⟩ := hover
  have hne : w' ≠ w := by
    rintro rfl
    cases hpc : (s.machine.worker w').pc with
    | dispatch ft isActive =>
        rw [hpc] at hat
        cases hat
    | _ =>
        rw [hpc] at htaken
        cases htaken
  -- the step moves only `w`
  have hother : (m.worker w').pc.at? = some f := by
    obtain ⟨-, wk, hworker, -⟩ := (Machine.work_cases hs).worker_eq
    rw [hworker, Function.update_of_ne hne]
    exact hat
  refine ⟨f, w', hne, ?_, hother⟩
  cases hpc : (s.machine.worker w).pc with
  | dispatch ft isActive =>
      rw [hpc] at htaken
      have hfilter : (ft.fiber.filter fun f ↦ !(s.machine.fiber f).state.finished) = some f := by
        rw [Option.filter_eq_some_iff, hlive]
        exact ⟨htaken, rfl⟩
      unfold Machine.work at hs
      rw [hpc] at hs
      dsimp only at hs
      unfold Machine.dispatch at hs
      rw [hfilter] at hs
      cases hs
      show (Function.update s.machine.worker w _ w).pc.at? = some f
      rw [Function.update_self]
      rfl
  | _ =>
      rw [hpc] at htaken
      cases htaken

/-- No pool: the first `stop` runs a task in the root fiber, and the second one finds a new task. -/
def calledAgain : List (Act 0) :=
  List.flatten
    [[.start, .schedule (.callback 7), .stop, .stop, .stop, .stop, .stop, .stop], works none 5,
      [.worker none (.yield .term)], works none 4, leaves none,
      [.stop, .stop, .stop, .start, .schedule (.callback 8), .stop, .stop, .stop, .stop, .stop]]

/-- One fiber, scheduled twice and taken by both workers. -/
def takenTwice : List (Act 1) :=
  List.flatten
    [[.start, .newFiber, .schedule (.fiber 0), .schedule (.fiber 0), .stop, .stop, .stop, .stop],
      works none 2, works (some 0) 2, works none 2]

/-- The root fiber is called after its end; and another run, `swapIn` of a fiber that executes. -/
theorem restart_fails :
    (∃ s : State 0, Run (Of step) (constructed fun _ ↦ 1) calledAgain s ∧
      s.caller = .calling ∧ s.rootFiber = .term) ∧
    ∃ s : State 1, Run (Of step) (constructed fun _ ↦ 1) takenTwice s ∧ ¬ s.Asserted := by
  have hcalled : (exec step (constructed fun _ ↦ 1) calledAgain).map
      (fun s ↦ decide (s.caller = .calling ∧ s.rootFiber = .term)) = some true := by decide +kernel
  have htaken : (exec step (constructed fun _ ↦ 1) takenTwice).map
      (fun s ↦ decide ((s.machine.worker (some 0)).pc = .at .check .task 0 ∧
        (s.machine.fiber 0).state = .exec)) = some true := by decide +kernel
  obtain ⟨s, hs, hend⟩ := Option.map_eq_some_iff.mp hcalled
  obtain ⟨s', hs', hend'⟩ := Option.map_eq_some_iff.mp htaken
  obtain ⟨hpc, hexec⟩ := of_decide_eq_true hend'
  refine ⟨⟨s, exec_eq_some_iff.mp hs, of_decide_eq_true hend⟩, s', exec_eq_some_iff.mp hs',
    fun hasserted ↦ ?_⟩
  have hworker := hasserted.workers (some 0)
  unfold Machine.Asserts at hworker
  rw [hpc] at hworker
  exact hworker.1 hexec

end State

end Server.Restart
