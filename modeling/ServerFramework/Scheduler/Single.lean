import ServerFramework.Scheduler.Ownership

/-!
# A fiber is named once

Whoever puts a fiber in the queue finds it neither there nor in a worker's hands.  Then the queue
names each fiber at most once, and no worker holds what is queued.
-/

namespace Server

open Runs

namespace Machine

variable {W D O : Type} [DecidableEq W] [DecidableEq D] [DecidableEq O]

def Queued (s : Machine W D O) (f : FiberId) : Prop := ∃ ft ∈ s.fibers, ft.fiber = some f

structure Single (s : Machine W D O) : Prop where
  once : (s.fibers.filterMap FiberAndThread.fiber).Nodup
  away : ∀ f, s.Queued f → ∀ w, ¬ (s.worker w).Holds f

/-- Nobody has the fiber of the entry. -/
def Unowned (s : Machine W D O) (ft : FiberAndThread) : Prop :=
  ∀ f, ft.fiber = some f → ¬ s.Queued f ∧ ∀ w, ¬ (s.worker w).Holds f

/-- What is put in the queue from outside `run` is in nobody's hands. -/
def Exclusive (s : Machine W D O) : Action W D O → Prop
  | .schedule ft => s.Unowned ft
  | .push d => ∀ ft, s.deliverer d = .pushing ft → s.Unowned ft
  | _ => True

variable {s s' : Machine W D O} {w : W} {wk : Worker}

omit [DecidableEq W] [DecidableEq D] [DecidableEq O] in
theorem queued_iff {f : FiberId} :
    s.Queued f ↔ f ∈ s.fibers.filterMap FiberAndThread.fiber := List.mem_filterMap.symm

omit [DecidableEq W] [DecidableEq D] [DecidableEq O] in
theorem Single.congr (h : Single s) (hq : s'.fibers = s.fibers) (hworker : s'.worker = s.worker) :
    Single s' where
  once := hq ▸ h.once
  away := by
    unfold Queued
    rw [hq, hworker]
    exact h.away

omit [DecidableEq D] [DecidableEq O] in
/-- Who holds a fiber after one worker moved: that worker, or one that held it before. -/
theorem holds_moved {w' : W} {f : FiberId} (hworker : s'.worker = Function.update s.worker w wk)
    (hf : (s'.worker w').Holds f) : wk.Holds f ∨ w' ≠ w ∧ (s.worker w').Holds f := by
  rw [hworker] at hf
  by_cases hne : w' = w
  · rw [hne, Function.update_self] at hf
    exact .inl hf
  · rw [Function.update_of_ne hne] at hf
    exact .inr ⟨hne, hf⟩

omit [DecidableEq D] [DecidableEq O] in
theorem Single.moved (h : Single s) (hq : s'.fibers = s.fibers)
    (hworker : s'.worker = Function.update s.worker w wk)
    (hkeep : ∀ f, wk.Holds f → (s.worker w).Holds f ∨ ¬ s.Queued f) : Single s' where
  once := hq ▸ h.once
  away := fun f hf w' hw' ↦ by
    have hf' : s.Queued f := by
      unfold Queued at hf ⊢
      rw [← hq]
      exact hf
    rcases holds_moved hworker hw' with hwk | ⟨-, hold⟩
    · rcases hkeep f hwk with hold | hnot
      · exact h.away f hf' w hold
      · exact hnot hf'
    · exact h.away f hf' w' hold

omit [DecidableEq W] [DecidableEq D] [DecidableEq O] in
/-- No scan takes a fiber that is in a worker's hands. -/
theorem Single.takesUnheld (h : Single s) (f : FiberId) (a : Action W D O) : s.TakesUnheld f a := by
  cases a with
  | work w =>
      intro htaken w' _
      apply h.away f
      unfold taken at htaken
      split at htaken
      · obtain ⟨⟨ft, rest⟩, htake, hf⟩ := Option.bind_eq_some_iff.mp htaken
        obtain ⟨-, a, b, hl, -⟩ := takeFirst_some htake
        exact ⟨ft, hl ▸ List.mem_append_right _ List.mem_cons_self, hf⟩
      · cases htaken
  | _ => trivial

omit [DecidableEq D] [DecidableEq O] in
theorem Single.took (h : Single s) {ft : FiberAndThread} {rest : List FiberAndThread}
    (htake : takeFirst (s.takeable (s.worker w).thread) s.fibers = some (ft, rest))
    (hq : s'.fibers = rest)
    (hworker : s'.worker = Function.update s.worker w
      { s.worker w with pc := .dispatch ft true }) : Single s' := by
  obtain ⟨-, a, b, hl, hl'⟩ := takeFirst_some htake
  have hsub : ∀ x ∈ a ++ b, x ∈ s.fibers := by
    intro x hx
    rw [hl]
    exact (List.mem_append.mp hx).elim (List.mem_append_left _)
      fun hb ↦ List.mem_append_right _ (List.mem_cons_of_mem _ hb)
  -- the fiber of the entry that is taken is named nowhere else in the queue
  have honce := h.once
  rw [hl, List.filterMap_append, List.filterMap_cons] at honce
  have hperm : (a ++ b).filterMap FiberAndThread.fiber =
      a.filterMap FiberAndThread.fiber ++ b.filterMap FiberAndThread.fiber :=
    List.filterMap_append
  have hother : ∀ f, ft.fiber = some f → ∀ x ∈ a ++ b, x.fiber ≠ some f := by
    intro f hf x hx heq
    rw [hf] at honce
    have hnot := List.nodup_middle.mp honce
    rw [← hperm, List.nodup_cons] at hnot
    exact hnot.1 (List.mem_filterMap.mpr ⟨x, hx, heq⟩)
  refine ⟨?_, fun f ⟨x, hx, hxf⟩ w' hw' ↦ ?_⟩
  · rw [hq, hl', hperm]
    cases hf : ft.fiber with
    | none =>
        rw [hf] at honce
        exact honce
    | some f =>
        rw [hf] at honce
        exact (List.nodup_cons.mp (List.nodup_middle.mp honce)).2
  · rw [hq, hl'] at hx
    rcases holds_moved hworker hw' with (hpc | hcb) | ⟨-, hold⟩
    · exact hother f hpc x hx hxf
    · exact h.away f ⟨x, hsub x hx, hxf⟩ w (.inr hcb)
    · exact h.away f ⟨x, hsub x hx, hxf⟩ w' hold

omit [DecidableEq W] [DecidableEq D] [DecidableEq O] in
/-- An entry goes to the end of the queue, and nobody has its fiber afterwards. -/
theorem Single.queued (h : Single s) {ft : FiberAndThread} (hq : s'.fibers = s.fibers ++ [ft])
    (hkeep : ∀ w f, (s'.worker w).Holds f → (s.worker w).Holds f)
    (hnew : ∀ f, ft.fiber = some f → ¬ s.Queued f ∧ ∀ w, ¬ (s'.worker w).Holds f) : Single s' where
  once := by
    rw [hq, List.filterMap_append]
    cases hf : ft.fiber with
    | none =>
        rw [List.filterMap_cons, hf]
        show (_ ++ []).Nodup
        rw [List.append_nil]
        exact h.once
    | some f =>
        rw [List.filterMap_cons, hf]
        show (_ ++ [f]).Nodup
        rw [← List.concat_eq_append, List.nodup_concat]
        exact ⟨fun hmem ↦ (hnew f hf).1 (queued_iff.mpr hmem), h.once⟩
  away := fun f ⟨x, hx, hxf⟩ w hw ↦ by
    rw [hq] at hx
    rcases List.mem_append.mp hx with hx | hx
    · exact h.away f ⟨x, hx, hxf⟩ w (hkeep w f hw)
    · rw [List.mem_singleton.mp hx] at hxf
      exact (hnew f hxf).2 w hw

omit [DecidableEq D] [DecidableEq O] in
/-- A fiber goes back to the queue from the one worker that had it. -/
theorem Single.requeued (h : Single s) {role : Role} {f : FiberId} (howned : Owned s f)
    (hpc : (s.worker w).pc = .at .requeue role f)
    (hgone : ¬ (if role = .callback then none else (s.worker w).cbFiber) = some f)
    (hq : s'.fibers = s.fibers ++ [.ofFiber (some f) (-1)])
    (hworker : s'.worker = Function.update s.worker w
      { s.worker w with
        pc := .scan
        cbFiber := if role = .callback then none else (s.worker w).cbFiber }) : Single s' := by
  have hheld : (s.worker w).Holds f := Worker.holds_of_at hpc
  apply h.queued hq
  · intro w' g hw'
    by_cases hne : w' = w
    · rw [hne, hworker, Function.update_self] at hw'
      rw [hne]
      exact .inr (release_cbFiber (hw'.kept rfl))
    · rwa [hworker, Function.update_of_ne hne] at hw'
  · intro g hg
    cases hg
    refine ⟨fun hqueued ↦ h.away f hqueued w hheld, fun w' hw' ↦ ?_⟩
    -- the worker has let go of the fiber, and no other one had it
    rcases holds_moved hworker hw' with hwk | ⟨hne, hold⟩
    · exact hgone (hwk.kept rfl)
    · exact hne (howned.unique w' w hold hheld)

omit [DecidableEq D] [DecidableEq O] in
/-- A worker that gives up its `cbFiber` where it puts the fiber back keeps the names apart. -/
theorem Single.worked (h : Single s) (hk : s.Known) (howned : ∀ f, Owned s f)
    (hgone : ∀ role f, (s.worker w).pc = .at .requeue role f →
      ¬ (if role = .callback then none else (s.worker w).cbFiber) = some f)
    (hs : Worked s w s') : Single s' := by
  cases hs with
  | took _ _ htake => exact h.took htake rfl rfl
  | resumed hpc hf _ =>
      refine h.moved rfl rfl fun g hg ↦ ?_
      left
      exact hg.imp_left fun hg ↦ by rw [hpc]; exact hf.trans hg
  | reused _ _ _ hc _ =>
      refine h.moved rfl rfl fun g hg ↦ ?_
      left
      right
      rcases hg with hg | hg
      · exact hc.trans hg
      · exact hg
  | made =>
      refine h.moved rfl rfl fun g hg ↦ ?_
      right
      -- the new fiber is not in the queue
      rintro ⟨ft, hmem, hft⟩
      have heq : some s.nextFiber = some g := hg.elim id id
      have hlt := known_iff.mp (hk.queued ft hmem) g hft
      rw [← Option.some.inj heq] at hlt
      exact Nat.lt_irrefl _ hlt
  | idled _ _ _ hpc' =>
      rcases hpc' with rfl | rfl
      all_goals exact h.moved rfl rfl fun f hf ↦ .inl (.inr (hf.kept rfl))
  | examined hpc =>
      refine h.moved rfl rfl fun g hg ↦ ?_
      left
      exact hg.imp_left fun hg ↦ by rw [hpc]; exact examined_fiber? hg
  | @requeued role f hpc _ => exact h.requeued (howned f) hpc (hgone role f hpc) rfl rfl
  | held => exact h.moved rfl rfl fun f hf ↦ .inl (.inr (release_cbFiber (hf.kept rfl)))
  | checked hpc | marked hpc | switchedIn hpc | switchedOut hpc | decremented hpc =>
      exact h.moved rfl rfl fun f hf ↦ .inl (Worker.holds_stage hpc hf)
  | foundNone | dropped | retired | awoke =>
      exact h.moved rfl rfl fun f hf ↦ .inl (.inr (hf.kept rfl))

omit [DecidableEq W] [DecidableEq D] [DecidableEq O] in
/-- `schedule` with an entry whose fiber nobody has. -/
theorem Single.scheduled (h : Single s) {ft : FiberAndThread}
    (hq : s'.fibers = (scheduleNoLock s.fibers ft).2) (hworker : s'.worker = s.worker)
    (hfree : s.Unowned ft) : Single s' := by
  unfold scheduleNoLock at hq
  dsimp only at hq
  split at hq
  · apply h.queued hq
    · rw [hworker]
      exact fun _ _ hw ↦ hw
    · rw [hworker]
      exact hfree
  · exact h.congr hq hworker

theorem Single.step (h : Single s) (hk : s.Known) (howned : ∀ f, Owned s f)
    (hgone : ∀ w role f, (s.worker w).pc = .at .requeue role f →
      ¬ (if role = .callback then none else (s.worker w).cbFiber) = some f) {a : Action W D O}
    (hfree : s.Exclusive a) (hs : Of step s a s') : Single s' := by
  cases step_cases hs with
  | scheduled => exact h.scheduled rfl rfl hfree
  | pushed hd => exact h.scheduled rfl rfl (hfree _ hd)
  | @worked w _ hw => exact h.worked hk howned (hgone w) hw
  | yielded hpc => exact h.moved rfl rfl fun f hf ↦ .inl (Worker.holds_stage hpc hf)
  | idleEnded => exact h.moved rfl rfl fun f hf ↦ .inl (.inr (hf.kept rfl))
  | _ => exact h.congr rfl rfl

end Machine

end Server
