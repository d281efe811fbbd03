import ServerFramework.Scheduler.Steps
import Mathlib.Data.Fintype.Basic

/-!
# A fiber belongs to one worker at a time

A worker holds a fiber from taking its queue entry until `run` is done with it, and holds its
`cbFiber`.  The test `getState() == EXEC` while scanning is all that keeps a second worker away, and
`EXEC` is written outside the lock.  As long as no scan takes a fiber that another worker holds, the
holder is unique, and everything that `run` and `swapIn` rely on follows.
-/

namespace Server

open Runs

/-- The fiber that a worker is busy with. -/
def Pc.fiber? : Pc → Option FiberId
  | .dispatch ft _ => ft.fiber
  | .at _ _ f => some f
  | _ => none

def Worker.Holds (wk : Worker) (f : FiberId) : Prop := wk.pc.fiber? = some f ∨ wk.cbFiber = some f

instance (wk : Worker) (f : FiberId) : Decidable (wk.Holds f) := inferInstanceAs (Decidable (_ ∨ _))

/-- A worker whose program counter names no fiber holds its `cbFiber` at most. -/
theorem Worker.Holds.kept {wk : Worker} {f : FiberId} (h : wk.Holds f) (hpc : wk.pc.fiber? = none) :
    wk.cbFiber = some f := by
  rw [Holds, hpc] at h
  exact h.resolve_left (Option.some_ne_none f).symm

/-- The fiber executes on the worker. -/
def Worker.Executes (wk : Worker) (f : FiberId) : Prop :=
  ∃ role, wk.pc = .at .running role f ∨ wk.pc = .at .leaving role f

theorem Worker.holds_of_at {wk : Worker} {stage : Stage} {role : Role} {f : FiberId}
    (h : wk.pc = .at stage role f) : wk.Holds f :=
  .inl (by rw [h]; rfl)

theorem Worker.holds_stage {wk : Worker} {stage stage' : Stage} {role : Role} {f g : FiberId}
    (h : wk.pc = .at stage role f) (hg : ({ wk with pc := .at stage' role f } : Worker).Holds g) :
    wk.Holds g :=
  hg.imp_left fun hg ↦ by rw [h]; exact hg

theorem Worker.Executes.holds {wk : Worker} {f : FiberId} (h : wk.Executes f) : wk.Holds f := by
  obtain ⟨role, h | h⟩ := h <;> exact holds_of_at h

/-- Ready to be resumed, or not to be resumed at all. -/
def Fiber.Idle (fb : Fiber) : Prop := fb.state ≠ .exec ∧ fb.saved = true

/-- The state is one that a fiber writes for itself. -/
def Fiber.Yielded (fb : Fiber) : Prop := fb.state ≠ .exec ∧ fb.state ≠ .init

/-- What the holder of a fiber can rely on at each stage. -/
def Stage.Ok (stage : Stage) (fb : Fiber) : Prop :=
  match stage with
  | .check => fb.Idle
  | .mark => fb.Idle
  | .switchIn => fb.state = .exec ∧ fb.saved = true
  | .running => fb.state = .exec
  | .leaving => fb.Yielded
  | .returned => fb.Yielded ∧ fb.saved = true
  | .examine => fb.Yielded ∧ fb.saved = true
  | .requeue => fb.state = .ready ∧ fb.saved = true
  | .hold => fb.state = .hold ∧ fb.saved = true
  | .retire => fb.state.finished = true ∧ fb.saved = true

/-- What the worker that holds `f` can rely on. -/
def Pc.Fits (pc : Pc) (f : FiberId) (fb : Fiber) : Prop :=
  match pc with
  | .at stage _ g => if g = f then stage.Ok fb else fb.Idle
  | _ => fb.Idle

theorem Pc.fits_self {stage : Stage} {role : Role} {f : FiberId} {fb : Fiber} :
    (Pc.at stage role f).Fits f fb ↔ stage.Ok fb := by
  show (if f = f then stage.Ok fb else fb.Idle) ↔ _
  rw [if_pos rfl]

theorem Pc.fits_other {pc : Pc} {f : FiberId} {fb : Fiber}
    (h : ∀ stage role, pc ≠ .at stage role f) : pc.Fits f fb ↔ fb.Idle := by
  unfold Fits
  split
  · rename_i stage role g
    rw [if_neg]
    rintro rfl
    exact h stage role rfl
  · exact Iff.rfl

namespace Machine

variable {W D O : Type} [DecidableEq W] [DecidableEq D] [DecidableEq O]

/-- The fiber in the entry that the next scan of a worker takes. -/
def taken (s : Machine W D O) (w : W) : Option FiberId :=
  match (s.worker w).pc with
  | .scan => (takeFirst (s.takeable (s.worker w).thread) s.fibers).bind fun p ↦ p.1.fiber
  | _ => none

/-- A scan that takes `f` finds it in no other worker's hands. -/
def TakesUnheld (s : Machine W D O) (f : FiberId) : Action W D O → Prop
  | .work w => s.taken w = some f → ∀ w', w' ≠ w → ¬ (s.worker w').Holds f
  | _ => True

/-! ## Every fiber in use exists -/

structure Known (s : Machine W D O) : Prop where
  queued : ∀ ft ∈ s.fibers, s.known ft = true
  held : ∀ w f, (s.worker w).Holds f → f < s.nextFiber
  registered : ∀ r ∈ s.registrations, s.known r.ft = true
  carried : ∀ d ft, s.deliverer d = .pushing ft → s.known ft = true

omit [DecidableEq W] [DecidableEq D] [DecidableEq O] in
theorem known_iff {s : Machine W D O} {ft : FiberAndThread} :
    s.known ft = true ↔ ∀ f, ft.fiber = some f → f < s.nextFiber := by
  unfold known
  cases ft.fiber <;> simp

omit [DecidableEq W] [DecidableEq D] [DecidableEq O] in
theorem known_mono {s s' : Machine W D O} (h : s.nextFiber ≤ s'.nextFiber) {ft : FiberAndThread}
    (hft : s.known ft = true) : s'.known ft = true :=
  known_iff.mpr fun f hf ↦ Nat.lt_of_lt_of_le (known_iff.mp hft f hf) h

theorem mem_scheduleNoLock {fibers : List FiberAndThread} {ft x : FiberAndThread}
    (h : x ∈ (scheduleNoLock fibers ft).2) : x ∈ fibers ∨ x = ft := by
  unfold scheduleNoLock at h
  dsimp only at h
  split at h
  · simpa using h
  · exact .inl h

omit [DecidableEq W] [DecidableEq D] [DecidableEq O] in
/-- Nothing enters the machine but what is known. -/
theorem Known.of {s s' : Machine W D O} (h : s.Known) (hnext : s.nextFiber ≤ s'.nextFiber)
    (hq : ∀ ft ∈ s'.fibers, ft ∈ s.fibers ∨ s'.known ft = true)
    (hw : ∀ w f, (s'.worker w).Holds f → (s.worker w).Holds f ∨ f < s'.nextFiber)
    (hr : ∀ r ∈ s'.registrations, r ∈ s.registrations ∨ s'.known r.ft = true)
    (hd : ∀ d ft, s'.deliverer d = .pushing ft →
      s.deliverer d = .pushing ft ∨ s'.known ft = true) : s'.Known where
  queued := fun ft hft ↦ (hq ft hft).elim (fun h' ↦ known_mono hnext (h.queued ft h')) id
  held := fun w f hf ↦ (hw w f hf).elim (fun h' ↦ Nat.lt_of_lt_of_le (h.held w f h') hnext) id
  registered := fun r hmem ↦ (hr r hmem).elim (fun h' ↦ known_mono hnext (h.registered r h')) id
  carried := fun d ft hft ↦ (hd d ft hft).elim (fun h' ↦ known_mono hnext (h.carried d ft h')) id

omit [DecidableEq D] [DecidableEq O] in
theorem holds_update {s : Machine W D O} {w : W} {wk : Worker} {n : FiberId}
    (h : ∀ f, wk.Holds f → (s.worker w).Holds f ∨ f < n) (w' : W) (f : FiberId)
    (hf : (Function.update s.worker w wk w').Holds f) : (s.worker w').Holds f ∨ f < n := by
  by_cases hw : w' = w
  · subst hw
    rw [Function.update_self] at hf
    exact h f hf
  · rw [Function.update_of_ne hw] at hf
    exact .inl hf

omit [DecidableEq D] [DecidableEq O] in
theorem Known.moved {s s' : Machine W D O} (h : s.Known) {w : W} {wk : Worker}
    (hnext : s'.nextFiber = s.nextFiber) (hq : s'.fibers = s.fibers)
    (hr : s'.registrations = s.registrations) (hd : s'.deliverer = s.deliverer)
    (hworker : s'.worker = Function.update s.worker w wk)
    (hkeep : ∀ f, wk.Holds f → (s.worker w).Holds f) : s'.Known := by
  refine h.of hnext.ge (fun ft hft ↦ .inl (hq ▸ hft)) (fun w' f hf ↦ ?_)
    (fun r hmem ↦ .inl (hr ▸ hmem)) fun d ft hft ↦ .inl (hd ▸ hft)
  rw [hworker] at hf
  exact holds_update (fun f hf ↦ .inl (hkeep f hf)) w' f hf

omit [DecidableEq W] [DecidableEq D] [DecidableEq O] in
theorem examined_fiber? {s : Machine W D O} {role : Role} {f g : FiberId}
    (h : (s.examined role f).fiber? = some g) : some f = some g := by
  unfold examined at h
  split at h
  · exact h
  · split at h
    · cases role with
      | task => cases h
      | callback => exact h
    · exact h

theorem release_cbFiber {role : Role} {cbFiber : Option FiberId} {f : FiberId}
    (h : (if role = .callback then none else cbFiber) = some f) : cbFiber = some f := by
  split at h
  · cases h
  · exact h

omit [DecidableEq D] [DecidableEq O] in
theorem Known.worked {s s' : Machine W D O} (h : s.Known) {w : W} (hs : Worked s w s') :
    s'.Known := by
  cases hs with
  | @took ft rest hpc hm htake =>
      obtain ⟨-, a, b, hl, hl'⟩ := takeFirst_some htake
      refine h.of (Nat.le_refl _) (fun x hx ↦ .inl ?_)
        (holds_update fun f hf ↦ ?_) (fun r hr ↦ .inl hr) fun d x hx ↦ .inl hx
      · change x ∈ rest at hx
        rw [hl'] at hx
        rw [hl]
        simp only [List.mem_append, List.mem_cons] at hx ⊢
        exact hx.imp_right .inr
      · rcases hf with hf | hf
        · have hmem : ft ∈ s.fibers := by
            rw [hl]
            exact List.mem_append_right _ List.mem_cons_self
          exact .inr (known_iff.mp (h.queued ft hmem) f hf)
        · exact .inl (.inr hf)
  | foundNone => exact h.moved rfl rfl rfl rfl rfl fun f hf ↦ .inr (hf.kept rfl)
  | resumed hpc hf _ =>
      refine h.moved rfl rfl rfl rfl rfl fun g hg ↦ hg.imp_left fun hg ↦ ?_
      rw [hpc]
      exact hf.trans hg
  | reused hpc _ hcb hc _ =>
      refine h.moved rfl rfl rfl rfl rfl fun g hg ↦ .inr ?_
      rcases hg with hg | hg
      · exact hc.trans hg
      · exact hg
  | made hpc _ hcb hc =>
      refine h.of (Nat.le_succ _) (fun x hx ↦ .inl hx)
        (holds_update fun f hf ↦ .inr ?_) (fun r hr ↦ .inl hr) fun d x hx ↦ .inl hx
      have heq : some s.nextFiber = some f := hf.elim id id
      rw [← Option.some.inj heq]
      exact Nat.lt_succ_self _
  | dropped => exact h.moved rfl rfl rfl rfl rfl fun f hf ↦ .inr (hf.kept rfl)
  | idled hpc hfin _ hpc' =>
      refine h.moved rfl rfl rfl rfl rfl fun f hf ↦ .inr (hf.kept ?_)
      rcases hpc' with rfl | rfl <;> rfl
  | checked hpc => exact h.moved rfl rfl rfl rfl rfl fun f hf ↦ Worker.holds_stage hpc hf
  | marked hpc => exact h.moved rfl rfl rfl rfl rfl fun f hf ↦ Worker.holds_stage hpc hf
  | switchedIn hpc => exact h.moved rfl rfl rfl rfl rfl fun f hf ↦ Worker.holds_stage hpc hf
  | switchedOut hpc => exact h.moved rfl rfl rfl rfl rfl fun f hf ↦ Worker.holds_stage hpc hf
  | decremented hpc => exact h.moved rfl rfl rfl rfl rfl fun f hf ↦ Worker.holds_stage hpc hf
  | @examined role f hpc =>
      refine h.moved rfl rfl rfl rfl rfl fun g hg ↦ hg.imp_left fun hg ↦ ?_
      rw [hpc]
      exact examined_fiber? hg
  | @requeued role f hpc hm =>
      refine h.of (Nat.le_refl _) (fun x hx ↦ ?_) (holds_update fun g hg ↦ .inl (.inr ?_))
        (fun r hr ↦ .inl hr) fun d x hx ↦ .inl hx
      · apply (List.mem_append.mp hx).imp_right
        intro hx
        rw [List.mem_singleton.mp hx]
        refine known_iff.mpr fun g hg ↦ h.held w g (.inl ?_)
        rw [hpc]
        exact hg
      · exact release_cbFiber (hg.kept rfl)
  | held hpc =>
      exact h.moved rfl rfl rfl rfl rfl fun f hf ↦ .inr (release_cbFiber (hf.kept rfl))
  | retired => exact h.moved rfl rfl rfl rfl rfl fun f hf ↦ .inr (hf.kept rfl)
  | awoke => exact h.moved rfl rfl rfl rfl rfl fun f hf ↦ .inr (hf.kept rfl)

omit [DecidableEq W] [DecidableEq O] in
/-- A deliverer that takes hold of nothing, or of something known. -/
theorem carries_update {s : Machine W D O} {d : D} {v : Deliverer}
    (h : ∀ ft, v = .pushing ft → s.known ft = true) (d' : D) (ft : FiberAndThread)
    (hft : Function.update s.deliverer d v d' = .pushing ft) :
    s.deliverer d' = .pushing ft ∨ s.known ft = true := by
  by_cases hd : d' = d
  · subst hd
    rw [Function.update_self] at hft
    exact .inr (h ft hft)
  · rw [Function.update_of_ne hd] at hft
    exact .inl hft

theorem Known.step {s s' : Machine W D O} (h : s.Known) {a : Action W D O} (hs : Of step s a s') :
    s'.Known := by
  cases step_cases hs with
  | newFiber =>
      exact h.of (Nat.le_succ _) (fun x hx ↦ .inl hx) (fun w f hf ↦ .inl hf) (fun r hr ↦ .inl hr)
        fun d x hx ↦ .inl hx
  | scheduled hm hft =>
      refine h.of (Nat.le_refl _) (fun x hx ↦ ?_) (fun w f hf ↦ .inl hf) (fun r hr ↦ .inl hr)
        fun d x hx ↦ .inl hx
      exact (mem_scheduleNoLock hx).imp_right fun heq ↦ by rw [heq]; exact hft
  | worked hw => exact h.worked hw
  | yielded hpc => exact h.moved rfl rfl rfl rfl rfl fun f hf ↦ Worker.holds_stage hpc hf
  | idleEnded => exact h.moved rfl rfl rfl rfl rfl fun f hf ↦ .inr (hf.kept rfl)
  | eventAdded hpc =>
      refine h.of (Nat.le_refl _) (fun x hx ↦ .inl hx) (fun w f hf ↦ .inl hf) (fun r hr ↦ ?_)
        fun d x hx ↦ .inl hx
      apply (List.mem_append.mp hr).imp_right
      intro hr
      rw [List.mem_singleton.mp hr]
      apply known_iff.mpr
      intro g hg
      rw [← Option.some.inj hg]
      exact h.held _ _ (Worker.holds_of_at hpc)
  | callbackAdded =>
      refine h.of (Nat.le_refl _) (fun x hx ↦ .inl hx) (fun w f hf ↦ .inl hf) (fun r hr ↦ ?_)
        fun d x hx ↦ .inl hx
      apply (List.mem_append.mp hr).imp_right
      intro hr
      rw [List.mem_singleton.mp hr]
      exact known_iff.mpr nofun
  | deleted =>
      exact h.of (Nat.le_refl _) (fun x hx ↦ .inl hx) (fun w f hf ↦ .inl hf)
        (fun r hr ↦ .inl (List.mem_of_mem_erase hr)) fun d x hx ↦ .inl hx
  | triggered _ _ hr =>
      refine h.of (Nat.le_refl _) (fun x hx ↦ .inl hx) (fun w f hf ↦ .inl hf)
        (fun r hr ↦ .inl (List.mem_of_mem_erase hr)) (carries_update fun ft hft ↦ ?_)
      cases hft
      exact h.registered _ hr
  | pushed hd hm =>
      refine h.of (Nat.le_refl _) (fun x hx ↦ ?_) (fun w f hf ↦ .inl hf) (fun r hr ↦ .inl hr)
        (carries_update nofun)
      exact (mem_scheduleNoLock hx).imp_right fun heq ↦ by rw [heq]; exact h.carried _ _ hd
  | uncounted =>
      exact h.of (Nat.le_refl _) (fun x hx ↦ .inl hx) (fun w f hf ↦ .inl hf) (fun r hr ↦ .inl hr)
        (carries_update nofun)
  | _ =>
      exact h.of (Nat.le_refl _) (fun x hx ↦ .inl hx) (fun w f hf ↦ .inl hf) (fun r hr ↦ .inl hr)
        fun d x hx ↦ .inl hx

omit [DecidableEq W] [DecidableEq D] [DecidableEq O] in
theorem start_known (thread : W → Int) : (start thread : Machine W D O).Known where
  queued := nofun
  held := fun w f hf ↦ by rcases hf with hf | hf <;> cases hf
  registered := nofun
  carried := nofun

/-! ## The holder of a fiber -/

structure Owned (s : Machine W D O) (f : FiberId) : Prop where
  unique : ∀ w w', (s.worker w).Holds f → (s.worker w').Holds f → w = w'
  fits : ∀ w, (s.worker w).Holds f → (s.worker w).pc.Fits f (s.fiber f)
  free : (∀ w, ¬ (s.worker w).Holds f) → (s.fiber f).Idle

variable {s s' : Machine W D O} {f : FiberId} {w : W} {wk : Worker}

omit [DecidableEq W] [DecidableEq D] [DecidableEq O] in
/-- What the worker that has the fiber may rely on. -/
theorem Owned.ok (h : Owned s f) {stage : Stage} {role : Role}
    (hpc : (s.worker w).pc = .at stage role f) : stage.Ok (s.fiber f) := by
  have hfits := h.fits w (Worker.holds_of_at hpc)
  rwa [hpc, Pc.fits_self] at hfits

omit [DecidableEq W] [DecidableEq D] [DecidableEq O] in
theorem Owned.congr (h : Owned s f) (hworker : s'.worker = s.worker)
    (hfiber : s'.fiber f = s.fiber f) : Owned s' f where
  unique := by rw [hworker]; exact h.unique
  fits := by rw [hworker, hfiber]; exact h.fits
  free := by rw [hworker, hfiber]; exact h.free

omit [DecidableEq D] [DecidableEq O] in
/-- A worker that is the only one to hold `f` can change it. -/
theorem Owned.sole (hother : ∀ w', w' ≠ w → ¬ (s.worker w').Holds f)
    (hworker : s'.worker = Function.update s.worker w wk) (hfits : wk.pc.Fits f (s'.fiber f)) :
    Owned s' f := by
  -- the other workers are as they were
  have hnone : ∀ w', w' ≠ w → ¬ (s'.worker w').Holds f := by
    intro w' hw'
    rw [hworker, Function.update_of_ne hw']
    exact hother w' hw'
  have hself : s'.worker w = wk := by rw [hworker, Function.update_self]
  refine ⟨fun w₁ w₂ h₁ h₂ ↦ ?_, fun w' hw' ↦ ?_, fun hfree ↦ ?_⟩
  · rw [not_imp_not.mp (hnone w₁) h₁, not_imp_not.mp (hnone w₂) h₂]
  · obtain rfl := not_imp_not.mp (hnone w') hw'
    rw [hself]
    exact hfits
  · refine (Pc.fits_other fun stage role hpc ↦ hfree w ?_).mp hfits
    rw [hself]
    exact Worker.holds_of_at hpc

omit [DecidableEq D] [DecidableEq O] in
theorem Owned.move (h : Owned s f) (hworker : s'.worker = Function.update s.worker w wk)
    (hfiber : s'.fiber f = s.fiber f) (hkeep : wk.Holds f → (s.worker w).Holds f)
    (hfits : (s.worker w).pc.Fits f (s.fiber f) → wk.pc.Fits f (s.fiber f)) : Owned s' f := by
  by_cases hw : (s.worker w).Holds f
  · apply Owned.sole (fun w' hne hw' ↦ hne (h.unique w' w hw' hw)) hworker
    rw [hfiber]
    exact hfits (h.fits w hw)
  · -- the worker did not hold `f`, so the holders are the same as before
    have hholds : ∀ w', (s'.worker w').Holds f ↔ (s.worker w').Holds f := by
      intro w'
      rw [hworker]
      by_cases hne : w' = w
      · subst hne
        rw [Function.update_self]
        exact ⟨hkeep, fun hc ↦ absurd hc hw⟩
      · rw [Function.update_of_ne hne]
    refine ⟨fun w₁ w₂ h₁ h₂ ↦ h.unique w₁ w₂ ((hholds w₁).mp h₁) ((hholds w₂).mp h₂),
      fun w' hw' ↦ ?_, fun hfree ↦ ?_⟩
    · have hne : w' ≠ w := by
        rintro rfl
        exact hw ((hholds w').mp hw')
      rw [hworker, Function.update_of_ne hne, hfiber]
      exact h.fits w' ((hholds w').mp hw')
    · rw [hfiber]
      exact h.free fun w' ↦ mt (hholds w').mpr (hfree w')

theorem fits_idle {pc : Pc} {fb : Fiber} (h : ∀ stage role, pc ≠ .at stage role f)
    (hfits : pc.Fits f fb) : fb.Idle :=
  (Pc.fits_other h).mp hfits

omit [DecidableEq D] [DecidableEq O] in
theorem Owned.onward (h : Owned s f) {st : Stage} {role : Role} {g : FiberId} {fb : Fiber}
    (hpc : (s.worker w).pc = .at st role g) (hworker : s'.worker = Function.update s.worker w wk)
    (hfiber : s'.fiber = Function.update s.fiber g fb)
    (hkeep : wk.Holds f → (s.worker w).Holds f)
    (hfits : st.Ok (s.fiber g) → wk.pc.Fits g fb)
    (hpc' : ∀ stage role' f', wk.pc = .at stage role' f' → f' = g) : Owned s' f := by
  by_cases hfg : f = g
  · subst hfg
    have hw := Worker.holds_of_at hpc
    apply Owned.sole (fun w' hne hw' ↦ hne (h.unique w' w hw' hw)) hworker
    rw [hfiber, Function.update_self]
    exact hfits (h.ok hpc)
  · apply h.move hworker (by rw [hfiber, Function.update_of_ne hfg]) hkeep
    intro hf
    rw [hpc] at hf
    refine (Pc.fits_other fun stage role' heq ↦ hfg (hpc' stage role' f heq)).mpr
      (fits_idle (fun stage role' heq ↦ ?_) hf)
    cases heq
    exact hfg rfl

omit [DecidableEq D] [DecidableEq O] in
theorem Owned.stage (h : Owned s f) {st st' : Stage} {role : Role} {g : FiberId} {fb : Fiber}
    (hpc : (s.worker w).pc = .at st role g)
    (hworker : s'.worker = Function.update s.worker w { s.worker w with pc := .at st' role g })
    (hfiber : s'.fiber = Function.update s.fiber g fb)
    (hok : st.Ok (s.fiber g) → st'.Ok fb) : Owned s' f := by
  refine h.onward hpc hworker hfiber (Worker.holds_stage hpc)
    (fun hst ↦ Pc.fits_self.mpr (hok hst)) fun stage role' f' heq ↦ ?_
  cases heq
  rfl

omit [DecidableEq D] [DecidableEq O] in
theorem Owned.loop (h : Owned s f) {st : Stage} {role : Role} {g : FiberId} {fb : Fiber}
    {cbFiber : Option FiberId} (hpc : (s.worker w).pc = .at st role g)
    (hworker : s'.worker = Function.update s.worker w
      { s.worker w with pc := .scan, cbFiber := cbFiber })
    (hcb : cbFiber = some f → (s.worker w).cbFiber = some f)
    (hfiber : s'.fiber = Function.update s.fiber g fb) (hok : st.Ok (s.fiber g) → fb.Idle) :
    Owned s' f :=
  h.onward hpc hworker hfiber (fun hw ↦ .inr (hcb (hw.kept rfl))) hok nofun

omit [DecidableEq D] [DecidableEq O] in
theorem Owned.callback (h : Owned s f) {g : FiberId}
    (hpc : ∀ stage role, (s.worker w).pc ≠ .at stage role f)
    (hworker : s'.worker = Function.update s.worker w wk) (hwk : wk.pc = .at .check .callback g)
    (hcb : wk.cbFiber = some g) (hfiber : s'.fiber = Function.update s.fiber g .fresh)
    (hother : f = g → ∀ w', w' ≠ w → ¬ (s.worker w').Holds f) : Owned s' f := by
  by_cases hfg : f = g
  · subst hfg
    apply Owned.sole (hother rfl) hworker
    rw [hwk, Pc.fits_self, hfiber, Function.update_self]
    exact ⟨nofun, rfl⟩
  · refine h.move hworker (by rw [hfiber, Function.update_of_ne hfg]) (fun hw ↦ ?_) fun hf ↦ ?_
    · rcases hw with hw | hw
      · rw [hwk] at hw
        exact absurd (Option.some.inj hw).symm hfg
      · exact absurd (Option.some.inj (hcb.symm.trans hw)).symm hfg
    · refine (Pc.fits_other fun stage role heq ↦ ?_).mpr (fits_idle hpc hf)
      rw [hwk] at heq
      cases heq
      exact hfg rfl

omit [DecidableEq D] [DecidableEq O] in
/-- Taking an entry keeps the holder unique as long as nobody else holds its fiber. -/
theorem Owned.took (h : Owned s f) {ft : FiberAndThread} {rest : List FiberAndThread}
    (hpc : (s.worker w).pc = .scan)
    (htake : takeFirst (s.takeable (s.worker w).thread) s.fibers = some (ft, rest))
    (hok : s.taken w = some f → ∀ w', w' ≠ w → ¬ (s.worker w').Holds f)
    (hworker : s'.worker = Function.update s.worker w
      { s.worker w with pc := .dispatch ft true })
    (hfiber : s'.fiber f = s.fiber f) : Owned s' f := by
  have hscan : ∀ stage role, (s.worker w).pc ≠ .at stage role f := by
    intro stage role heq
    rw [hpc] at heq
    cases heq
  by_cases hf : ft.fiber = some f
  · have htaken : s.taken w = some f := by
      unfold taken
      simp only [hpc, htake, Option.bind_some, hf]
    -- a worker that scans can hold `f` only as its `cbFiber`, and nobody else holds it
    have hidle : (s.fiber f).Idle := by
      by_cases hw : (s.worker w).Holds f
      · exact fits_idle hscan (h.fits w hw)
      · apply h.free
        intro w'
        by_cases hne : w' = w
        · rwa [hne]
        · exact hok htaken w' hne
    apply Owned.sole (hok htaken) hworker
    rw [hfiber]
    exact hidle
  · exact h.move hworker hfiber (fun hw ↦ .inr (hw.resolve_left hf)) (fits_idle hscan)

omit [DecidableEq W] [DecidableEq D] [DecidableEq O] in
/-- What `examine` decides fits the state that it found. -/
theorem examined_fits {role : Role} {g : FiberId}
    (hok : Stage.examine.Ok (s.fiber g)) : (s.examined role g).Fits g (s.fiber g) := by
  obtain ⟨hyield, hsaved⟩ := hok
  unfold examined
  split
  · rename_i hready
    exact Pc.fits_self.mpr ⟨hready, hsaved⟩
  · split
    · rename_i hfin
      cases role with
      | task => exact ⟨hyield.1, hsaved⟩
      | callback => exact Pc.fits_self.mpr ⟨hfin, hsaved⟩
    · -- what is left of the six states is `HOLD`
      rename_i hready hfin
      refine Pc.fits_self.mpr ⟨?_, hsaved⟩
      unfold Fiber.Yielded at hyield
      unfold FiberState.finished at hfin
      cases hst : (s.fiber g).state <;> simp_all

omit [DecidableEq D] [DecidableEq O] in
/-- One step of a worker keeps the holder unique, if it takes no fiber that another one holds. -/
theorem Owned.worked (h : Owned s f) (hk : s.Known)
    (hok : s.taken w = some f → ∀ w', w' ≠ w → ¬ (s.worker w').Holds f) (hs : Worked s w s') :
    Owned s' f := by
  -- a worker at `scan`, `dispatch` or `idle` has no fiber at a stage
  have hout : ∀ {pc : Pc}, (s.worker w).pc = pc → (∀ stage role, pc ≠ .at stage role f) →
      ∀ stage role, (s.worker w).pc ≠ .at stage role f :=
    fun hpc hne stage role ↦ hpc ▸ hne stage role
  have hsame : ∀ g, s.fiber = Function.update s.fiber g (s.fiber g) :=
    fun g ↦ (Function.update_eq_self g s.fiber).symm
  cases hs with
  | took hpc _ htake => exact h.took hpc htake hok rfl rfl
  | foundNone hpc =>
      exact h.move rfl rfl (fun hw ↦ .inr (hw.kept rfl)) (fits_idle (hout hpc nofun))
  | resumed hpc hf _ =>
      refine h.move rfl rfl (fun hw ↦ hw.imp_left fun hw ↦ ?_) fun hfits ↦ ?_
      · rw [hpc]
        exact hf.trans hw
      · have hidle := fits_idle (hout hpc nofun) hfits
        show (if _ then (s.fiber f).Idle else (s.fiber f).Idle)
        split <;> exact hidle
  | reused hpc _ hcb hc _ =>
      -- its `cbFiber` is nobody else's
      refine h.callback (hout hpc nofun) rfl rfl hc rfl ?_
      rintro rfl w' hne hw'
      exact hne (h.unique w' w hw' (.inr hc))
  | made hpc _ hcb hc =>
      -- a new fiber is nobody's
      apply h.callback (hout hpc nofun) rfl rfl rfl rfl
      rintro rfl w' hne hw'
      exact Nat.lt_irrefl _ (hk.held w' _ hw')
  | dropped hpc =>
      exact h.move rfl rfl (fun hw ↦ .inr (hw.kept rfl)) (fits_idle (hout hpc nofun))
  | idled hpc _ _ hpc' =>
      rcases hpc' with rfl | rfl <;>
      exact h.move rfl rfl (fun hw ↦ .inr (hw.kept rfl)) (fits_idle (hout hpc nofun))
  | checked hpc _ => exact h.stage hpc rfl (hsame _) id
  | marked hpc => exact h.stage hpc rfl rfl fun hidle ↦ ⟨rfl, hidle.2⟩
  | switchedIn hpc => exact h.stage hpc rfl rfl fun hexec ↦ hexec.1
  | switchedOut hpc => exact h.stage hpc rfl rfl fun hyield ↦ ⟨hyield, rfl⟩
  | decremented hpc => exact h.stage hpc rfl (hsame _) id
  | @examined role g hpc =>
      refine h.onward hpc rfl (hsame g) (fun hw ↦ hw.imp_left fun hw ↦ ?_) examined_fits
        fun stage role' f' heq ↦ ?_
      · rw [hpc]
        exact examined_fiber? hw
      · have hfib := congrArg Pc.fiber? heq
        exact (Option.some.inj (examined_fiber? hfib)).symm
  | requeued hpc _ =>
      exact h.loop hpc rfl release_cbFiber (hsame _) fun hst ↦ ⟨hst.1 ▸ nofun, hst.2⟩
  | held hpc => exact h.loop hpc rfl release_cbFiber rfl fun hst ↦ ⟨nofun, hst.2⟩
  | retired hpc _ => exact h.loop hpc rfl id rfl fun _ ↦ ⟨nofun, rfl⟩
  | awoke hpc =>
      exact h.move rfl rfl (fun hw ↦ .inr (hw.kept rfl)) (fits_idle (hout hpc nofun))

/-- One step keeps the holder unique, if it takes no fiber that another worker holds. -/
theorem Owned.step (h : Owned s f) (hk : s.Known) {a : Action W D O} (hok : s.TakesUnheld f a)
    (hs : Of step s a s') : Owned s' f := by
  cases step_cases hs with
  | newFiber =>
      by_cases hfn : f = s.nextFiber
      · -- nobody holds a fiber that did not exist
        have hnone : ∀ w, ¬ (s.worker w).Holds f :=
          fun w hw ↦ Nat.lt_irrefl _ (hfn ▸ hk.held w f hw)
        refine ⟨fun w _ hw ↦ absurd hw (hnone w), fun w hw ↦ absurd hw (hnone w), fun _ ↦ ?_⟩
        subst hfn
        show (Function.update s.fiber s.nextFiber .fresh s.nextFiber).Idle
        rw [Function.update_self]
        exact ⟨nofun, rfl⟩
      · exact h.congr rfl (Function.update_of_ne hfn _ _)
  | worked hw => exact h.worked hk hok hw
  | @yielded w y role g hpc => exact h.stage hpc rfl rfl fun _ ↦ by cases y <;> exact ⟨nofun, nofun⟩
  | idleEnded hpc =>
      refine h.move rfl rfl (fun hw ↦ .inr (hw.kept rfl)) (fits_idle ?_)
      intro stage role heq
      rw [hpc] at heq
      cases heq
  | _ => exact h.congr rfl rfl

omit [DecidableEq W] [DecidableEq D] [DecidableEq O] in
theorem start_owned (thread : W → Int) (f : FiberId) :
    Owned (start thread : Machine W D O) f where
  unique := fun w w' hw ↦ by rcases hw with hw | hw <;> cases hw
  fits := fun w hw ↦ by rcases hw with hw | hw <;> cases hw
  free := fun _ ↦ ⟨nofun, rfl⟩

/-- The steps of which none takes a fiber that another worker holds. -/
def Unshared : Machine W D O → Action W D O → Machine W D O → Prop :=
  Guarded (Of step) fun s a ↦ ∀ f, s.TakesUnheld f a

theorem run_owned {thread : W → Int} {as : List (Action W D O)}
    (h : Run (Guarded (Of step) fun s a ↦ s.TakesUnheld f a) (start thread) as s) :
    s.Known ∧ Owned s f := by
  refine h.invariant (I := fun s ↦ s.Known ∧ Owned s f) (fun s a s' hs hstep ↦ ?_)
    ⟨start_known thread, start_owned thread f⟩
  exact ⟨hs.1.step hstep.1, hs.2.step hs.1 hstep.2 hstep.1⟩

/-- No fiber executes on two workers, and `swapIn` never finds its fiber in `EXEC`. -/
theorem exclusive_execution {thread : W → Int} {as : List (Action W D O)}
    (h : Run Unshared (start thread) as s) :
    (∀ f w w', (s.worker w).Executes f → (s.worker w').Executes f → w = w') ∧
      ∀ w role f, (s.worker w).pc = .at .check role f → (s.fiber f).state ≠ .exec := by
  have howned : ∀ f, Owned s f := fun f ↦ (run_owned (h.mono fun _ _ _ hs ↦ ⟨hs.1, hs.2 f⟩)).2
  refine ⟨fun f w w' hw hw' ↦ (howned f).unique w w' hw.holds hw'.holds, fun w role f hpc ↦ ?_⟩
  exact ((howned f).ok hpc).1

/-! ## Runs on fixed inputs -/

/-- The condition of `Unshared`, as a test. -/
def takesUnheld [Fintype W] (s : Machine W D O) : Action W D O → Bool
  | .work w =>
    match s.taken w with
    | some f => decide (∀ w', w' ≠ w → ¬ (s.worker w').Holds f)
    | none => true
  | _ => true

omit [DecidableEq D] [DecidableEq O] in
theorem takesUnheld_spec [Fintype W] {a : Action W D O} (h : s.takesUnheld a = true) (f : FiberId) :
    s.TakesUnheld f a := by
  unfold TakesUnheld
  split
  · intro htaken
    simp only [takesUnheld, htaken, decide_eq_true_eq] at h
    exact h
  · trivial

/-- A fiber that yields `READY`, and is resumed by the other worker while the first runs a
callback. -/
theorem exclusive_execution_pair : ∃ s : Two,
    Run Unshared two
      [.newFiber, .schedule ⟨some 0, none, -1⟩, .work false, .work false, .work false, .work false,
        .work false, .schedule ⟨none, some 7, -1⟩, .yield false .ready, .work false, .work false,
        .work false, .work false, .work false, .work true, .work true, .work true, .work true] s ∧
      (∀ f w w', (s.worker w).Executes f → (s.worker w').Executes f → w = w') ∧
      ∀ w role f, (s.worker w).pc = .at .check role f → (s.fiber f).state ≠ .exec := by
  obtain ⟨s, h, -⟩ := exists_run (R := Unshared) step takesUnheld
    (fun _ _ _ hs hok ↦ ⟨hs, takesUnheld_spec hok⟩) two
    [.newFiber, .schedule ⟨some 0, none, -1⟩, .work false, .work false, .work false, .work false,
      .work false, .schedule ⟨none, some 7, -1⟩, .yield false .ready, .work false, .work false,
      .work false, .work false, .work false, .work true, .work true, .work true, .work true]
    (P := fun _ ↦ true) (by decide +kernel)
  exact ⟨s, h, exclusive_execution h⟩

/-- A fiber scheduled twice: both workers take it, and the second one fails the assertion. -/
theorem scheduled_twice : ∃ s : Two,
    Run (Of step) two
      [.newFiber, .schedule ⟨some 0, none, -1⟩, .schedule ⟨some 0, none, -1⟩, .work false,
        .work true, .work false, .work true, .work false, .work false] s ∧
      (s.worker true).pc = .at .check .task 0 ∧ (s.fiber 0).state = .exec := by
  obtain ⟨s, h, hP⟩ := exists_run (R := Of step) step (fun _ _ ↦ true) (fun _ _ _ hs _ ↦ hs) two
    [.newFiber, .schedule ⟨some 0, none, -1⟩, .schedule ⟨some 0, none, -1⟩, .work false,
      .work true, .work false, .work true, .work false, .work false]
    (P := fun s ↦ decide ((s.worker true).pc = .at .check .task 0 ∧ (s.fiber 0).state = .exec))
    (by decide +kernel)
  exact ⟨s, h, of_decide_eq_true hP⟩

end Machine

end Server
