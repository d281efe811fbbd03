import ServerFramework.Scheduler.Single
import ServerFramework.Library.Counter

/-!
# Tasks that are scheduled once and never hold

The machine under the discipline of a plain scheduler: no thread ids, no events, no `yieldToHold`, and
no fiber scheduled while it is queued or in a worker's hands.  Then a fiber is named at most once, in
the queue or by one worker, a scan passes over nothing, and what happens to each task can be counted.
-/

namespace Server

open Runs Counter

/-- What a user schedules with `thread == -1`. -/
inductive Task where
  | fiber (f : FiberId)
  | callback (cb : Callback)
  deriving DecidableEq, Repr

def Task.entry : Task → FiberAndThread
  | .fiber f => .ofFiber (some f) (-1)
  | .callback cb => .ofCb (some cb) (-1)

theorem Task.entry_nonempty (t : Task) : t.entry.nonempty = true := by
  cases t <;> rfl

/-- The stages before `EXEC` is written. -/
def Stage.starting : Stage → Bool
  | .check => true
  | .mark => true
  | _ => false

/-- What a worker may have in its hands: an entry it took, or none; and it runs its `cbFiber` as such
only. -/
structure Worker.Proper (wk : Worker) : Prop where
  taken : ∀ ft isActive, wk.pc = .dispatch ft isActive → isActive = true → ∃ t : Task, ft = t.entry
  empty : ∀ ft isActive, wk.pc = .dispatch ft isActive → isActive = false → ft = ⟨none, none, -1⟩
  kept : ∀ f, wk.cbFiber = some f → wk.pc.fiber? = some f → ∃ stage, wk.pc = .at stage .callback f
  lent : ∀ stage f, wk.pc = .at stage .callback f → wk.cbFiber = some f
  retires : ∀ role f, wk.pc = .at .retire role f → role = .callback

theorem Worker.Proper.free {wk : Worker} (h : wk.pc = .scan ∨ wk.pc = .idle ∨ wk.pc = .exited) :
    wk.Proper := by
  rcases h with h | h | h
  all_goals
    refine ⟨fun ft a heq ↦ ?_, fun ft a heq ↦ ?_, fun f _ hf ↦ ?_, fun stage f heq ↦ ?_,
      fun role f heq ↦ ?_⟩
    · rw [h] at heq
      cases heq
    · rw [h] at heq
      cases heq
    · rw [h] at hf
      cases hf
    · rw [h] at heq
      cases heq
    · rw [h] at heq
      cases heq

/-- What a worker dispatches is a task, or nothing. -/
theorem Worker.Proper.entry {wk : Worker} (h : wk.Proper) {ft : FiberAndThread} {isActive : Bool}
    (hpc : wk.pc = .dispatch ft isActive) (hne : ft ≠ ⟨none, none, -1⟩) : ∃ t : Task, ft = t.entry := by
  cases isActive with
  | true => exact h.taken ft true hpc rfl
  | false => exact absurd (h.empty ft false hpc rfl) hne

theorem Worker.Proper.stage {wk : Worker} (h : wk.Proper) {st st' : Stage} {role : Role} {f : FiberId}
    (hpc : wk.pc = .at st role f) (hretire : st' = .retire → role = .callback) :
    ({ wk with pc := .at st' role f } : Worker).Proper where
  taken := nofun
  empty := nofun
  kept := fun g hcb hg ↦ by
    obtain ⟨stage, heq⟩ := h.kept g hcb (by rw [hpc]; exact hg)
    rw [hpc] at heq
    cases heq
    exact ⟨st', rfl⟩
  lent := fun stage g heq ↦ by
    cases heq
    exact h.lent st f hpc
  retires := fun role' g heq ↦ by
    cases heq
    exact hretire rfl

namespace Machine

variable {W D O : Type} [DecidableEq W] [DecidableEq D] [DecidableEq O]

/-- The discipline. -/
def Plain (s : Machine W D O) : Action W D O → Prop
  | .schedule ft =>
    ∃ t : Task, ft = t.entry ∧ ∀ f, t = .fiber f → ¬ s.Queued f ∧ ∀ w, ¬ (s.worker w).Holds f
  | .yield _ y => y ≠ .hold
  | .addEvent .. => False
  | .addCallback .. => False
  | .delEvent .. => False
  | .trigger .. => False
  | .push _ => False
  | .uncount _ => False
  | _ => True

/-! ## A fiber is named once -/

structure Apart (s : Machine W D O) : Prop where
  entries : ∀ ft ∈ s.fibers, ∃ t : Task, ft = t.entry
  once : (s.fibers.filterMap FiberAndThread.fiber).Nodup
  away : ∀ f, s.Queued f → ∀ w, ¬ (s.worker w).Holds f
  proper : ∀ w, (s.worker w).Proper

variable {s s' : Machine W D O} {w : W} {wk : Worker}

omit [DecidableEq W] [DecidableEq D] [DecidableEq O] in
theorem Apart.single (h : Apart s) : Single s := ⟨h.once, h.away⟩

omit [DecidableEq W] [DecidableEq D] [DecidableEq O] in
theorem Single.apart (h : Single s) (hentries : ∀ ft ∈ s.fibers, ∃ t : Task, ft = t.entry)
    (hproper : ∀ w, (s.worker w).Proper) : Apart s := ⟨hentries, h.once, h.away, hproper⟩

omit [DecidableEq D] [DecidableEq O] in
theorem proper_update (h : ∀ w, (s.worker w).Proper)
    (hworker : s'.worker = Function.update s.worker w wk) (hproper : wk.Proper) (w' : W) :
    (s'.worker w').Proper := by
  rw [hworker]
  by_cases hne : w' = w
  · subst hne
    rw [Function.update_self]
    exact hproper
  · rw [Function.update_of_ne hne]
    exact h w'

omit [DecidableEq W] [DecidableEq D] [DecidableEq O] in
/-- No scan takes a fiber that is in a worker's hands. -/
theorem Apart.takesUnheld (h : Apart s) (f : FiberId) (a : Action W D O) : s.TakesUnheld f a :=
  h.single.takesUnheld f a

omit [DecidableEq W] [DecidableEq D] [DecidableEq O] in
/-- The worker that puts a fiber back does not keep it as its `cbFiber`. -/
theorem Apart.gone (h : Apart s) {role : Role} {f : FiberId}
    (hpc : (s.worker w).pc = .at .requeue role f) :
    ¬ (if role = .callback then none else (s.worker w).cbFiber) = some f := by
  intro hcb
  have hold := release_cbFiber hcb
  obtain ⟨stage, heq⟩ := (h.proper w).kept f hold (by rw [hpc]; rfl)
  rw [hpc] at heq
  cases heq
  rw [if_pos rfl] at hcb
  cases hcb

omit [DecidableEq D] [DecidableEq O] in
theorem Apart.entries_worked (h : Apart s) (hs : Worked s w s') :
    ∀ ft ∈ s'.fibers, ∃ t : Task, ft = t.entry := by
  cases hs with
  | took _ _ htake =>
      obtain ⟨-, a, b, hl, hl'⟩ := takeFirst_some htake
      intro x hx
      change x ∈ _ at hx
      rw [hl'] at hx
      apply h.entries x
      rw [hl]
      exact (List.mem_append.mp hx).elim (List.mem_append_left _)
        fun hb ↦ List.mem_append_right _ (List.mem_cons_of_mem _ hb)
  | @requeued role f =>
      intro x hx
      rcases List.mem_append.mp hx with hx | hx
      · exact h.entries x hx
      · exact ⟨.fiber f, List.mem_singleton.mp hx⟩
  | _ => exact h.entries

omit [DecidableEq D] [DecidableEq O] in
theorem Apart.proper_worked (h : Apart s) (hs : Worked s w s') :
    ∀ w', (s'.worker w').Proper := by
  have hproper := h.proper w
  cases hs with
  | took _ _ htake =>
      obtain ⟨-, a, b, hl, -⟩ := takeFirst_some htake
      have hmem : _ ∈ s.fibers := hl ▸ List.mem_append_right _ List.mem_cons_self
      refine proper_update h.proper rfl ⟨fun x a heq _ ↦ ?_, fun x a heq hfalse ↦ ?_,
        fun f hcb hf ↦ ?_, nofun, nofun⟩
      · cases heq
        exact h.entries _ hmem
      · cases heq
        cases hfalse
      · exact absurd (.inr hcb) (h.away f ⟨_, hmem, hf⟩ w)
  | foundNone hpc =>
      refine proper_update h.proper rfl ⟨nofun, fun ft a heq _ ↦ ?_, fun f _ hf ↦ ?_, nofun, nofun⟩
      · cases heq
        rfl
      · cases hf
  | @resumed ft isActive f hpc hf _ =>
      refine proper_update h.proper rfl ⟨nofun, nofun, fun g hcb hg ↦ ?_, nofun, nofun⟩
      obtain ⟨stage, heq⟩ := hproper.kept g hcb (by rw [hpc]; exact hf.trans hg)
      rw [hpc] at heq
      cases heq
  | reused hpc _ _ hc _ =>
      refine proper_update h.proper rfl
        ⟨nofun, nofun, fun g hcb _ ↦ ?_, fun stage g heq ↦ ?_, nofun⟩
      · cases hc.symm.trans hcb
        exact ⟨.check, rfl⟩
      · cases heq
        exact hc
  | made hpc _ _ hc =>
      refine proper_update h.proper rfl
        ⟨nofun, nofun, fun g hcb _ ↦ ?_, fun stage g heq ↦ ?_, nofun⟩
      · cases hcb
        exact ⟨.check, rfl⟩
      · cases heq
        rfl
  | idled _ _ _ hpc' =>
      rcases hpc' with rfl | rfl
      · exact proper_update h.proper rfl (.free (.inr (.inr rfl)))
      · exact proper_update h.proper rfl (.free (.inr (.inl rfl)))
  | @examined role f hpc =>
      refine proper_update h.proper rfl ?_
      unfold examined
      split
      · exact hproper.stage hpc nofun
      · split
        · cases role with
          | task => exact .free (.inl rfl)
          | callback => exact hproper.stage hpc fun _ ↦ rfl
        · exact hproper.stage hpc nofun
  | dropped | requeued | held | retired | awoke =>
      exact proper_update h.proper rfl (.free (.inl rfl))
  | checked hpc | marked hpc | switchedIn hpc | switchedOut hpc | decremented hpc =>
      exact proper_update h.proper rfl (hproper.stage hpc nofun)

omit [DecidableEq W] [DecidableEq D] [DecidableEq O] in
theorem Plain.exclusive {a : Action W D O} (h : s.Plain a) : s.Exclusive a := by
  cases a with
  | schedule ft =>
      obtain ⟨t, rfl, hnew⟩ := h
      intro f hf
      apply hnew f
      cases t with
      | callback => cases hf
      | fiber g =>
          cases hf
          rfl
  | push => exact h.elim
  | _ => trivial

theorem Apart.step (h : Apart s) (hk : s.Known) (howned : ∀ f, Owned s f) {a : Action W D O}
    (hplain : s.Plain a) (hs : Of step s a s') : Apart s' := by
  apply (h.single.step hk howned (fun _ _ _ hpc ↦ h.gone hpc) hplain.exclusive hs).apart
  · cases step_cases hs with
    | scheduled =>
        obtain ⟨t, rfl, -⟩ := hplain
        intro x hx
        rcases mem_scheduleNoLock hx with hx | hx
        · exact h.entries x hx
        · exact ⟨t, hx⟩
    | worked hw => exact h.entries_worked hw
    | pushed => exact hplain.elim
    | _ => exact h.entries
  · cases step_cases hs with
    | worked hw => exact h.proper_worked hw
    | yielded hpc => exact proper_update h.proper rfl ((h.proper _).stage hpc nofun)
    | idleEnded => exact proper_update h.proper rfl (.free (.inl rfl))
    | _ => exact h.proper

omit [DecidableEq W] [DecidableEq D] [DecidableEq O] in
theorem start_apart (thread : W → Int) : Apart (start thread : Machine W D O) where
  entries := nofun
  once := List.nodup_nil
  away := fun _ ⟨_, hmem, _⟩ ↦ absurd hmem List.not_mem_nil
  proper := fun _ ↦ .free (.inl rfl)

/-! ## The states of the fibers -/

structure Live (s : Machine W D O) : Prop where
  starts : ∀ w stage role f, (s.worker w).pc = .at stage role f → stage.starting = true →
    (s.fiber f).state.finished = false
  noHold : ∀ f, (s.fiber f).state ≠ .hold
  absent : ∀ f, s.nextFiber ≤ f → (s.fiber f).state = .init

omit [DecidableEq D] [DecidableEq O] in
theorem Live.wrote (h : Live s) {g : FiberId} {fb : Fiber}
    (hfiber : s'.fiber = Function.update s.fiber g fb)
    (hworker : s'.worker = Function.update s.worker w wk)
    (hother : ∀ w', w' ≠ w → ¬ (s.worker w').Holds g)
    (hnew : ∀ stage role f, wk.pc = .at stage role f → stage.starting = true →
      (s'.fiber f).state.finished = false)
    (hhold : fb.state ≠ .hold) (hexists : g < s'.nextFiber) (hnext : s.nextFiber ≤ s'.nextFiber) :
    Live s' where
  starts := fun w' stage role f hpc hstage ↦ by
    by_cases hne : w' = w
    · subst hne
      rw [hworker, Function.update_self] at hpc
      exact hnew stage role f hpc hstage
    · rw [hworker, Function.update_of_ne hne] at hpc
      have hf : f ≠ g := fun heq ↦ hother w' hne (heq ▸ Worker.holds_of_at hpc)
      rw [hfiber, Function.update_of_ne hf]
      exact h.starts w' stage role f hpc hstage
  noHold := fun f ↦ by
    rw [hfiber]
    by_cases hf : f = g
    · rw [hf, Function.update_self]
      exact hhold
    · rw [Function.update_of_ne hf]
      exact h.noHold f
  absent := fun f hf ↦ by
    have hne : f ≠ g := fun heq ↦ Nat.lt_irrefl f (Nat.lt_of_lt_of_le (heq ▸ hexists) hf)
    rw [hfiber, Function.update_of_ne hne]
    exact h.absent f (hnext.trans hf)

omit [DecidableEq D] [DecidableEq O] in
theorem Live.moved (h : Live s) (hfiber : s'.fiber = s.fiber) (hnext : s'.nextFiber = s.nextFiber)
    (hworker : s'.worker = Function.update s.worker w wk)
    (hnew : ∀ stage role f, wk.pc = .at stage role f → stage.starting = true →
      (s.fiber f).state.finished = false) : Live s' where
  starts := fun w' stage role f hpc hstage ↦ by
    rw [hfiber]
    by_cases hne : w' = w
    · subst hne
      rw [hworker, Function.update_self] at hpc
      exact hnew stage role f hpc hstage
    · rw [hworker, Function.update_of_ne hne] at hpc
      exact h.starts w' stage role f hpc hstage
  noHold := hfiber ▸ h.noHold
  absent := by
    rw [hfiber, hnext]
    exact h.absent

omit [DecidableEq D] [DecidableEq O] in
theorem Live.onward (h : Live s) (hk : s.Known) {g : FiberId} (howned : Owned s g) {st : Stage}
    {role : Role} {fb : Fiber} (hpc : (s.worker w).pc = .at st role g)
    (hfiber : s'.fiber = Function.update s.fiber g fb)
    (hworker : s'.worker = Function.update s.worker w wk) (hnext : s'.nextFiber = s.nextFiber)
    (hlater : ∀ stage role f, wk.pc = .at stage role f → stage.starting = false)
    (hhold : fb.state ≠ .hold) : Live s' := by
  have hheld : (s.worker w).Holds g := Worker.holds_of_at hpc
  refine h.wrote hfiber hworker (fun w' hne hw' ↦ hne (howned.unique w' w hw' hheld))
    (fun stage role f heq hstage ↦ ?_) hhold (hnext ▸ hk.held w g hheld) hnext.ge
  rw [hlater stage role f heq] at hstage
  cases hstage

omit [DecidableEq D] [DecidableEq O] in
theorem Live.worked (h : Live s) (hk : s.Known) (howned : ∀ f, Owned s f) (hs : Worked s w s') :
    Live s' := by
  cases hs with
  | took | foundNone | dropped | awoke => exact h.moved rfl rfl rfl nofun
  | idled _ _ _ hpc' =>
      rcases hpc' with rfl | rfl
      · exact h.moved rfl rfl rfl nofun
      · exact h.moved rfl rfl rfl nofun
  | resumed hpc hf hlive =>
      refine h.moved rfl rfl rfl fun stage role g heq _ ↦ ?_
      cases heq
      exact hlive
  | @reused ft isActive c hpc hfin hcb hc _ =>
      have hheld : (s.worker w).Holds c := .inr hc
      refine h.wrote rfl rfl (fun w' hne hw' ↦ hne ((howned c).unique w' w hw' hheld))
        (fun stage role g heq _ ↦ ?_) nofun (hk.held w c hheld) (Nat.le_refl _)
      cases heq
      show (Function.update s.fiber c .fresh c).state.finished = false
      rw [Function.update_self]
      rfl
  | made hpc _ _ hc =>
      refine h.wrote rfl rfl (fun w' _ hw' ↦ Nat.lt_irrefl _ (hk.held w' _ hw'))
        (fun stage role g heq _ ↦ ?_) nofun (Nat.lt_succ_self _) (Nat.le_succ _)
      cases heq
      show (Function.update s.fiber s.nextFiber .fresh s.nextFiber).state.finished = false
      rw [Function.update_self]
      rfl
  | checked hpc _ =>
      refine h.moved rfl rfl rfl fun stage role g heq _ ↦ ?_
      cases heq
      exact h.starts w _ _ _ hpc rfl
  | @marked role f hpc =>
      refine h.onward hk (howned f) hpc rfl rfl rfl (fun stage role g heq ↦ ?_) nofun
      cases heq
      rfl
  | @switchedIn role f hpc =>
      refine h.onward hk (howned f) hpc rfl rfl rfl (fun stage role g heq ↦ ?_) (h.noHold f)
      cases heq
      rfl
  | @switchedOut role f hpc =>
      refine h.onward hk (howned f) hpc rfl rfl rfl (fun stage role g heq ↦ ?_) (h.noHold f)
      cases heq
      rfl
  | decremented hpc =>
      refine h.moved rfl rfl rfl fun stage role g heq hstage ↦ ?_
      cases heq
      cases hstage
  | @examined role f hpc =>
      refine h.moved rfl rfl rfl fun stage role' g heq hstage ↦ ?_
      change s.examined role f = _ at heq
      unfold examined at heq
      split at heq
      · cases heq
        cases hstage
      · split at heq
        · cases role with
          | task => cases heq
          | callback =>
              cases heq
              cases hstage
        · cases heq
          cases hstage
  | requeued hpc _ => exact h.moved rfl rfl rfl nofun
  | @held role f hpc =>
      -- the holder would have found `HOLD`
      exact absurd ((howned f).ok hpc).1 (h.noHold f)
  | @retired role f hpc _ => exact h.onward hk (howned f) hpc rfl rfl rfl nofun nofun

omit [DecidableEq W] [DecidableEq D] [DecidableEq O] in
theorem Live.congr (h : Live s) (hfiber : s'.fiber = s.fiber) (hnext : s'.nextFiber = s.nextFiber)
    (hworker : s'.worker = s.worker) : Live s' where
  starts := by
    rw [hfiber, hworker]
    exact h.starts
  noHold := hfiber ▸ h.noHold
  absent := by
    rw [hfiber, hnext]
    exact h.absent

theorem Live.step (h : Live s) (hk : s.Known) (howned : ∀ f, Owned s f) {a : Action W D O}
    (hplain : s.Plain a) (hs : Of step s a s') : Live s' := by
  cases step_cases hs with
  | newFiber =>
      have hfiber : ∀ f, (Function.update s.fiber s.nextFiber .fresh f).state = (s.fiber f).state := by
        intro f
        by_cases hf : f = s.nextFiber
        · rw [hf, Function.update_self]
          exact (h.absent _ (Nat.le_refl _)).symm
        · rw [Function.update_of_ne hf]
      refine ⟨fun w stage role f hpc hstage ↦ ?_, fun f ↦ ?_, fun f hf ↦ ?_⟩
      · show (Function.update s.fiber s.nextFiber .fresh f).state.finished = false
        rw [hfiber]
        exact h.starts w stage role f hpc hstage
      · show (Function.update s.fiber s.nextFiber .fresh f).state ≠ .hold
        rw [hfiber]
        exact h.noHold f
      · show (Function.update s.fiber s.nextFiber .fresh f).state = .init
        rw [hfiber]
        exact h.absent f (Nat.le_of_succ_le hf)
  | worked hw => exact h.worked hk howned hw
  | @yielded w y role f hpc =>
      refine h.onward hk (howned f) hpc rfl rfl rfl (fun stage role g heq ↦ ?_) ?_
      · cases heq
        rfl
      · cases y with
        | hold => exact absurd rfl hplain
        | ready => nofun
        | term => nofun
        | except => nofun
  | idleEnded => exact h.moved rfl rfl rfl nofun
  | eventAdded | callbackAdded | deleted | triggered | pushed | uncounted => exact hplain.elim
  | _ => exact h.congr rfl rfl rfl

omit [DecidableEq W] [DecidableEq D] [DecidableEq O] in
theorem start_live (thread : W → Int) : Live (start thread : Machine W D O) where
  starts := nofun
  noHold := nofun
  absent := fun _ _ ↦ rfl

/-! ## All of it -/

structure InOrder (s : Machine W D O) : Prop where
  known : s.Known
  owned : ∀ f, Owned s f
  apart : Apart s
  live : Live s

theorem InOrder.step (h : InOrder s) {a : Action W D O} (hplain : s.Plain a) (hs : Of step s a s') :
    InOrder s' where
  known := h.known.step hs
  owned := fun f ↦ (h.owned f).step h.known (h.apart.takesUnheld f a) hs
  apart := h.apart.step h.known h.owned hplain hs
  live := h.live.step h.known h.owned hplain hs

omit [DecidableEq W] [DecidableEq D] [DecidableEq O] in
theorem start_inOrder (thread : W → Int) : InOrder (start thread : Machine W D O) :=
  ⟨start_known thread, start_owned thread, start_apart thread, start_live thread⟩

omit [DecidableEq W] [DecidableEq D] [DecidableEq O] in
/-- A scan passes over nothing. -/
theorem InOrder.takes (h : InOrder s) {thread : Int}
    (hnone : takeFirst (s.takeable thread) s.fibers = none) : s.fibers = [] := by
  cases hq : s.fibers with
  | nil => rfl
  | cons ft rest =>
      have hmem : ft ∈ s.fibers := hq ▸ List.mem_cons_self
      have htake : s.takeable thread ft = true := by
        obtain ⟨t, rfl⟩ := h.apart.entries ft hmem
        cases t with
        | callback cb => rfl
        | fiber f =>
            have hidle := (h.owned f).free (h.apart.away f ⟨_, hmem, rfl⟩)
            show (true && (s.fiber f).state != .exec) = true
            rw [Bool.true_and, bne_iff_ne]
            exact hidle.1
      rw [hq, takeFirst, if_pos htake] at hnone
      cases hnone

end Machine

end Server
