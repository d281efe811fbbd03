import ServerFramework.Scheduler.Ownership
import ServerFramework.Library.Counter
import Mathlib.Algebra.Order.BigOperators.Group.Finset

/-!
# Waking a fiber that waits for an event

A fiber registers itself with `addEvent`, writes `HOLD` and switches out; the delivery of the event
schedules it again, on any worker, at any moment after the registration.  The delivery is a token
that moves from the registration to the deliverer, to the queue, to the worker that takes it, and is
used up when the fiber is resumed.
-/

namespace Server

open Runs Counter

/-- The worker has the fiber in order to resume it. -/
def Pc.awaits (f : FiberId) : Pc → Nat
  | .dispatch ft _ => if ft.fiber = some f then 1 else 0
  | .at .check _ g => if g = f then 1 else 0
  | .at .mark _ g => if g = f then 1 else 0
  | .at .switchIn _ g => if g = f then 1 else 0
  | _ => 0

/-- The fiber has yielded and `run` is not done with it. -/
def Stage.yielded : Stage → Bool
  | .leaving | .returned | .examine | .requeue => true
  | _ => false

theorem fiber?_of_awaits {pc : Pc} {f : FiberId} (h : pc.awaits f ≠ 0) : pc.fiber? = some f := by
  unfold Pc.awaits at h
  split at h
  all_goals first | (split at h; · rename_i heq; first | exact heq | exact congrArg some heq) | skip
  all_goals exact absurd rfl h

def FiberAndThread.names (f : FiberId) (ft : FiberAndThread) : Bool := decide (ft.fiber = some f)

def Deliverer.carries (f : FiberId) : Deliverer → Nat
  | .pushing ft => if ft.names f then 1 else 0
  | _ => 0

namespace Machine

variable {W D O : Type} [DecidableEq W] [DecidableEq D] [DecidableEq O] [Fintype W] [Fintype D]

/-- The events that `f` waits for. -/
def waiting (f : FiberId) (s : Machine W D O) : Nat := s.registrations.countP fun r ↦ r.ft.names f

/-- The tokens on their way to resume `f`. -/
def inFlight (f : FiberId) (s : Machine W D O) : Nat :=
  s.fibers.countP (·.names f) + ∑ d, (s.deliverer d).carries f + ∑ w, (s.worker w).pc.awaits f

def tokens (f : FiberId) (s : Machine W D O) : Nat := waiting f s + inFlight f s

/-- The fiber on which the next step of a worker starts a callback. -/
def callbackOn (s : Machine W D O) (w : W) : Option FiberId :=
  match (s.worker w).pc with
  | .dispatch ft _ =>
    match ft.fiber.filter fun f ↦ !(s.fiber f).state.finished with
    | some _ => none
    | none => if ft.cb.isSome then some ((s.worker w).cbFiber.getD s.nextFiber) else none
  | _ => none

/-- Whether a step makes a token that will resume `f`: a delivery of an event that `f` waits for,
the re-queue of `f` after `READY`, a call to `schedule`, or a callback that starts on `f`. -/
def wakes (f : FiberId) (s : Machine W D O) : Action W D O → Nat
  | .schedule ft => if ft.names f then 1 else 0
  | .trigger _ fd event =>
    match s.registration fd event with
    | some r => if r.ft.names f then 1 else 0
    | none => 0
  | .work w =>
    match (s.worker w).pc with
    | .at .requeue _ g => if g = f then 1 else 0
    | .dispatch _ _ => if s.callbackOn w = some f then 1 else 0
    | _ => 0
  | _ => 0

/-- Whether a step resumes `f`. -/
def resumes (f : FiberId) (s : Machine W D O) : Action W D O → Nat
  | .work w =>
    match (s.worker w).pc with
    | .at .switchIn _ g => if g = f then 1 else 0
    | _ => 0
  | _ => 0

/-- How `f` behaves: it waits for one event at a time, after that it can only yield `HOLD`, and
nobody else schedules it meanwhile. -/
def Waits (f : FiberId) (s : Machine W D O) : Action W D O → Prop
  | .schedule ft => ft.fiber = some f →
    tokens f s = 0 ∧ (∀ w, ¬ (s.worker w).Holds f) ∧ (s.fiber f).state.finished = false
  | .addEvent w _ _ => (s.worker w).Executes f → tokens f s = 0
  | .yield w y => (s.worker w).Executes f → y = .hold ∨ tokens f s = 0
  | _ => True

/-! ## How the numbers change -/

variable {s s' : Machine W D O} {f : FiberId} {w : W} {wk : Worker}

omit [DecidableEq D] [DecidableEq O] [Fintype D] in
theorem awaiting_update (wk : Worker) :
    ∑ x, (Function.update s.worker w wk x).pc.awaits f + (s.worker w).pc.awaits f =
      ∑ x, (s.worker x).pc.awaits f + wk.pc.awaits f :=
  sum_update (fun wk : Worker ↦ wk.pc.awaits f) s.worker w wk

omit [DecidableEq W] [DecidableEq O] [Fintype W] in
theorem carrying_update (d : D) (v : Deliverer) :
    ∑ x, (Function.update s.deliverer d v x).carries f + (s.deliverer d).carries f =
      ∑ x, (s.deliverer x).carries f + v.carries f :=
  sum_update (Deliverer.carries f) s.deliverer d v

omit [DecidableEq D] [DecidableEq O] in
theorem inFlight_worker (hq : s'.fibers = s.fibers) (hd : s'.deliverer = s.deliverer)
    (hworker : s'.worker = Function.update s.worker w wk) :
    inFlight f s' + (s.worker w).pc.awaits f = inFlight f s + wk.pc.awaits f := by
  have haw := awaiting_update (s := s) (w := w) (f := f) wk
  unfold inFlight
  rw [hq, hd, hworker]
  omega

omit [DecidableEq W] [DecidableEq D] [DecidableEq O] in
theorem tokens_eq_zero_iff : tokens f s = 0 ↔ waiting f s = 0 ∧ inFlight f s = 0 := by
  unfold tokens
  omega

omit [DecidableEq W] [DecidableEq D] [DecidableEq O] in
theorem awaits_le : (s.worker w).pc.awaits f ≤ inFlight f s := by
  unfold inFlight
  have hle := Finset.single_le_sum (f := fun w ↦ (s.worker w).pc.awaits f)
    (fun _ _ ↦ Nat.zero_le _) (Finset.mem_univ w)
  omega

omit [DecidableEq W] [DecidableEq D] [DecidableEq O] in
/-- No token is for a fiber that does not exist. -/
theorem tokens_new (hk : s.Known) : tokens s.nextFiber s = 0 := by
  have hnames : ∀ ft, s.known ft = true → ft.names s.nextFiber = false := by
    intro ft hft
    apply decide_eq_false
    intro heq
    exact Nat.lt_irrefl _ (known_iff.mp hft _ heq)
  -- none in the queue, none registered, none carried by a deliverer, none at a worker
  have hq : s.fibers.countP (·.names s.nextFiber) = 0 :=
    List.countP_eq_zero.mpr fun ft hft ↦ by rw [hnames ft (hk.queued ft hft)]; nofun
  have hr : waiting s.nextFiber s = 0 :=
    List.countP_eq_zero.mpr fun r hr ↦ by rw [hnames r.ft (hk.registered r hr)]; nofun
  have hd : ∑ d, (s.deliverer d).carries s.nextFiber = 0 := by
    apply Finset.sum_eq_zero
    intro d _
    cases hv : s.deliverer d with
    | pushing ft => simp only [Deliverer.carries, hnames ft (hk.carried d ft hv)]; rfl
    | free => rfl
    | uncounting => rfl
  have hw : ∑ w, (s.worker w).pc.awaits s.nextFiber = 0 := by
    apply Finset.sum_eq_zero
    intro w _
    by_contra hne
    exact Nat.lt_irrefl _ (hk.held w _ (.inl (fiber?_of_awaits hne)))
  unfold tokens inFlight
  omega

omit [DecidableEq W] [DecidableEq D] [DecidableEq O] [Fintype W] [Fintype D] in
/-- With no fiber to execute in its entry, a worker turns to the callback. -/
theorem callbackOn_of_finished {ft : FiberAndThread} {isActive : Bool}
    (hpc : (s.worker w).pc = .dispatch ft isActive)
    (hfin : ∀ f, ft.fiber = some f → (s.fiber f).state.finished = true) :
    s.callbackOn w =
      if ft.cb.isSome then some ((s.worker w).cbFiber.getD s.nextFiber) else none := by
  have hnone : (ft.fiber.filter fun f ↦ !(s.fiber f).state.finished) = none := by
    rw [Option.filter_eq_none_iff]
    intro x hx
    rw [hfin x hx]
    nofun
  simp only [callbackOn, hpc, hnone]

omit [DecidableEq W] [DecidableEq D] [DecidableEq O] [Fintype W] [Fintype D] in
/-- With a fiber, only a re-queue makes a token, and only `switchIn` uses one up. -/
theorem wakes_at {st : Stage} {role : Role} {g : FiberId} (hpc : (s.worker w).pc = .at st role g)
    (hst : st ≠ .requeue) : wakes f s (.work w) = 0 := by
  cases st with
  | requeue => exact absurd rfl hst
  | _ => simp only [wakes, hpc]

omit [DecidableEq W] [DecidableEq D] [DecidableEq O] [Fintype W] [Fintype D] in
theorem resumes_at {st : Stage} {role : Role} {g : FiberId} (hpc : (s.worker w).pc = .at st role g)
    (hst : st ≠ .switchIn) : resumes f s (.work w) = 0 := by
  cases st with
  | switchIn => exact absurd rfl hst
  | _ => simp only [resumes, hpc]

/-! ## The invariant -/

/-- At most one token is under way for `f`, and none when `f` is not waiting for one. -/
structure Tokens (f : FiberId) (s : Machine W D O) : Prop where
  one : tokens f s ≤ 1
  finished : (s.fiber f).state.finished = true → tokens f s = 0
  ready : ∀ w stage role, (s.worker w).pc = .at stage role f → stage.yielded = true →
    (s.fiber f).state = .ready → tokens f s = 0
  kept : ∀ w, (s.worker w).cbFiber = some f →
    (∃ stage, (s.worker w).pc = .at stage .callback f) ∨
      (s.worker w).pc.fiber? ≠ some f ∧ tokens f s = 0

omit [DecidableEq W] [DecidableEq D] [DecidableEq O] in
theorem Tokens.congr (h : Tokens f s) (hworker : s'.worker = s.worker)
    (hfiber : s'.fiber f = s.fiber f) (htok : tokens f s' ≤ tokens f s) : Tokens f s' where
  one := htok.trans h.one
  finished := fun hfin ↦ by
    rw [hfiber] at hfin
    have := h.finished hfin
    omega
  ready := fun w stage role hpc hst hready ↦ by
    rw [hworker] at hpc
    rw [hfiber] at hready
    have := h.ready w stage role hpc hst hready
    omega
  kept := fun w hw ↦ by
    rw [hworker] at hw ⊢
    exact (h.kept w hw).imp_right fun hk ↦ ⟨hk.1, by omega⟩

omit [DecidableEq D] [DecidableEq O] in
theorem Tokens.elsewhere (h : Tokens f s)
    (hworker : s'.worker = Function.update s.worker w wk)
    (hstate : (s'.fiber f).state = (s.fiber f).state) (htok : tokens f s' ≤ tokens f s)
    (hpc : wk.pc.fiber? ≠ some f)
    (hkeep : wk.cbFiber = some f → (s.worker w).cbFiber = some f ∧
      ∀ stage, (s.worker w).pc ≠ .at stage .callback f) : Tokens f s' where
  one := htok.trans h.one
  finished := fun hfin ↦ by
    rw [hstate] at hfin
    have := h.finished hfin
    omega
  ready := fun w' stage role hpc' hst hready ↦ by
    rw [hstate] at hready
    by_cases hw : w' = w
    · subst hw
      rw [hworker, Function.update_self] at hpc'
      exact absurd (by rw [hpc']; rfl) hpc
    · rw [hworker, Function.update_of_ne hw] at hpc'
      have := h.ready w' stage role hpc' hst hready
      omega
  kept := fun w' hw' ↦ by
    by_cases hw : w' = w
    · subst hw
      rw [hworker, Function.update_self] at hw' ⊢
      obtain ⟨hcb, hstage⟩ := hkeep hw'
      rcases h.kept w' hcb with ⟨stage, hst⟩ | hk
      · exact absurd hst (hstage stage)
      · exact .inr ⟨hpc, by omega⟩
    · rw [hworker, Function.update_of_ne hw] at hw' ⊢
      exact (h.kept w' hw').imp_right fun hk ↦ ⟨hk.1, by omega⟩

omit [DecidableEq D] [DecidableEq O] in
theorem Tokens.sole (hother : ∀ w', w' ≠ w → ¬ (s.worker w').Holds f)
    (hworker : s'.worker = Function.update s.worker w wk) (hone : tokens f s' ≤ 1)
    (hfin : (s'.fiber f).state.finished = true → tokens f s' = 0)
    (hready : ∀ stage role, wk.pc = .at stage role f → stage.yielded = true →
      (s'.fiber f).state = .ready → tokens f s' = 0)
    (hkept : wk.cbFiber = some f → (∃ stage, wk.pc = .at stage .callback f) ∨
      wk.pc.fiber? ≠ some f ∧ tokens f s' = 0) : Tokens f s' where
  one := hone
  finished := hfin
  ready := fun w' stage role hpc hst hr ↦ by
    by_cases hw : w' = w
    · subst hw
      rw [hworker, Function.update_self] at hpc
      exact hready stage role hpc hst hr
    · rw [hworker, Function.update_of_ne hw] at hpc
      exact absurd (Worker.holds_of_at hpc) (hother w' hw)
  kept := fun w' hw' ↦ by
    by_cases hw : w' = w
    · subst hw
      rw [hworker, Function.update_self] at hw' ⊢
      exact hkept hw'
    · rw [hworker, Function.update_of_ne hw] at hw'
      exact absurd (.inr hw') (hother w' hw)

omit [DecidableEq D] [DecidableEq O] in
theorem tokens_worker (hq : s'.fibers = s.fibers) (hd : s'.deliverer = s.deliverer)
    (hr : s'.registrations = s.registrations)
    (hworker : s'.worker = Function.update s.worker w wk) :
    tokens f s' + (s.worker w).pc.awaits f = tokens f s + wk.pc.awaits f := by
  have hflight := inFlight_worker (f := f) hq hd hworker
  unfold tokens waiting
  rw [hr]
  omega

omit [DecidableEq D] [DecidableEq O] in
theorem Tokens.stage (h : Tokens f s) (ho : Owned s f) {st st' : Stage} {role : Role} {g : FiberId}
    {fb : Fiber} (hpc : (s.worker w).pc = .at st role g)
    (hworker : s'.worker = Function.update s.worker w { s.worker w with pc := .at st' role g })
    (hfiber : s'.fiber = Function.update s.fiber g fb) (htok : tokens f s' ≤ tokens f s)
    (hfin : f = g → fb.state.finished = true → tokens f s = 0)
    (hready : f = g → st'.yielded = true → fb.state = .ready → tokens f s = 0) : Tokens f s' := by
  by_cases hfg : f = g
  · subst hfg
    have hself : s'.fiber f = fb := by rw [hfiber, Function.update_self]
    have hw := Worker.holds_of_at hpc
    refine Tokens.sole (fun w' hne hw' ↦ hne (ho.unique w' w hw' hw)) hworker (htok.trans h.one)
      (fun hf ↦ ?_) (fun stage role' heq hst hr ↦ ?_) fun hcb ↦ ?_
    · rw [hself] at hf
      have := hfin rfl hf
      omega
    · cases heq
      rw [hself] at hr
      have := hready rfl hst hr
      omega
    · rcases h.kept w hcb with ⟨stage, hst⟩ | ⟨hne, -⟩
      · rw [hpc] at hst
        cases hst
        exact .inl ⟨st', rfl⟩
      · rw [hpc] at hne
        exact absurd rfl hne
  · refine h.elsewhere hworker (by rw [hfiber, Function.update_of_ne hfg]) htok
      (fun heq ↦ hfg (Option.some.inj heq).symm) fun hcb ↦ ⟨hcb, fun stage heq ↦ ?_⟩
    rw [hpc] at heq
    cases heq
    exact hfg rfl

omit [DecidableEq D] [DecidableEq O] in
theorem Tokens.loop (h : Tokens f s) (ho : Owned s f) {st : Stage} {role : Role} {g : FiberId}
    {fb : Fiber} {cbFiber : Option FiberId} (hpc : (s.worker w).pc = .at st role g)
    (hworker : s'.worker = Function.update s.worker w
      { s.worker w with pc := .scan, cbFiber := cbFiber })
    (hcb : cbFiber = some f → (s.worker w).cbFiber = some f)
    (hfiber : s'.fiber = Function.update s.fiber g fb)
    (hother : f ≠ g → tokens f s' ≤ tokens f s) (hone : f = g → tokens f s' ≤ 1)
    (hfin : f = g → fb.state.finished = true → tokens f s' = 0)
    (hrole : f = g → cbFiber = some f → role = .callback → tokens f s' = 0) : Tokens f s' := by
  by_cases hfg : f = g
  · subst hfg
    have hself : s'.fiber f = fb := by rw [hfiber, Function.update_self]
    have hw := Worker.holds_of_at hpc
    refine Tokens.sole (fun w' hne hw' ↦ hne (ho.unique w' w hw' hw)) hworker (hone rfl)
      (fun hf ↦ hfin rfl (hself ▸ hf)) nofun fun hkeep ↦ .inr ⟨nofun, ?_⟩
    rcases h.kept w (hcb hkeep) with ⟨stage, hst⟩ | ⟨hne, -⟩
    · rw [hpc] at hst
      cases hst
      exact hrole rfl hkeep rfl
    · rw [hpc] at hne
      exact absurd rfl hne
  · refine h.elsewhere hworker (by rw [hfiber, Function.update_of_ne hfg]) (hother hfg) nofun
      fun hkeep ↦ ⟨hcb hkeep, fun stage heq ↦ ?_⟩
    rw [hpc] at heq
    cases heq
    exact hfg rfl

omit [DecidableEq D] [DecidableEq O] in
theorem Tokens.pass (h : Tokens f s) (hworker : s'.worker = Function.update s.worker w wk)
    (hfiber : s'.fiber = s.fiber) (htok : tokens f s' ≤ tokens f s)
    (hpc : ∀ stage role g, (s.worker w).pc ≠ .at stage role g) (hpc' : wk.pc.fiber? ≠ some f)
    (hcb : wk.cbFiber = (s.worker w).cbFiber) : Tokens f s' :=
  h.elsewhere hworker (by rw [hfiber]) htok hpc' fun hkeep ↦
    ⟨hcb ▸ hkeep, fun stage ↦ hpc stage .callback f⟩

omit [DecidableEq W] [DecidableEq D] [DecidableEq O] in
/-- An entry whose fiber has ended carries no token. -/
theorem Tokens.ended (h : Tokens f s) {ft : FiberAndThread} {isActive : Bool}
    (hpc : (s.worker w).pc = .dispatch ft isActive)
    (hfin : ∀ f, ft.fiber = some f → (s.fiber f).state.finished = true) : ft.fiber ≠ some f := by
  intro heq
  have hzero := h.finished (hfin f heq)
  have hle := awaits_le (f := f) (s := s) (w := w)
  rw [hpc] at hle
  simp only [Pc.awaits, heq, if_true] at hle
  unfold tokens at hzero
  omega

omit [DecidableEq W] [DecidableEq D] [DecidableEq O] in
/-- A worker that keeps `f` for callbacks and does not run one on it has no token for it. -/
theorem Tokens.spare (h : Tokens f s) (hcb : (s.worker w).cbFiber = some f)
    (hpc : ∀ stage, (s.worker w).pc ≠ .at stage .callback f) :
    (s.worker w).pc.fiber? ≠ some f ∧ tokens f s = 0 :=
  (h.kept w hcb).resolve_left fun ⟨stage, hst⟩ ↦ hpc stage hst

/-- What one step does to the tokens of `f`, and that it keeps the invariant. -/
structure Flows (f : FiberId) (s : Machine W D O) (a : Action W D O) (s' : Machine W D O) :
    Prop where
  keeps : Tokens f s'
  balance : inFlight f s + wakes f s a = inFlight f s' + resumes f s a

omit [DecidableEq D] [DecidableEq O] in
theorem Flows.took (h : Tokens f s) {ft : FiberAndThread} {rest : List FiberAndThread}
    (hpc : (s.worker w).pc = .scan)
    (htake : takeFirst (s.takeable (s.worker w).thread) s.fibers = some (ft, rest))
    (hok : s.taken w = some f → ∀ w', w' ≠ w → ¬ (s.worker w').Holds f) :
    Flows f s (.work w)
      ({ s with fibers := rest, activeThreadCount := s.activeThreadCount + 1 }.setPc w
        (.dispatch ft true)) := by
  obtain ⟨-, a, b, hl, hl'⟩ := takeFirst_some htake
  have hcount : s.fibers.countP (·.names f) =
      rest.countP (·.names f) + (Pc.dispatch ft true).awaits f := by
    rw [hl, hl', List.countP_append, List.countP_append, List.countP_cons]
    simp only [Pc.awaits, FiberAndThread.names, decide_eq_true_eq]
    omega
  have haw := awaiting_update (s := s) (w := w) (f := f)
    { s.worker w with pc := .dispatch ft true }
  rw [hpc] at haw
  have hflight : inFlight f ({ s with fibers := rest, activeThreadCount := s.activeThreadCount + 1
      }.setPc w (.dispatch ft true)) = inFlight f s := by
    unfold inFlight setPc setWorker
    dsimp only
    rw [hcount]
    simp only [Pc.awaits] at haw ⊢
    omega
  have htok : tokens f ({ s with fibers := rest, activeThreadCount := s.activeThreadCount + 1
      }.setPc w (.dispatch ft true)) = tokens f s := by
    unfold tokens
    rw [hflight]
    rfl
  constructor
  · by_cases hf : ft.fiber = some f
    · -- the token in the queue rules out that a worker keeps `f` for its callbacks
      have hsome : tokens f s ≠ 0 := by
        have hpos : 0 < s.fibers.countP (·.names f) := by
          rw [hcount]
          simp only [Pc.awaits, hf, if_true]
          omega
        unfold tokens inFlight
        omega
      have htaken : s.taken w = some f := by
        unfold taken
        simp only [hpc, htake, Option.bind_some, hf]
      refine Tokens.sole (hok htaken) rfl (htok.le.trans h.one) (fun hfin ↦ absurd (h.finished hfin)
        hsome) nofun fun hcb ↦ ?_
      exact absurd (h.spare hcb (by rw [hpc]; nofun)).2 hsome
    · exact h.elsewhere rfl rfl htok.le hf fun hcb ↦ ⟨hcb, by rw [hpc]; nofun⟩
  · simp only [wakes, resumes, hpc, hflight]

omit [DecidableEq D] [DecidableEq O] in
theorem Flows.callback (h : Tokens f s) {ft : FiberAndThread} {isActive : Bool} {g : FiberId}
    (hpc : (s.worker w).pc = .dispatch ft isActive)
    (hfin : ∀ f, ft.fiber = some f → (s.fiber f).state.finished = true) (hcb : ft.cb.isSome = true)
    (hg : (s.worker w).cbFiber.getD s.nextFiber = g)
    (hfiber : s'.fiber = Function.update s.fiber g .fresh)
    (hworker : s'.worker = Function.update s.worker w wk) (hwk : wk.pc = .at .check .callback g)
    (hwkcb : wk.cbFiber = some g) (hq : s'.fibers = s.fibers) (hd : s'.deliverer = s.deliverer)
    (hr : s'.registrations = s.registrations)
    (hother : f = g → (∀ w', w' ≠ w → ¬ (s.worker w').Holds f) ∧ tokens f s = 0) :
    Flows f s (.work w) s' := by
  have hne : ft.fiber ≠ some f := h.ended hpc hfin
  have hon : s.callbackOn w = some g := by rw [callbackOn_of_finished hpc hfin, if_pos hcb, hg]
  have htok := tokens_worker (f := f) hq hd hr hworker
  have hflight := inFlight_worker (f := f) hq hd hworker
  have hold : (s.worker w).pc.awaits f = 0 := by
    rw [hpc]
    simp only [Pc.awaits, hne, if_false]
  rw [hold] at htok hflight
  rw [hwk] at htok hflight
  constructor
  · by_cases hfg : f = g
    · subst hfg
      have hself : s'.fiber f = .fresh := by rw [hfiber, Function.update_self]
      have hzero := (hother rfl).2
      simp only [Pc.awaits, if_true] at htok
      refine Tokens.sole (hother rfl).1 hworker (by omega) (fun hf ↦ ?_)
        (fun stage role heq hst ↦ ?_) fun _ ↦ .inl ⟨.check, hwk⟩
      · rw [hself] at hf
        cases hf
      · rw [hwk] at heq
        cases heq
        cases hst
    · -- a callback on another fiber is no token for `f`
      have hgf : ¬ g = f := fun heq ↦ hfg heq.symm
      simp only [Pc.awaits, hgf, if_false] at htok
      refine h.elsewhere hworker (by rw [hfiber, Function.update_of_ne hfg]) (by omega) ?_ ?_
      · rw [hwk]
        exact fun heq ↦ hgf (Option.some.inj heq)
      · rw [hwkcb]
        exact fun heq ↦ absurd (Option.some.inj heq) hgf
  · simp only [wakes, resumes, hpc, hon, Option.some_inj, Pc.awaits] at hflight ⊢
    omega

omit [DecidableEq D] [DecidableEq O] in
theorem Flows.moved {a : Action W D O} {pc pc' : Pc} (hpc : (s.worker w).pc = pc)
    (hpc' : wk.pc = pc') (hq : s'.fibers = s.fibers) (hd : s'.deliverer = s.deliverer)
    (hr : s'.registrations = s.registrations)
    (hworker : s'.worker = Function.update s.worker w wk)
    (hbal : pc.awaits f + wakes f s a = pc'.awaits f + resumes f s a)
    (hkeeps : tokens f s' + pc.awaits f = tokens f s + pc'.awaits f → Tokens f s') :
    Flows f s a s' := by
  have htok := tokens_worker (f := f) hq hd hr hworker
  have hflight := inFlight_worker (f := f) hq hd hworker
  rw [hpc, hpc'] at htok hflight
  exact ⟨hkeeps htok, by omega⟩

omit [DecidableEq D] [DecidableEq O] in
theorem Flows.resumed (h : Tokens f s) (ho : Owned s f) {ft : FiberAndThread} {isActive : Bool}
    {g : FiberId} (hpc : (s.worker w).pc = .dispatch ft isActive) (hg : ft.fiber = some g)
    (hlive : (s.fiber g).state.finished = false) :
    Flows f s (.work w) (s.setPc w (.at .check .task g)) := by
  have hon : s.callbackOn w = none := by
    have hsome : (ft.fiber.filter fun f ↦ !(s.fiber f).state.finished) = some g := by
      rw [Option.filter_eq_some_iff, hlive]
      exact ⟨hg, rfl⟩
    simp only [callbackOn, hpc, hsome]
  refine .moved hpc rfl rfl rfl rfl rfl ?_ fun htok ↦ ?_
  · simp only [wakes, resumes, hpc, hon, Pc.awaits, hg, Option.some_inj, reduceCtorEq, if_false]
  · simp only [Pc.awaits, hg, Option.some_inj, Nat.add_right_cancel_iff] at htok
    by_cases hgf : g = f
    · subst hgf
      have hbusy : (s.worker w).pc.fiber? = some g := by rw [hpc]; exact hg
      refine Tokens.sole (fun w' hne hw' ↦ hne (ho.unique w' w hw' (.inl hbusy))) rfl
        (htok.le.trans h.one) (fun hfin ↦ absurd (hlive.symm.trans hfin) nofun)
        (fun stage role heq hst ↦ ?_) fun hcb ↦ ?_
      · cases heq
        cases hst
      · exact absurd hbusy (h.spare hcb (by rw [hpc]; nofun)).1
    · exact h.elsewhere rfl rfl htok.le (fun heq ↦ hgf (Option.some.inj heq)) fun hcb ↦
        ⟨hcb, by rw [hpc]; nofun⟩

omit [DecidableEq D] [DecidableEq O] in
/-- A worker that found nothing to execute in its entry. -/
theorem Flows.gaveUp (h : Tokens f s) {ft : FiberAndThread} {isActive : Bool} {pc : Pc}
    (hpc : (s.worker w).pc = .dispatch ft isActive)
    (hfin : ∀ f, ft.fiber = some f → (s.fiber f).state.finished = true)
    (hcb : ft.cb.isSome = false) (hq : s'.fibers = s.fibers) (hd : s'.deliverer = s.deliverer)
    (hr : s'.registrations = s.registrations) (hfiber : s'.fiber = s.fiber)
    (hworker : s'.worker = Function.update s.worker w { s.worker w with pc := pc })
    (hpc' : pc.fiber? ≠ some f) (hnone : pc.awaits f = 0) : Flows f s (.work w) s' := by
  have hne := h.ended hpc hfin
  have hon : s.callbackOn w = none := by
    rw [callbackOn_of_finished hpc hfin, if_neg (by rw [hcb]; exact Bool.false_ne_true)]
  refine .moved hpc rfl hq hd hr hworker ?_ fun htok ↦ ?_
  · rw [hnone]
    simp only [wakes, resumes, hpc, hon, Pc.awaits, hne, reduceCtorEq, if_false]
  · rw [hnone] at htok
    simp only [Pc.awaits, hne, if_false] at htok
    refine h.pass hworker hfiber htok.le ?_ hpc' rfl
    rw [hpc]
    nofun

omit [DecidableEq D] [DecidableEq O] in
theorem Flows.stage (h : Tokens f s) (ho : Owned s f) {st st' : Stage} {role : Role} {g : FiberId}
    {fb : Fiber} (hpc : (s.worker w).pc = .at st role g)
    (hq : s'.fibers = s.fibers) (hd : s'.deliverer = s.deliverer)
    (hr : s'.registrations = s.registrations)
    (hworker : s'.worker = Function.update s.worker w { s.worker w with pc := .at st' role g })
    (hfiber : s'.fiber = Function.update s.fiber g fb)
    (hst : st ≠ .requeue)
    (hbal : (Pc.at st role g).awaits f =
      (Pc.at st' role g).awaits f + resumes f s (.work w))
    (hfin : f = g → fb.state.finished = true → tokens f s = 0)
    (hready : f = g → st'.yielded = true → fb.state = .ready → tokens f s = 0) :
    Flows f s (.work w) s' := by
  have hle : (Pc.at st' role g).awaits f ≤ (Pc.at st role g).awaits f := by omega
  refine .moved hpc rfl hq hd hr hworker ?_ fun htok ↦
    h.stage ho hpc hworker hfiber
      (Nat.le_of_add_le_add_right (htok.le.trans (Nat.add_le_add_left hle _))) hfin hready
  rw [wakes_at hpc hst]
  exact hbal

omit [DecidableEq W] [DecidableEq D] [DecidableEq O] [Fintype W] [Fintype D] in
theorem awaits_examined {role : Role} {g : FiberId} : (s.examined role g).awaits f = 0 := by
  unfold examined
  split
  · rfl
  · split
    · cases role <;> rfl
    · rfl

omit [DecidableEq D] [DecidableEq O] in
theorem Flows.examined (h : Tokens f s) (ho : Owned s f) {role : Role} {g : FiberId}
    (hpc : (s.worker w).pc = .at .examine role g) :
    Flows f s (.work w) (s.setPc w (s.examined role g)) := by
  have hsame : s.fiber = Function.update s.fiber g (s.fiber g) :=
    (Function.update_eq_self g s.fiber).symm
  have hended : f = g → (s.fiber g).state.finished = true → tokens f s = 0 :=
    fun heq ↦ heq ▸ h.finished
  refine .moved hpc rfl rfl rfl rfl rfl ?_ fun htok ↦ ?_
  · rw [awaits_examined, wakes_at hpc nofun, resumes_at hpc nofun]
    rfl
  · rw [awaits_examined] at htok
    have hle : tokens f (s.setPc w (s.examined role g)) ≤ tokens f s := htok.le
    -- `READY`, ended or `HOLD`
    unfold Machine.examined at hle ⊢
    split at hle
    · rename_i hready
      rw [if_pos hready]
      refine h.stage ho hpc rfl hsame hle hended fun heq _ ↦ ?_
      subst heq
      exact h.ready w _ _ hpc rfl
    · split at hle
      · rename_i hready hfin
        rw [if_neg hready, if_pos hfin]
        cases role with
        | task =>
            exact h.loop ho hpc rfl id hsame (fun _ ↦ hle) (fun _ ↦ hle.trans h.one)
              (fun heq _ ↦ (Nat.le_zero.mp (hended heq hfin ▸ hle))) fun _ _ ↦ nofun
        | callback => exact h.stage ho hpc rfl hsame hle hended fun _ ↦ nofun
      · rename_i hready hfin
        rw [if_neg hready, if_neg hfin]
        exact h.stage ho hpc rfl hsame hle hended fun _ ↦ nofun

omit [DecidableEq D] [DecidableEq O] in
theorem Flows.requeued (h : Tokens f s) (ho : Owned s f) {role : Role} {g : FiberId}
    (hpc : (s.worker w).pc = .at .requeue role g) :
    Flows f s (.work w)
      ({ s with fibers := s.fibers ++ [FiberAndThread.ofFiber (some g) (-1)] }.release w role) := by
  have haw := awaiting_update (s := s) (w := w) (f := f)
    { s.worker w with
      pc := .scan
      cbFiber := if role = .callback then none else (s.worker w).cbFiber }
  rw [hpc] at haw
  have hflight : inFlight f
      ({ s with fibers := s.fibers ++ [FiberAndThread.ofFiber (some g) (-1)] }.release w role) =
        inFlight f s + if g = f then 1 else 0 := by
    unfold inFlight release setWorker
    dsimp only
    rw [List.countP_append, List.countP_singleton]
    simp only [FiberAndThread.names, FiberAndThread.ofFiber, Option.some_inj, decide_eq_true_eq]
    simp only [Pc.awaits] at haw ⊢
    omega
  have htok : tokens f
      ({ s with fibers := s.fibers ++ [FiberAndThread.ofFiber (some g) (-1)] }.release w role) =
        tokens f s + if g = f then 1 else 0 := by
    unfold tokens
    rw [hflight, ← Nat.add_assoc]
    rfl
  constructor
  · -- the fiber yielded `READY`, so no token was under way for it
    have hok : f = g → (s.fiber f).state = .ready ∧ tokens f s = 0 := by
      rintro rfl
      have hready := (ho.ok hpc).1
      exact ⟨hready, h.ready w _ _ hpc rfl hready⟩
    refine h.loop ho hpc rfl release_cbFiber (Function.update_eq_self g s.fiber).symm
      (fun hne ↦ ?_) (fun heq ↦ ?_) (fun heq hfin ↦ ?_) fun _ hcb hrole ↦ ?_
    · rw [htok, if_neg (Ne.symm hne)]
      exact Nat.le_refl _
    · rw [htok, (hok heq).2, if_pos heq.symm]
    · rw [← heq, (hok heq).1] at hfin
      cases hfin
    · rw [if_pos hrole] at hcb
      cases hcb
  · rw [hflight]
    simp only [wakes, resumes, hpc, Nat.add_zero]

omit [DecidableEq D] [DecidableEq O] in
/-- What the next step of a worker does to the tokens. -/
theorem Flows.worked (h : Tokens f s) (ho : Owned s f) (hk : s.Known)
    (hok : s.taken w = some f → ∀ w', w' ≠ w → ¬ (s.worker w').Holds f) (hs : Worked s w s') :
    Flows f s (.work w) s' := by
  have hsame : ∀ g, s.fiber = Function.update s.fiber g (s.fiber g) :=
    fun g ↦ (Function.update_eq_self g s.fiber).symm
  cases hs with
  | took hpc _ htake => exact .took h hpc htake hok
  | foundNone hpc =>
      refine .moved hpc rfl rfl rfl rfl rfl ?_ fun htok ↦ ?_
      · simp only [wakes, resumes, hpc]
        rfl
      · refine h.pass rfl rfl htok.le ?_ nofun rfl
        rw [hpc]
        nofun
  | resumed hpc hf hlive => exact .resumed h ho hpc hf hlive
  | reused hpc hfin hcb hc _ =>
      refine .callback h hpc hfin hcb (by rw [hc]; rfl) rfl rfl rfl hc rfl rfl rfl ?_
      rintro rfl
      exact ⟨fun w' hne hw' ↦ hne (ho.unique w' w hw' (.inr hc)),
        (h.spare hc (by rw [hpc]; nofun)).2⟩
  | made hpc hfin hcb hc =>
      refine .callback h hpc hfin hcb (by rw [hc]; rfl) rfl rfl rfl rfl rfl rfl rfl ?_
      rintro rfl
      exact ⟨fun w' _ hw' ↦ Nat.lt_irrefl _ (hk.held w' _ hw'), tokens_new hk⟩
  | dropped hpc hfin hcb => exact .gaveUp h hpc hfin hcb rfl rfl rfl rfl rfl nofun rfl
  | idled hpc hfin hcb hpc' =>
      rcases hpc' with rfl | rfl <;> exact .gaveUp h hpc hfin hcb rfl rfl rfl rfl rfl nofun rfl
  | checked hpc _ =>
      refine .stage h ho hpc rfl rfl rfl rfl (hsame _) nofun ?_ (fun heq ↦ heq ▸ h.finished)
        fun _ ↦ nofun
      rw [resumes_at hpc nofun]
      rfl
  | marked hpc =>
      refine .stage h ho hpc rfl rfl rfl rfl rfl nofun ?_ (fun _ ↦ nofun) fun _ ↦ nofun
      rw [resumes_at hpc nofun]
      rfl
  | switchedIn hpc =>
      -- the token is used up
      refine .stage h ho hpc rfl rfl rfl rfl rfl nofun ?_ (fun heq ↦ heq ▸ h.finished) fun _ ↦ nofun
      simp only [resumes, hpc]
      exact (Nat.zero_add _).symm
  | switchedOut hpc =>
      refine .stage h ho hpc rfl rfl rfl rfl rfl nofun ?_ (fun heq ↦ heq ▸ h.finished)
        fun heq _ ↦ ?_
      · rw [resumes_at hpc nofun]
        rfl
      · subst heq
        exact h.ready w _ _ hpc rfl
  | decremented hpc =>
      refine .stage h ho hpc rfl rfl rfl rfl (hsame _) nofun ?_ (fun heq ↦ heq ▸ h.finished)
        fun heq _ ↦ ?_
      · rw [resumes_at hpc nofun]
        rfl
      · subst heq
        exact h.ready w _ _ hpc rfl
  | examined hpc => exact .examined h ho hpc
  | requeued hpc => exact .requeued h ho hpc
  | held hpc =>
      refine .moved hpc rfl rfl rfl rfl rfl ?_ fun htok ↦ ?_
      · rw [wakes_at hpc nofun, resumes_at hpc nofun]
        rfl
      · refine h.loop ho hpc rfl release_cbFiber rfl (fun _ ↦ htok.le)
          (fun _ ↦ htok.le.trans h.one) (fun _ ↦ nofun) fun _ hcb hrole ↦ ?_
        rw [if_pos hrole] at hcb
        cases hcb
  | retired hpc _ =>
      refine .moved hpc rfl rfl rfl rfl rfl ?_ fun htok ↦ ?_
      · rw [wakes_at hpc nofun, resumes_at hpc nofun]
        rfl
      · refine h.loop ho hpc rfl id rfl (fun _ ↦ htok.le) (fun _ ↦ htok.le.trans h.one)
          (fun _ ↦ nofun) fun heq _ _ ↦ ?_
        subst heq
        exact htok.trans (h.finished (ho.ok hpc).1)
  | awoke hpc =>
      refine .moved hpc rfl rfl rfl rfl rfl ?_ fun htok ↦ ?_
      · simp only [wakes, resumes, hpc]
        rfl
      · refine h.pass rfl rfl htok.le ?_ nofun rfl
        rw [hpc]
        nofun

omit [DecidableEq W] [DecidableEq D] [DecidableEq O] in
/-- A fiber that nobody holds gets its token. -/
theorem Tokens.given (hnone : ∀ w, ¬ (s.worker w).Holds f)
    (hlive : (s.fiber f).state.finished = false) (hworker : s'.worker = s.worker)
    (hfiber : s'.fiber = s.fiber) (hone : tokens f s' ≤ 1) : Tokens f s' where
  one := hone
  finished := fun hfin ↦ by
    rw [hfiber, hlive] at hfin
    cases hfin
  ready := fun w stage role hpc ↦ by
    rw [hworker] at hpc
    exact absurd (Worker.holds_of_at hpc) (hnone w)
  kept := fun w hcb ↦ by
    rw [hworker] at hcb
    exact absurd (.inr hcb) (hnone w)

omit [DecidableEq W] [DecidableEq D] [DecidableEq O] in
theorem Tokens.registers (h : Tokens f s) (ho : Owned s f) {role : Role}
    (hpc : (s.worker w).pc = .at .running role f) (hworker : s'.worker = s.worker)
    (hfiber : s'.fiber = s.fiber) (hone : tokens f s' ≤ 1) : Tokens f s' := by
  have hw := Worker.holds_of_at hpc
  have hself : ∀ w', (s.worker w').Holds f → w' = w := fun w' hw' ↦ ho.unique w' w hw' hw
  refine ⟨hone, fun hfin ↦ ?_, fun w' stage role' hpc' hst ↦ ?_, fun w' hcb ↦ ?_⟩
  · have hexec : (s.fiber f).state = .exec := ho.ok hpc
    rw [hfiber, hexec] at hfin
    cases hfin
  · rw [hworker] at hpc'
    obtain rfl := hself w' (Worker.holds_of_at hpc')
    rw [hpc] at hpc'
    cases hpc'
    cases hst
  · rw [hworker] at hcb ⊢
    obtain rfl := hself w' (.inr hcb)
    refine (h.kept w' hcb).imp_right fun hk ↦ absurd ?_ hk.1
    rw [hpc]
    rfl

theorem countP_scheduleNoLock {fibers : List FiberAndThread} {ft : FiberAndThread} :
    (scheduleNoLock fibers ft).2.countP (·.names f) =
      fibers.countP (·.names f) + if ft.names f then 1 else 0 := by
  unfold scheduleNoLock
  dsimp only
  split
  · rw [List.countP_append, List.countP_singleton]
  · rename_i hempty
    have hno : ft.names f = false := by
      refine decide_eq_false fun heq ↦ hempty ?_
      simp only [FiberAndThread.nonempty, heq, Option.isSome_some, Bool.true_or]
    rw [hno]
    rfl

theorem countP_erase_registration {l : List Registration} {r : Registration} (hr : r ∈ l) :
    (l.erase r).countP (fun r ↦ r.ft.names f) + (if r.ft.names f then 1 else 0) =
      l.countP fun r ↦ r.ft.names f := by
  have hperm := (List.perm_cons_erase hr).countP_eq fun r ↦ r.ft.names f
  rw [hperm, List.countP_cons]

omit [DecidableEq W] [DecidableEq O] in
/-- A deliverer that goes on, while the workers and the fibers stay as they are. -/
theorem Flows.carried (h : Tokens f s) {a : Action W D O} {d : D} {v : Deliverer}
    (hworker : s'.worker = s.worker) (hfiber : s'.fiber = s.fiber)
    (hdel : s'.deliverer = Function.update s.deliverer d v) (hres : resumes f s a = 0)
    (hbal : s.fibers.countP (·.names f) + (s.deliverer d).carries f + wakes f s a =
      s'.fibers.countP (·.names f) + v.carries f)
    (hwait : waiting f s' + wakes f s a = waiting f s) : Flows f s a s' := by
  have hcarry := carrying_update (f := f) (s := s) d v
  have hflight : inFlight f s' = inFlight f s + wakes f s a := by
    unfold inFlight
    rw [hworker, hdel]
    omega
  refine ⟨h.congr hworker (by rw [hfiber]) ?_, by rw [hflight, hres, Nat.add_zero]⟩
  unfold tokens
  omega

omit [DecidableEq W] [DecidableEq D] [DecidableEq O] in
theorem Flows.newFiber (h : Tokens f s) (hk : s.Known) :
    Flows f s .newFiber ({ s with nextFiber := s.nextFiber + 1 }.setFiber s.nextFiber .fresh) := by
  by_cases hfn : f = s.nextFiber
  · have hzero : tokens f s = 0 := hfn ▸ tokens_new hk
    have hnone : ∀ w, ¬ (s.worker w).Holds f :=
      fun w hw ↦ Nat.lt_irrefl _ (hfn ▸ hk.held w f hw)
    refine ⟨⟨h.one, fun _ ↦ hzero, fun w stage role hpc ↦ ?_, fun w hcb ↦ ?_⟩, rfl⟩
    · exact absurd (Worker.holds_of_at hpc) (hnone w)
    · exact absurd (.inr hcb) (hnone w)
  · exact ⟨h.congr rfl (Function.update_of_ne hfn _ _) (Nat.le_refl _), rfl⟩

omit [DecidableEq W] [DecidableEq D] [DecidableEq O] in
/-- An entry that is scheduled is a token if it names the fiber. -/
theorem Flows.scheduled (h : Tokens f s) {ft : FiberAndThread} (hwaits : Waits f s (.schedule ft)) :
    Flows f s (.schedule ft) { s with fibers := (scheduleNoLock s.fibers ft).2 } := by
  have hflight : inFlight f { s with fibers := (scheduleNoLock s.fibers ft).2 } =
      inFlight f s + if ft.names f then 1 else 0 := by
    unfold inFlight
    dsimp only
    rw [countP_scheduleNoLock]
    omega
  have htok : tokens f { s with fibers := (scheduleNoLock s.fibers ft).2 } =
      tokens f s + if ft.names f then 1 else 0 := by
    unfold tokens
    rw [hflight, ← Nat.add_assoc]
    rfl
  refine ⟨?_, hflight.symm⟩
  by_cases hnames : ft.names f = true
  · obtain ⟨hzero, hnone, hlive⟩ := hwaits (of_decide_eq_true hnames)
    rw [hzero, if_pos hnames] at htok
    exact .given hnone hlive rfl rfl htok.le
  · rw [if_neg hnames] at htok
    exact h.congr rfl rfl htok.le

omit [DecidableEq W] [DecidableEq D] [DecidableEq O] in
/-- A fiber that registers itself waits for nothing else. -/
theorem Flows.eventAdded (h : Tokens f s) (ho : Owned s f) {fd : Nat} {event : IOManager.Event}
    {role : Role} {g : FiberId} (hpc : (s.worker w).pc = .at .running role g)
    (hwaits : Waits f s (.addEvent w fd event)) :
    Flows f s (.addEvent w fd event)
      { s with
        registrations := s.registrations ++ [⟨fd, event, FiberAndThread.ofFiber (some g) (-1)⟩]
        pendingEventCount := s.pendingEventCount + 1 } := by
  refine ⟨?_, rfl⟩
  by_cases hgf : g = f
  · subst hgf
    have hzero : tokens g s = 0 := hwaits ⟨role, .inl hpc⟩
    refine h.registers ho hpc rfl rfl ?_
    obtain ⟨hwaiting, hflight⟩ := tokens_eq_zero_iff.mp hzero
    show List.countP _ (s.registrations ++ [_]) + inFlight g s ≤ 1
    rw [List.countP_append, hflight, List.countP_singleton]
    show waiting g s + _ + 0 ≤ 1
    rw [hwaiting]
    split <;> omega
  · refine h.congr rfl rfl (Nat.add_le_add_right ?_ _)
    show List.countP _ (s.registrations ++ [_]) ≤ _
    have hno : (FiberAndThread.ofFiber (some g) (-1)).names f = false :=
      decide_eq_false fun heq ↦ hgf (Option.some.inj heq)
    rw [List.countP_append, List.countP_singleton, hno]
    exact Nat.le_refl _

omit [DecidableEq W] [DecidableEq O] in
/-- The token leaves the registration for the deliverer. -/
theorem Flows.triggered (h : Tokens f s) {d : D} {fd : Nat} {event : IOManager.Event} {r : Registration}
    (hd : s.deliverer d = .free) (hreg : s.registration fd event = some r)
    (hr : r ∈ s.registrations) :
    Flows f s (.trigger d fd event)
      ({ s with registrations := s.registrations.erase r }.setDeliverer d (.pushing r.ft)) := by
  have hwakes : wakes f s (.trigger d fd event) = if r.ft.names f then 1 else 0 := by
    simp only [wakes, hreg]
  have herase := countP_erase_registration (f := f) hr
  refine .carried h rfl rfl rfl rfl ?_ ?_
  · rw [hwakes, hd]
    rfl
  · rw [hwakes]
    exact herase

/-- One step keeps the invariant, and resumes `f` once for each token. -/
theorem Flows.step (h : Tokens f s) (ho : Owned s f) (hk : s.Known) {a : Action W D O}
    (hok : s.TakesUnheld f a) (hwaits : Waits f s a) (hs : Of step s a s') : Flows f s a s' := by
  cases step_cases hs with
  | newFiber => exact .newFiber h hk
  | scheduled => exact .scheduled h hwaits
  | worked hw => exact .worked h ho hk hok hw
  | @yielded w y role g hpc =>
      refine .moved hpc rfl rfl rfl rfl rfl rfl fun htok ↦
        h.stage ho hpc rfl rfl htok.le (fun heq hfin ↦ ?_) fun heq _ hready ↦ ?_
      all_goals
        subst heq
        apply (hwaits ⟨role, .inl hpc⟩).resolve_left
        rintro rfl
      · cases hfin
      · cases hready
  | idleEnded hpc =>
      -- the idle fiber carries no token
      refine .moved hpc rfl rfl rfl rfl rfl rfl fun htok ↦ h.pass rfl rfl htok.le ?_ nofun rfl
      rw [hpc]
      nofun
  | eventAdded hpc => exact .eventAdded h ho hpc hwaits
  | callbackAdded =>
      refine ⟨h.congr rfl rfl (Nat.add_le_add_right ?_ _), rfl⟩
      show List.countP _ (s.registrations ++ [_]) ≤ _
      rw [List.countP_append, List.countP_singleton]
      exact Nat.le_refl _
  | deleted hr =>
      refine ⟨h.congr rfl rfl (Nat.add_le_add_right ?_ _), rfl⟩
      have herase := countP_erase_registration (f := f) hr
      show List.countP _ (s.registrations.erase _) ≤ waiting f s
      unfold waiting
      omega
  | triggered hd hreg hr => exact .triggered h hd hreg hr
  | @pushed d ft hd hm =>
      -- the token leaves the deliverer for the queue
      refine .carried h rfl rfl rfl rfl ?_ rfl
      rw [hd]
      exact countP_scheduleNoLock.symm
  | @uncounted d hd =>
      refine .carried h rfl rfl rfl rfl ?_ rfl
      rw [hd]
      rfl
  | _ => exact ⟨h.congr rfl rfl (Nat.le_refl _), rfl⟩

omit [DecidableEq W] [DecidableEq D] [DecidableEq O] in
theorem start_inFlight (thread : W → Int) : inFlight f (start thread : Machine W D O) = 0 := by
  have hd : ∑ d, ((start thread : Machine W D O).deliverer d).carries f = 0 :=
    Finset.sum_eq_zero fun _ _ ↦ rfl
  have hw : ∑ w, ((start thread : Machine W D O).worker w).pc.awaits f = 0 :=
    Finset.sum_eq_zero fun _ _ ↦ rfl
  unfold inFlight
  rw [hd, hw]
  rfl

omit [DecidableEq W] [DecidableEq D] [DecidableEq O] in
theorem start_tokens (thread : W → Int) : Tokens f (start thread : Machine W D O) := by
  have hzero := tokens_eq_zero_iff.mpr ⟨rfl, start_inFlight (D := D) (O := O) (f := f) thread⟩
  exact ⟨hzero.le.trans (Nat.zero_le 1), fun _ ↦ hzero, nofun, nofun⟩

/-- The steps in which `f` waits as it should, and no scan takes it from another worker's hands. -/
def Handed (f : FiberId) : Machine W D O → Action W D O → Machine W D O → Prop :=
  Guarded (Of step) fun s a ↦ s.TakesUnheld f a ∧ Waits f s a

/-- `f` is resumed only after its context was saved, `run` writes `HOLD` only over `HOLD`, and every
token resumes `f` once, or is the one still under way. -/
theorem wakeup_safe {thread : W → Int} {as : List (Action W D O)}
    (h : Run (Handed f) (start thread) as s) :
    (∀ w role, (s.worker w).pc = .at .switchIn role f → (s.fiber f).saved = true) ∧
      (∀ w role, (s.worker w).pc = .at .hold role f → (s.fiber f).state = .hold) ∧
      tally step (wakes f) (start thread) as =
        tally step (resumes f) (start thread) as + inFlight f s ∧
      inFlight f s ≤ 1 := by
  -- the three invariants go along the run together, and each step balances the tokens
  have hstep : ∀ (s : Machine W D O) a s', (s.Known ∧ Owned s f) ∧ Tokens f s →
      Handed f s a s' → (s'.Known ∧ Owned s' f) ∧ Tokens f s' := by
    rintro s a s' ⟨⟨hk, ho⟩, ht⟩ ⟨hs, htakes, hwaits⟩
    exact ⟨⟨hk.step hs, ho.step hk htakes hs⟩, (Flows.step ht ho hk htakes hwaits hs).keeps⟩
  have hstart : ((start thread : Machine W D O).Known ∧ Owned (start thread : Machine W D O) f) ∧
      Tokens f (start thread : Machine W D O) :=
    ⟨⟨start_known thread, start_owned thread f⟩, start_tokens thread⟩
  obtain ⟨⟨-, ho⟩, ht⟩ := h.invariant hstep hstart
  refine ⟨fun w role hpc ↦ (ho.ok hpc).2, fun w role hpc ↦ (ho.ok hpc).1, ?_, ?_⟩
  · have hflow : ∀ (s : Machine W D O) a s', (s.Known ∧ Owned s f) ∧ Tokens f s →
        Handed f s a s' → inFlight f s + wakes f s a = inFlight f s' + resumes f s a := by
      rintro s a s' ⟨⟨hk, ho⟩, ht⟩ ⟨hs, htakes, hwaits⟩
      exact (Flows.step ht ho hk htakes hwaits hs).balance
    have hbal := tally_balance (fun _ _ _ hs ↦ hs.1) hstep hflow h hstart
    rw [start_inFlight] at hbal
    omega
  · have hone := ht.one
    unfold tokens at hone
    omega

/-! ## Runs on fixed inputs -/

instance (wk : Worker) (f : FiberId) : Decidable (wk.Executes f) :=
  decidable_of_iff (wk.pc = .at .running .task f ∨ wk.pc = .at .leaving .task f ∨
    wk.pc = .at .running .callback f ∨ wk.pc = .at .leaving .callback f) (by
      constructor
      · rintro (h | h | h | h)
        · exact ⟨.task, .inl h⟩
        · exact ⟨.task, .inr h⟩
        · exact ⟨.callback, .inl h⟩
        · exact ⟨.callback, .inr h⟩
      · rintro ⟨role, h | h⟩ <;> cases role
        · exact .inl h
        · exact .inr (.inr (.inl h))
        · exact .inr (.inl h)
        · exact .inr (.inr (.inr h)))

instance (f : FiberId) (s : Machine W D O) (a : Action W D O) : Decidable (Waits f s a) :=
  match a with
  | .schedule _ => inferInstanceAs (Decidable (_ → _))
  | .addEvent .. => inferInstanceAs (Decidable (_ → _))
  | .yield .. => inferInstanceAs (Decidable (_ → _))
  | .newFiber | .work _ | .idleEnd _ | .addCallback .. | .delEvent .. | .trigger .. | .push _
  | .uncount _ | .setAutoStop | .clearRunning | .readQueue _ | .readActive _ | .readPending _ =>
    inferInstanceAs (Decidable True)

/-- A fiber that waits for an event, is resumed by the other worker and ends there. -/
theorem wakeup_safe_handover : ∃ s : Two,
    Run (Handed 0) two
      [.newFiber, .schedule ⟨some 0, none, -1⟩, .work false, .work false, .work false, .work false,
        .work false, .addEvent false 5 .read, .trigger () 5 .read, .yield false .hold, .work false,
        .work false, .work false, .work false, .push (), .work true, .work true, .work true,
        .work true] s ∧
      (∀ w role, (s.worker w).pc = .at .switchIn role 0 → (s.fiber 0).saved = true) ∧
      (∀ w role, (s.worker w).pc = .at .hold role 0 → (s.fiber 0).state = .hold) ∧
      inFlight 0 s ≤ 1 := by
  obtain ⟨s, h, -⟩ := exists_run (R := Handed 0) step
    (fun s a ↦ s.takesUnheld a && decide (Waits 0 s a))
    (fun _ _ _ hs hok ↦ ⟨hs, takesUnheld_spec (Bool.and_eq_true_iff.mp hok).1 0,
      of_decide_eq_true (Bool.and_eq_true_iff.mp hok).2⟩) two
    [.newFiber, .schedule ⟨some 0, none, -1⟩, .work false, .work false, .work false, .work false,
      .work false, .addEvent false 5 .read, .trigger () 5 .read, .yield false .hold, .work false,
      .work false, .work false, .work false, .push (), .work true, .work true, .work true,
      .work true]
    (P := fun _ ↦ true) (by decide +kernel)
  obtain ⟨hsaved, hhold, -, hone⟩ := wakeup_safe h
  exact ⟨s, h, hsaved, hhold, hone⟩

/-- The delivery comes while the fiber suspends: the other worker is about to resume it in a context
that was not saved yet, or the first one writes `HOLD` over the `EXEC` of the resumed fiber. -/
theorem wakeup_races :
    (∃ s : Two,
      Run (Guarded (Of step) (Waits 0)) two
        [.newFiber, .schedule ⟨some 0, none, -1⟩, .work false, .work false, .work false,
          .work false, .work false, .addEvent false 5 .read, .yield false .hold, .trigger () 5 .read,
          .push (), .work true, .work true, .work true, .work true] s ∧
        (s.worker true).pc = .at .switchIn .task 0 ∧ (s.fiber 0).saved = false) ∧
    ∃ s : Two,
      Run (Guarded (Of step) (Waits 0)) two
        [.newFiber, .schedule ⟨some 0, none, -1⟩, .work false, .work false, .work false,
          .work false, .work false, .addEvent false 5 .read, .yield false .hold, .work false,
          .work false, .work false, .trigger () 5 .read, .push (), .work true, .work true, .work true,
          .work true] s ∧
        (s.worker false).pc = .at .hold .task 0 ∧ (s.fiber 0).state = .exec := by
  constructor
  · obtain ⟨s, h, hP⟩ := exists_run (R := Guarded (Of step) (Waits 0)) step
      (fun s a ↦ decide (Waits 0 s a)) (fun _ _ _ hs hok ↦ ⟨hs, of_decide_eq_true hok⟩) two
      [.newFiber, .schedule ⟨some 0, none, -1⟩, .work false, .work false, .work false,
        .work false, .work false, .addEvent false 5 .read, .yield false .hold, .trigger () 5 .read,
        .push (), .work true, .work true, .work true, .work true]
      (P := fun s ↦ decide ((s.worker true).pc = .at .switchIn .task 0 ∧ (s.fiber 0).saved = false))
      (by decide +kernel)
    exact ⟨s, h, of_decide_eq_true hP⟩
  · obtain ⟨s, h, hP⟩ := exists_run (R := Guarded (Of step) (Waits 0)) step
      (fun s a ↦ decide (Waits 0 s a)) (fun _ _ _ hs hok ↦ ⟨hs, of_decide_eq_true hok⟩) two
      [.newFiber, .schedule ⟨some 0, none, -1⟩, .work false, .work false, .work false,
        .work false, .work false, .addEvent false 5 .read, .yield false .hold, .work false,
        .work false, .work false, .trigger () 5 .read, .push (), .work true, .work true, .work true,
        .work true]
      (P := fun s ↦ decide ((s.worker false).pc = .at .hold .task 0 ∧ (s.fiber 0).state = .exec))
      (by decide +kernel)
    exact ⟨s, h, of_decide_eq_true hP⟩

end Machine

end Server
