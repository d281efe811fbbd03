import ServerFramework.Scheduler.Plain
import ServerFramework.Scheduler.WakeUp

/-!
# Where a task is

A record beside the machine says which callback `run` put on which fiber.  With it every scheduled
callback is in one place until it has ended, the queue, a worker's hands or the fiber it runs on, and
a scheduled fiber that is nowhere has ended.
-/

namespace Server

open Runs Counter

namespace Machine

variable {W D O : Type} [DecidableEq W] [DecidableEq D] [DecidableEq O]

/-- The record after a step: the next step of a worker starts the callback of its entry. -/
def vehicles (s : Machine W D O) (v : FiberId → Option Callback) :
    Action W D O → FiberId → Option Callback
  | .work w =>
    match s.callbackOn w, (s.worker w).pc with
    | some c, .dispatch ft _ => Function.update v c ft.cb
    | _, _ => v
  | _ => v

/-- The callback that is still to end on a fiber. -/
def job (s : Machine W D O) (v : FiberId → Option Callback) (f : FiberId) : Option Callback :=
  if (s.fiber f).state.finished then none else v f

/-- The entry is for the callback. -/
def carries (s : Machine W D O) (v : FiberId → Option Callback) (cb : Callback)
    (ft : FiberAndThread) : Bool :=
  decide (ft.cb = some cb) || decide (ft.fiber.bind (s.job v) = some cb)

/-- How often a worker has the callback in its hands. -/
def load (s : Machine W D O) (v : FiberId → Option Callback) (cb : Callback) : Pc → Nat
  | .dispatch ft _ => if s.carries v cb ft then 1 else 0
  | .at _ _ f => if s.job v f = some cb then 1 else 0
  | _ => 0

/-- How often the callback is still to end. -/
def stored [Fintype W] (s : Machine W D O) (v : FiberId → Option Callback) (cb : Callback) : Nat :=
  s.fibers.countP (s.carries v cb) + ∑ w, s.load v cb (s.worker w).pc

/-- Whether a step schedules the callback. -/
def enters (cb : Callback) : Action W D O → Nat
  | .schedule ft => if ft.cb = some cb then 1 else 0
  | _ => 0

/-- Whether a step ends the callback, by return or exception. -/
def leaves (s : Machine W D O) (v : FiberId → Option Callback) (cb : Callback) :
    Action W D O → Nat
  | .yield w y =>
    match (s.worker w).pc with
    | .at .running _ f => if y.state.finished ∧ v f = some cb then 1 else 0
    | _ => 0
  | _ => 0

/-- Whether a step ends the fiber. -/
def ends (s : Machine W D O) (f : FiberId) : Action W D O → Nat
  | .yield w y =>
    match (s.worker w).pc with
    | .at .running _ g => if y.state.finished ∧ g = f then 1 else 0
    | _ => 0
  | _ => 0

/-! ## No task is lost -/

/-- A fiber is queued, in a worker's hands, or at its end. -/
def Placed (s : Machine W D O) (f : FiberId) : Prop :=
  s.Queued f ∨ (∃ w, (s.worker w).Holds f) ∨ (s.fiber f).state.finished = true

variable {s s' : Machine W D O} {w : W} {wk : Worker} {f : FiberId}

omit [DecidableEq D] [DecidableEq O] in
theorem Placed.worker (hworker : s'.worker = Function.update s.worker w wk) (hf : wk.Holds f) :
    s'.Placed f := by
  refine .inr (.inl ⟨w, ?_⟩)
  rw [hworker, Function.update_self]
  exact hf

omit [DecidableEq D] [DecidableEq O] in
theorem Placed.moved (h : s.Placed f) (hworker : s'.worker = Function.update s.worker w wk)
    (hq : s.Queued f → s'.Placed f) (hw : (s.worker w).Holds f → s'.Placed f)
    (hfin : (s.fiber f).state.finished = true → s'.Placed f) : s'.Placed f := by
  rcases h with h | ⟨w', h⟩ | h
  · exact hq h
  · by_cases hne : w' = w
    · exact hw (hne ▸ h)
    · refine .inr (.inl ⟨w', ?_⟩)
      rw [hworker, Function.update_of_ne hne]
      exact h
  · exact hfin h

omit [DecidableEq D] [DecidableEq O] in
theorem Placed.took (h : s.Placed f) {ft : FiberAndThread} {rest : List FiberAndThread}
    (htake : takeFirst (s.takeable (s.worker w).thread) s.fibers = some (ft, rest))
    (hq : s'.fibers = rest) (hfiber : s'.fiber = s.fiber)
    (hworker : s'.worker = Function.update s.worker w
      { s.worker w with pc := .dispatch ft true })
    (hscan : (s.worker w).pc = .scan) : s'.Placed f := by
  obtain ⟨-, a, b, hl, hl'⟩ := takeFirst_some htake
  refine h.moved hworker (fun ⟨x, hx, hxf⟩ ↦ ?_) (fun hw ↦ ?_) fun hfin ↦ ?_
  · rw [hl] at hx
    rcases List.mem_append.mp hx with hx | hx
    · exact .inl ⟨x, by rw [hq, hl']; exact List.mem_append_left _ hx, hxf⟩
    · rcases List.mem_cons.mp hx with rfl | hx
      · exact .worker hworker (.inl hxf)
      · exact .inl ⟨x, by rw [hq, hl']; exact List.mem_append_right _ hx, hxf⟩
  · exact .worker hworker (.inr (hw.kept (by rw [hscan]; rfl)))
  · exact .inr (.inr (by rw [hfiber]; exact hfin))

omit [DecidableEq D] [DecidableEq O] in
/-- A worker keeps what it has, and may write a fiber that it has. -/
theorem Placed.kept (h : s.Placed f) {g : FiberId} {fb : Fiber} (hq : s'.fibers = s.fibers)
    (hworker : s'.worker = Function.update s.worker w wk)
    (hfiber : s'.fiber = Function.update s.fiber g fb) (hg : wk.Holds g)
    (hkeep : (s.worker w).Holds f → wk.Holds f ∨ (s.fiber f).state.finished = true) :
    s'.Placed f := by
  have hend : (s.fiber f).state.finished = true → s'.Placed f := by
    intro hfin
    by_cases hf : f = g
    · exact .worker hworker (hf ▸ hg)
    · refine .inr (.inr ?_)
      rw [hfiber, Function.update_of_ne hf]
      exact hfin
  refine h.moved hworker (fun ⟨x, hx, hxf⟩ ↦ .inl ⟨x, hq ▸ hx, hxf⟩) (fun hw ↦ ?_) hend
  exact (hkeep hw).elim (.worker hworker) hend

omit [DecidableEq D] [DecidableEq O] in
theorem Placed.passed (h : s.Placed f) (hq : s'.fibers = s.fibers)
    (hworker : s'.worker = Function.update s.worker w wk) (hfiber : s'.fiber = s.fiber)
    (hkeep : (s.worker w).Holds f → wk.Holds f ∨ (s.fiber f).state.finished = true) :
    s'.Placed f := by
  have hend : (s.fiber f).state.finished = true → s'.Placed f := fun hfin ↦
    .inr (.inr (by rw [hfiber]; exact hfin))
  refine h.moved hworker (fun ⟨x, hx, hxf⟩ ↦ .inl ⟨x, hq ▸ hx, hxf⟩) (fun hw ↦ ?_) hend
  exact (hkeep hw).elim (.worker hworker) hend

omit [DecidableEq D] [DecidableEq O] in
theorem Placed.worked (h : s.Placed f) (hproper : (s.worker w).Proper)
    (hheld : ∀ role g, (s.worker w).pc ≠ .at .hold role g) (hs : Worked s w s') : s'.Placed f := by
  -- what the program counter names has ended, or is named by the next one
  have hpass : ∀ {pc : Pc}, (∀ g, (s.worker w).pc.fiber? = some g →
      pc.fiber? = some g ∨ (s.fiber g).state.finished = true) →
      (s.worker w).Holds f → ({ s.worker w with pc := pc } : Worker).Holds f ∨
        (s.fiber f).state.finished = true := by
    intro pc hpc hw
    rcases hw with hw | hw
    · exact (hpc f hw).imp_left .inl
    · exact .inl (.inr hw)
  cases hs with
  | took hpc _ htake => exact h.took htake rfl rfl rfl hpc
  | foundNone hpc => exact h.passed rfl rfl rfl (hpass fun g hg ↦ by rw [hpc] at hg; cases hg)
  | resumed hpc hf _ =>
      refine h.passed rfl rfl rfl (hpass fun g hg ↦ .inl ?_)
      rw [hpc] at hg
      exact hf.symm.trans hg
  | @reused ft isActive c hpc hfin _ hc _ =>
      refine h.kept rfl rfl rfl (.inl rfl) (hpass fun g hg ↦ .inr ?_)
      rw [hpc] at hg
      exact hfin g hg
  | made hpc hfin _ hc =>
      refine h.kept rfl rfl rfl (.inl rfl) fun hw ↦ .inr ?_
      rcases hw with hw | hw
      · rw [hpc] at hw
        exact hfin f hw
      · cases hc.symm.trans hw
  | dropped hpc hfin _ =>
      refine h.passed rfl rfl rfl (hpass fun g hg ↦ .inr ?_)
      rw [hpc] at hg
      exact hfin g hg
  | idled hpc hfin _ _ =>
      refine h.passed rfl rfl rfl (hpass fun g hg ↦ .inr ?_)
      rw [hpc] at hg
      exact hfin g hg
  | checked hpc _ =>
      exact h.passed rfl rfl rfl (hpass fun g hg ↦ .inl (by rw [hpc] at hg; exact hg))
  | marked hpc =>
      exact h.kept rfl rfl rfl (.inl rfl) (hpass fun g hg ↦ .inl (by rw [hpc] at hg; exact hg))
  | switchedIn hpc =>
      exact h.kept rfl rfl rfl (.inl rfl) (hpass fun g hg ↦ .inl (by rw [hpc] at hg; exact hg))
  | switchedOut hpc =>
      exact h.kept rfl rfl rfl (.inl rfl) (hpass fun g hg ↦ .inl (by rw [hpc] at hg; exact hg))
  | decremented hpc =>
      exact h.passed rfl rfl rfl (hpass fun g hg ↦ .inl (by rw [hpc] at hg; exact hg))
  | @examined role g hpc =>
      refine h.passed rfl rfl rfl (hpass fun g' hg ↦ ?_)
      rw [hpc] at hg
      cases hg
      unfold examined
      split
      · exact .inl rfl
      · split
        · rename_i hfin
          exact .inr hfin
        · exact .inl rfl
  | @requeued role g hpc _ =>
      have hqueued : ∀ {x}, s.Queued x → Queued ({ s with fibers := s.fibers ++
          [FiberAndThread.ofFiber (some g) (-1)] }.release w role) x := fun ⟨ft, hft, hx⟩ ↦
        ⟨ft, List.mem_append_left _ hft, hx⟩
      refine h.moved rfl (fun hq ↦ .inl (hqueued hq)) (fun hw ↦ ?_) fun hfin ↦ .inr (.inr hfin)
      by_cases hfg : f = g
      · subst hfg
        exact .inl ⟨_, List.mem_append_right _ List.mem_cons_self, rfl⟩
      · rcases hw with hw | hw
        · rw [hpc] at hw
          exact absurd (Option.some.inj hw).symm hfg
        · refine .worker rfl (.inr ?_)
          -- a callback's fiber is the `cbFiber`
          cases role with
          | task => exact hw
          | callback => exact absurd (Option.some.inj (hw.symm.trans (hproper.lent _ _ hpc))) hfg
  | held hpc => exact absurd hpc (hheld _ _)
  | @retired role g hpc _ =>
      have hcb : (s.worker w).cbFiber = some g := by
        rw [hproper.retires role g hpc] at hpc
        exact hproper.lent _ _ hpc
      refine h.kept rfl rfl rfl (.inr hcb) fun hw ↦ .inl (.inr ?_)
      rcases hw with hw | hw
      · rw [hpc] at hw
        exact hcb.trans hw
      · exact hw
  | awoke hpc => exact h.passed rfl rfl rfl (hpass fun g hg ↦ by rw [hpc] at hg; cases hg)

/-- A fiber that is somewhere is so after every step, as long as no fiber is put on hold. -/
theorem Placed.step (h : s.Placed f) (habsent : (s.fiber s.nextFiber).state = .init)
    (hproper : ∀ w, (s.worker w).Proper)
    (hheld : ∀ w role g, (s.worker w).pc ≠ .at .hold role g) {a : Action W D O}
    (hs : Of step s a s') : s'.Placed f := by
  have hqueued : ∀ ft, (∃ x ∈ s.fibers, x.fiber = some f) →
      ∃ x ∈ (scheduleNoLock s.fibers ft).2, x.fiber = some f := by
    intro ft ⟨x, hx, hxf⟩
    refine ⟨x, ?_, hxf⟩
    unfold scheduleNoLock
    dsimp only
    split
    · exact List.mem_append_left _ hx
    · exact hx
  cases step_cases hs with
  | newFiber =>
      refine h.imp_right fun h ↦ h.imp_right fun hfin ↦ ?_
      have hne : f ≠ s.nextFiber := by
        intro heq
        rw [heq, habsent] at hfin
        cases hfin
      show (Function.update s.fiber s.nextFiber .fresh f).state.finished = true
      rw [Function.update_of_ne hne]
      exact hfin
  | scheduled => exact h.imp_left (hqueued _)
  | pushed => exact h.imp_left (hqueued _)
  | @worked w _ hw => exact h.worked (hproper w) (hheld w) hw
  | yielded hpc =>
      refine h.kept rfl rfl rfl (.inl rfl) fun hw ↦ .inl (hw.imp_left fun hw ↦ ?_)
      rw [hpc] at hw
      exact hw
  | idleEnded hpc =>
      exact h.passed rfl rfl rfl fun hw ↦ .inl (.inr (hw.kept (by rw [hpc]; rfl)))
  | _ => exact h

theorem placed_step (hord : InOrder s) {a : Action W D O} (hs : Of step s a s') (h : s.Placed f) :
    s'.Placed f := by
  refine h.step (hord.live.absent _ (Nat.le_refl _)) hord.apart.proper (fun w role g hpc ↦ ?_) hs
  exact hord.live.noHold g ((hord.owned g).ok hpc).1

/-! ## The record -/

variable {v : FiberId → Option Callback}

omit [DecidableEq W] [DecidableEq D] [DecidableEq O] in
theorem vehicles_cases (s : Machine W D O) (v : FiberId → Option Callback) (w : W) :
    s.vehicles v (.work w) = v ∨ ∃ c ft isActive, s.callbackOn w = some c ∧
      (s.worker w).pc = .dispatch ft isActive ∧
      s.vehicles v (.work w) = Function.update v c ft.cb := by
  unfold vehicles
  dsimp only
  split
  · rename_i c ft isActive hon hpc
    exact .inr ⟨c, ft, isActive, hon, hpc, rfl⟩
  · exact .inl rfl

omit [DecidableEq W] [DecidableEq D] [DecidableEq O] in
/-- A callback starts with the entry of a callback, on the fiber that its worker keeps or on a new
one. -/
theorem callbackOn_cases {c : FiberId} {ft : FiberAndThread} {isActive : Bool}
    (hon : s.callbackOn w = some c) (hpc : (s.worker w).pc = .dispatch ft isActive) :
    ft.cb.isSome = true ∧ c = (s.worker w).cbFiber.getD s.nextFiber := by
  unfold callbackOn at hon
  rw [hpc] at hon
  dsimp only at hon
  split at hon
  · cases hon
  · split at hon
    · rename_i hcb
      cases hon
      exact ⟨hcb, rfl⟩
    · cases hon

omit [DecidableEq W] [DecidableEq D] [DecidableEq O] in
theorem vehicles_of_scan (hpc : ∀ ft isActive, (s.worker w).pc ≠ .dispatch ft isActive) :
    s.vehicles v (.work w) = v := by
  rcases s.vehicles_cases v w with h | ⟨c, ft, isActive, -, heq, -⟩
  · exact h
  · exact absurd heq (hpc ft isActive)

omit [DecidableEq W] [DecidableEq D] [DecidableEq O] in
theorem vehicles_of_live {ft : FiberAndThread} {isActive : Bool}
    (hpc : (s.worker w).pc = .dispatch ft isActive) (hf : ft.fiber = some f)
    (hlive : (s.fiber f).state.finished = false) : s.vehicles v (.work w) = v := by
  have hnone : s.callbackOn w = none := by
    have hfilter : (ft.fiber.filter fun f ↦ !(s.fiber f).state.finished) = some f := by
      rw [Option.filter_eq_some_iff, hlive]
      exact ⟨hf, rfl⟩
    simp only [callbackOn, hpc, hfilter]
  simp only [vehicles, hnone]

omit [DecidableEq W] [DecidableEq D] [DecidableEq O] in
theorem vehicles_of_finished {ft : FiberAndThread} {isActive : Bool}
    (hpc : (s.worker w).pc = .dispatch ft isActive)
    (hfin : ∀ f, ft.fiber = some f → (s.fiber f).state.finished = true) :
    s.vehicles v (.work w) =
      if ft.cb.isSome then Function.update v ((s.worker w).cbFiber.getD s.nextFiber) ft.cb else v := by
  have hon := callbackOn_of_finished hpc hfin
  cases hcb : ft.cb.isSome with
  | true =>
      rw [hcb, if_pos rfl] at hon
      simp only [vehicles, hon, hpc, if_true]
  | false =>
      rw [hcb, if_neg Bool.false_ne_true] at hon
      simp only [vehicles, hon, Bool.false_eq_true, if_false]

/-- Only the fibers of callbacks are kept for callbacks, and a callback's fiber is not lost. -/
structure Tracked (s : Machine W D O) (v : FiberId → Option Callback) : Prop where
  lent : ∀ w c, (s.worker w).cbFiber = some c → v c ≠ none
  placed : ∀ f, v f ≠ none → s.Placed f

omit [DecidableEq W] [DecidableEq D] [DecidableEq O] in
/-- Once a fiber has carried a callback, the record says so. -/
theorem vehicles_ne_none (a : Action W D O) (h : v f ≠ none) : s.vehicles v a f ≠ none := by
  cases a with
  | work w =>
      rcases s.vehicles_cases v w with heq | ⟨c, ft, isActive, hon, hpc, heq⟩
      · rw [heq]
        exact h
      · rw [heq]
        by_cases hf : f = c
        · rw [hf, Function.update_self]
          exact Option.isSome_iff_ne_none.mp (callbackOn_cases hon hpc).1
        · rw [Function.update_of_ne hf]
          exact h
  | _ => exact h

omit [DecidableEq W] [DecidableEq D] [DecidableEq O] in
theorem vehicles_of_not_kept (hnot : (s.worker w).cbFiber ≠ some f) (hlt : f < s.nextFiber) :
    s.vehicles v (.work w) f = v f := by
  rcases s.vehicles_cases v w with heq | ⟨c, ft, isActive, hon, hpc, heq⟩
  · rw [heq]
  · have hne : f ≠ c := by
      intro hf
      rw [(callbackOn_cases hon hpc).2] at hf
      cases hcb : (s.worker w).cbFiber with
      | none =>
          rw [hcb] at hf
          exact Nat.lt_irrefl _ (hf ▸ hlt)
      | some c =>
          rw [hcb] at hf
          exact hnot (hf ▸ hcb)
    rw [heq, Function.update_of_ne hne]

omit [DecidableEq W] [DecidableEq D] [DecidableEq O] in
/-- `run` puts callbacks on fibers of its own. -/
theorem Tracked.vehicles_none (h : Tracked s v) (a : Action W D O) (hlt : f < s.nextFiber)
    (hv : v f = none) : s.vehicles v a f = none := by
  cases a with
  | work w =>
      rw [vehicles_of_not_kept (fun hcb ↦ h.lent w f hcb hv) hlt]
      exact hv
  | _ => exact hv

omit [DecidableEq D] [DecidableEq O] in
/-- What a step of a worker does to the record: nothing, or its `cbFiber` carries a callback now. -/
theorem Worked.record (v : FiberId → Option Callback) (hs : Worked s w s') :
    s.vehicles v (.work w) = v ∧
        (∀ c, (s'.worker w).cbFiber = some c → (s.worker w).cbFiber = some c) ∨
      ∃ c, ∃ ft : FiberAndThread, (s'.worker w).cbFiber = some c ∧ ft.cb.isSome = true ∧
        s.vehicles v (.work w) = Function.update v c ft.cb := by
  have hself : ∀ wk : Worker, (Function.update s.worker w wk w) = wk := fun wk ↦
    Function.update_self ..
  have hkeep : ∀ {pc : Pc} {c}, (Function.update s.worker w { s.worker w with pc := pc } w).cbFiber =
      some c → (s.worker w).cbFiber = some c := by
    intro pc c hc
    rw [hself] at hc
    exact hc
  -- only `reset` and the constructor with a callback write the record
  cases hs with
  | resumed hpc hf hlive => exact .inl ⟨vehicles_of_live hpc hf hlive, fun c hc ↦ hkeep hc⟩
  | @reused ft isActive c hpc hfin hcb hc _ =>
      refine .inr ⟨c, ft, ?_, hcb, ?_⟩
      · show (Function.update s.worker w _ w).cbFiber = some c
        rw [hself]
        exact hc
      · rw [vehicles_of_finished hpc hfin, if_pos hcb, hc]
        rfl
  | @made ft isActive hpc hfin hcb hc =>
      refine .inr ⟨s.nextFiber, ft, ?_, hcb, ?_⟩
      · show (Function.update s.worker w _ w).cbFiber = some s.nextFiber
        rw [hself]
      · rw [vehicles_of_finished hpc hfin, if_pos hcb, hc]
        rfl
  | dropped hpc hfin hcb =>
      refine .inl ⟨?_, fun c hc ↦ hkeep hc⟩
      rw [vehicles_of_finished hpc hfin, hcb]
      rfl
  | idled hpc hfin hcb _ =>
      refine .inl ⟨?_, fun c hc ↦ hkeep hc⟩
      rw [vehicles_of_finished hpc hfin, hcb]
      rfl
  | requeued hpc _ =>
      refine .inl ⟨vehicles_of_scan (by rw [hpc]; nofun), fun c hc ↦ ?_⟩
      change (Function.update s.worker w _ w).cbFiber = some c at hc
      rw [hself] at hc
      exact release_cbFiber hc
  | held hpc =>
      refine .inl ⟨vehicles_of_scan (by rw [hpc]; nofun), fun c hc ↦ ?_⟩
      change (Function.update s.worker w _ w).cbFiber = some c at hc
      rw [hself] at hc
      exact release_cbFiber hc
  | took hpc | foundNone hpc | checked hpc | marked hpc | switchedIn hpc | switchedOut hpc
  | decremented hpc | examined hpc | retired hpc | awoke hpc =>
      exact .inl ⟨vehicles_of_scan (by rw [hpc]; nofun), fun c hc ↦ hkeep hc⟩

theorem Tracked.step (h : Tracked s v) (hord : InOrder s) {a : Action W D O} (hplain : s.Plain a)
    (hs : Of step s a s') : Tracked s' (s.vehicles v a) := by
  -- a step that leaves the record alone
  have hsame : s.vehicles v a = v → (∀ w c, (s'.worker w).cbFiber = some c →
      (s.worker w).cbFiber = some c) → Tracked s' (s.vehicles v a) := by
    intro hv hcb
    rw [hv]
    exact ⟨fun w c hc ↦ h.lent w c (hcb w c hc), fun f hf ↦ placed_step hord hs (h.placed f hf)⟩
  have hone : ∀ {w : W} {wk : Worker}, s'.worker = Function.update s.worker w wk →
      (∀ c, wk.cbFiber = some c → (s.worker w).cbFiber = some c) →
      ∀ w' c, (s'.worker w').cbFiber = some c → (s.worker w').cbFiber = some c := by
    intro w wk hworker hkeep w' c hc
    rw [hworker] at hc
    by_cases hne : w' = w
    · subst hne
      rw [Function.update_self] at hc
      exact hkeep c hc
    · rwa [Function.update_of_ne hne] at hc
  -- only a worker can give its `cbFiber` a callback
  cases step_cases hs with
  | @worked w _ hw =>
      obtain ⟨-, wk, hworker, -⟩ := hw.worker_eq
      have hother : ∀ w', w' ≠ w → s'.worker w' = s.worker w' := fun w' hne ↦ by
        rw [hworker, Function.update_of_ne hne]
      rcases hw.record v with ⟨hv, hkeep⟩ | ⟨c, ft, hc, hcb, hv⟩
      · apply hsame hv
        intro w' c hc
        by_cases hne : w' = w
        · subst hne
          exact hkeep c hc
        · rwa [hother w' hne] at hc
      · refine ⟨fun w' d hd ↦ ?_, fun f hf ↦ ?_⟩
        · by_cases hne : w' = w
          · subst hne
            cases hc.symm.trans hd
            rw [hv, Function.update_self]
            exact Option.isSome_iff_ne_none.mp hcb
          · rw [hother w' hne] at hd
            exact vehicles_ne_none _ (h.lent w' d hd)
        · by_cases hfc : f = c
          · exact .inr (.inl ⟨w, .inr (hfc ▸ hc)⟩)
          · rw [hv, Function.update_of_ne hfc] at hf
            exact placed_step hord hs (h.placed f hf)
  | yielded hpc => exact hsame rfl (hone rfl fun c hc ↦ hc)
  | idleEnded => exact hsame rfl (hone rfl fun c hc ↦ hc)
  | _ => exact hsame rfl fun w c hc ↦ hc

/-! ## The callbacks that are still to end -/

variable {v' : FiberId → Option Callback} {cb : Callback}

omit [DecidableEq W] [DecidableEq D] [DecidableEq O] in
theorem carries_congr {ft : FiberAndThread}
    (h : ∀ f, ft.fiber = some f → s'.job v' f = s.job v f) :
    s'.carries v' cb ft = s.carries v cb ft := by
  unfold carries
  cases hf : ft.fiber with
  | none => rfl
  | some f =>
      rw [Option.bind_some, Option.bind_some, h f hf]

omit [DecidableEq W] [DecidableEq D] [DecidableEq O] in
theorem load_congr {pc : Pc} (h : ∀ f, pc.fiber? = some f → s'.job v' f = s.job v f) :
    s'.load v' cb pc = s.load v cb pc := by
  cases pc with
  | dispatch ft isActive =>
      unfold load
      dsimp only
      rw [carries_congr h]
  | «at» stage role f =>
      unfold load
      dsimp only
      rw [h f rfl]
  | _ => rfl

omit [DecidableEq W] [DecidableEq D] [DecidableEq O] in
theorem carries_callback (c : Callback) :
    s.carries v cb (Task.callback c).entry = true ↔ c = cb := by
  show (decide (some c = some cb) || decide (none = some cb)) = true ↔ c = cb
  simp

omit [DecidableEq W] [DecidableEq D] [DecidableEq O] in
theorem carries_fiber (f : FiberId) :
    s.carries v cb (Task.fiber f).entry = true ↔ s.job v f = some cb := by
  show (decide (none = some cb) || decide (s.job v f = some cb)) = true ↔ s.job v f = some cb
  simp

variable [Fintype W]

omit [DecidableEq D] [DecidableEq O] in
theorem stored_moved (v v' : FiberId → Option Callback) (cb : Callback) (wk : Worker)
    (hord : InOrder s) (hq : s'.fibers = s.fibers)
    (hworker : s'.worker = Function.update s.worker w wk)
    (hjob : ∀ f, ¬ (s.worker w).Holds f → f < s.nextFiber → s'.job v' f = s.job v f) :
    s'.stored v' cb + s.load v cb (s.worker w).pc = s.stored v cb + s'.load v' cb wk.pc := by
  have hqueue : s'.fibers.countP (s'.carries v' cb) = s.fibers.countP (s.carries v cb) := by
    rw [hq]
    apply List.countP_congr
    intro ft hft
    rw [carries_congr fun f hf ↦ hjob f (hord.apart.away f ⟨ft, hft, hf⟩ w)
      (known_iff.mp (hord.known.queued ft hft) f hf)]
  -- the other workers hold other fibers
  have hsum := sum_change (f := fun x ↦ s'.load v' cb (s'.worker x).pc)
    (g := fun x ↦ s.load v cb (s.worker x).pc) w fun x hx ↦ by
      rw [hworker, Function.update_of_ne hx]
      refine load_congr fun f hf ↦ hjob f (fun hw ↦ hx ?_) (hord.known.held x f (.inl hf))
      exact (hord.owned f).unique x w (.inl hf) hw
  have hself : (s'.worker w).pc = wk.pc := by rw [hworker, Function.update_self]
  rw [hself] at hsum
  unfold stored
  omega

omit [DecidableEq D] [DecidableEq O] in
theorem stored_took {ft : FiberAndThread} {rest : List FiberAndThread}
    (hscan : (s.worker w).pc = .scan)
    (htake : takeFirst (s.takeable (s.worker w).thread) s.fibers = some (ft, rest))
    (hq : s'.fibers = rest) (hfiber : s'.fiber = s.fiber)
    (hworker : s'.worker = Function.update s.worker w
      { s.worker w with pc := .dispatch ft true }) : s'.stored v cb = s.stored v cb := by
  obtain ⟨-, a, b, hl, hl'⟩ := takeFirst_some htake
  have hjob : ∀ f, s'.job v f = s.job v f := by
    unfold job
    rw [hfiber]
    exact fun _ ↦ rfl
  have hcarries : s'.carries v cb = s.carries v cb := funext fun x ↦ carries_congr fun f _ ↦ hjob f
  -- what the queue loses the worker has
  have hqueue : s.fibers.countP (s.carries v cb) =
      s'.fibers.countP (s'.carries v cb) + s.load v cb (.dispatch ft true) := by
    rw [hq, hl, hl', hcarries, List.countP_append, List.countP_append, List.countP_cons]
    unfold load
    dsimp only
    omega
  have hsum := sum_change (f := fun x ↦ s'.load v cb (s'.worker x).pc)
    (g := fun x ↦ s.load v cb (s.worker x).pc) w fun x hx ↦ by
      rw [hworker, Function.update_of_ne hx]
      exact load_congr fun f _ ↦ hjob f
  have hself : s'.load v cb (s'.worker w).pc = s.load v cb (.dispatch ft true) := by
    rw [hworker, Function.update_self]
    exact load_congr fun f _ ↦ hjob f
  have hzero : s.load v cb (s.worker w).pc = 0 := by
    rw [hscan]
    rfl
  unfold stored
  omega

omit [DecidableEq D] [DecidableEq O] in
theorem stored_stage (hord : InOrder s) {st : Stage} {role : Role} {g : FiberId} {fb : Fiber}
    (hpc : (s.worker w).pc = .at st role g) (hq : s'.fibers = s.fibers)
    (hworker : s'.worker = Function.update s.worker w wk)
    (hfiber : s'.fiber = Function.update s.fiber g fb)
    (hload : s'.load v cb wk.pc = if s.job v g = some cb then 1 else 0) :
    s'.stored v cb = s.stored v cb := by
  have hmoved := stored_moved v v cb wk hord hq hworker fun f hnot _ ↦ by
    have hne : f ≠ g := fun heq ↦ hnot (heq ▸ Worker.holds_of_at hpc)
    unfold job
    rw [hfiber, Function.update_of_ne hne]
  have hold : s.load v cb (s.worker w).pc = if s.job v g = some cb then 1 else 0 := by
    rw [hpc]
    rfl
  rw [hload, hold] at hmoved
  exact Nat.add_right_cancel hmoved

omit [DecidableEq W] [DecidableEq D] [DecidableEq O] [Fintype W] in
/-- The job of a fiber does not depend on its context, or on a state that is not its end. -/
theorem job_update {g : FiberId} {fb : Fiber} (hfiber : s'.fiber = Function.update s.fiber g fb)
    (hstate : fb.state.finished = (s.fiber g).state.finished) : s'.job v g = s.job v g := by
  unfold job
  rw [hfiber, Function.update_self, hstate]

omit [DecidableEq D] [DecidableEq O] in
theorem stored_empty (hord : InOrder s) (hq : s'.fibers = s.fibers) (hfiber : s'.fiber = s.fiber)
    (hworker : s'.worker = Function.update s.worker w wk)
    (hold : s.load v cb (s.worker w).pc = 0) (hnew : s'.load v cb wk.pc = 0) :
    s'.stored v cb = s.stored v cb := by
  have hmoved := stored_moved v v cb wk hord hq hworker fun f _ _ ↦ by
    unfold job
    rw [hfiber]
  rw [hold, hnew] at hmoved
  exact hmoved

omit [DecidableEq W] [DecidableEq D] [DecidableEq O] [Fintype W] in
/-- An entry whose fiber has ended, without a callback, is nothing to do. -/
theorem load_dispatch {ft : FiberAndThread} {isActive : Bool}
    (hfin : ∀ f, ft.fiber = some f → (s.fiber f).state.finished = true) (hcb : ft.cb.isSome = false) :
    s.load v cb (.dispatch ft isActive) = 0 := by
  have hjob : ft.fiber.bind (s.job v) = none := by
    cases hf : ft.fiber with
    | none => rfl
    | some f =>
        rw [Option.bind_some]
        unfold job
        rw [hfin f hf, if_pos rfl]
  have hnone : ft.cb = none := Option.isSome_eq_false_iff.mp hcb |> Option.isNone_iff_eq_none.mp
  unfold load carries
  dsimp only
  rw [hjob, hnone]
  rfl

omit [DecidableEq D] [DecidableEq O] in
/-- An entry with a callback puts it on a fiber, which no other worker has. -/
theorem stored_started (hord : InOrder s) {ft : FiberAndThread} {isActive : Bool} {c : FiberId}
    (hpc : (s.worker w).pc = .dispatch ft isActive) (hcb : ft.cb.isSome = true)
    (hq : s'.fibers = s.fibers) (hworker : s'.worker = Function.update s.worker w wk)
    (hwk : wk.pc = .at .check .callback c) (hfiber : s'.fiber = Function.update s.fiber c .fresh)
    (hv : v' = Function.update v c ft.cb)
    (hc : (s.worker w).Holds c ∨ s.nextFiber ≤ c) : s'.stored v' cb = s.stored v cb := by
  have hmoved := stored_moved v v' cb wk hord hq hworker fun f hnot hlt ↦ by
    have hne : f ≠ c := by
      intro heq
      rcases hc with hc | hc
      · exact hnot (heq ▸ hc)
      · exact Nat.lt_irrefl f (Nat.lt_of_lt_of_le hlt (heq ▸ hc))
    unfold job
    rw [hfiber, hv, Function.update_of_ne hne, Function.update_of_ne hne]
  obtain ⟨t, rfl⟩ := (hord.apart.proper w).entry hpc fun heq ↦ by
    rw [heq] at hcb
    cases hcb
  cases t with
  | fiber => cases hcb
  | callback c' =>
      have hold : s.load v cb (s.worker w).pc = if c' = cb then 1 else 0 := by
        rw [hpc]
        unfold load
        dsimp only
        simp only [carries_callback]
      have hnew : s'.load v' cb wk.pc = if c' = cb then 1 else 0 := by
        have hjob : s'.job v' c = some c' := by
          unfold job
          rw [hfiber, hv, Function.update_self, Function.update_self]
          rfl
        rw [hwk]
        unfold load
        dsimp only
        rw [hjob]
        simp only [Option.some_inj]
      rw [hold, hnew] at hmoved
      exact Nat.add_right_cancel hmoved

omit [DecidableEq D] [DecidableEq O] in
/-- The callback of a fiber that goes on comes with its entry. -/
theorem stored_resumed (hord : InOrder s) {ft : FiberAndThread} {isActive : Bool}
    (hpc : (s.worker w).pc = .dispatch ft isActive) (hf : ft.fiber = some f) :
    (s.setPc w (.at .check .task f)).stored v cb = s.stored v cb := by
  have hentry : ft = (Task.fiber f).entry := by
    obtain ⟨t, rfl⟩ := (hord.apart.proper w).entry hpc fun heq ↦ by
      rw [heq] at hf
      cases hf
    cases t with
    | fiber g =>
        cases hf
        rfl
    | callback => cases hf
  have hmoved : (s.setPc w (.at .check .task f)).stored v cb + s.load v cb (s.worker w).pc =
      s.stored v cb + if s.job v f = some cb then 1 else 0 :=
    stored_moved v v cb { s.worker w with pc := .at .check .task f } hord rfl rfl fun _ _ _ ↦ rfl
  have hload : s.load v cb (s.worker w).pc = if s.job v f = some cb then 1 else 0 := by
    rw [hpc, hentry]
    unfold load
    dsimp only
    simp only [carries_fiber]
  rw [hload] at hmoved
  exact Nat.add_right_cancel hmoved

omit [DecidableEq W] [DecidableEq D] [DecidableEq O] in
theorem stored_append (s : Machine W D O) (v : FiberId → Option Callback) (cb : Callback)
    (ft : FiberAndThread) :
    Machine.stored { s with fibers := s.fibers ++ [ft] } v cb =
      s.stored v cb + if s.carries v cb ft = true then 1 else 0 := by
  unfold stored
  show (s.fibers ++ [ft]).countP (s.carries v cb) + ∑ w, s.load v cb (s.worker w).pc = _
  rw [List.countP_append, List.countP_singleton]
  omega

omit [DecidableEq D] [DecidableEq O] in
theorem stored_requeued (hord : InOrder s) {role : Role}
    (hpc : (s.worker w).pc = .at .requeue role f) :
    ({ s with fibers := s.fibers ++ [(Task.fiber f).entry] }.release w role).stored v cb =
      s.stored v cb := by
  have hload : s.load v cb (s.worker w).pc = if s.job v f = some cb then 1 else 0 := by
    rw [hpc]
    rfl
  have hmoved : (s.release w role).stored v cb + s.load v cb (s.worker w).pc = s.stored v cb + 0 :=
    stored_moved v v cb
      { s.worker w with
        pc := .scan
        cbFiber := if role = .callback then none else (s.worker w).cbFiber } hord rfl rfl
      fun _ _ _ ↦ rfl
  have hqueue := (s.release w role).stored_append v cb (Task.fiber f).entry
  have hcarries : (s.release w role).carries v cb (Task.fiber f).entry = true ↔ s.job v f = some cb :=
    carries_fiber f
  simp only [hcarries] at hqueue
  rw [hload] at hmoved
  exact hqueue.trans hmoved

omit [DecidableEq W] [DecidableEq D] [DecidableEq O] [Fintype W] in
theorem job_of_finished (hfin : (s.fiber f).state.finished = true) :
    (if s.job v f = some cb then 1 else 0) = 0 := by
  unfold job
  rw [hfin, if_pos rfl, if_neg nofun]

omit [DecidableEq W] [DecidableEq D] [DecidableEq O] [Fintype W] in
theorem load_examined {role : Role} :
    s.load v cb (s.examined role f) = if s.job v f = some cb then 1 else 0 := by
  unfold examined
  split
  · rfl
  · split
    · rename_i hfin
      cases role with
      | task => exact (job_of_finished hfin).symm
      | callback => rfl
    · rfl

omit [DecidableEq D] [DecidableEq O] in
/-- A worker only moves callbacks. -/
theorem stored_worked (hord : InOrder s) (hs : Worked s w s') :
    s'.stored (s.vehicles v (.work w)) cb = s.stored v cb := by
  have hsame : ∀ g, s.fiber = Function.update s.fiber g (s.fiber g) :=
    fun g ↦ (Function.update_eq_self g s.fiber).symm
  -- a step that leaves the record and the stage's fiber as they are
  have honward : ∀ {st st' role g fb}, (s.worker w).pc = .at st role g → s'.fibers = s.fibers →
      s'.worker = Function.update s.worker w { s.worker w with pc := .at st' role g } →
      s'.fiber = Function.update s.fiber g fb →
      fb.state.finished = (s.fiber g).state.finished →
      s'.stored (s.vehicles v (.work w)) cb = s.stored v cb := by
    intro st st' role g fb hpc hq hworker hfiber hstate
    rw [vehicles_of_scan (by rw [hpc]; nofun)]
    refine stored_stage hord hpc hq hworker hfiber ?_
    show (if s'.job v g = some cb then 1 else 0) = _
    rw [job_update hfiber hstate]
  cases hs with
  | took hpc _ htake =>
      rw [vehicles_of_scan (by rw [hpc]; nofun)]
      exact stored_took hpc htake rfl rfl rfl
  | foundNone hpc =>
      rw [vehicles_of_scan (by rw [hpc]; nofun)]
      exact stored_empty hord rfl rfl rfl (by rw [hpc]; rfl) (load_dispatch nofun rfl)
  | @resumed ft isActive f hpc hf hlive =>
      rw [vehicles_of_live hpc hf hlive]
      exact stored_resumed hord hpc hf
  | @reused ft isActive c hpc hfin hcb hc _ =>
      have hv : s.vehicles v (.work w) = Function.update v c ft.cb := by
        rw [vehicles_of_finished hpc hfin, if_pos hcb, hc]
        rfl
      exact stored_started hord hpc hcb rfl rfl rfl rfl hv (.inl (.inr hc))
  | @made ft isActive hpc hfin hcb hc =>
      have hv : s.vehicles v (.work w) = Function.update v s.nextFiber ft.cb := by
        rw [vehicles_of_finished hpc hfin, if_pos hcb, hc]
        rfl
      exact stored_started hord hpc hcb rfl rfl rfl rfl hv (.inr (Nat.le_refl _))
  | dropped hpc hfin hcb =>
      rw [vehicles_of_finished hpc hfin, hcb]
      exact stored_empty hord rfl rfl rfl (by rw [hpc]; exact load_dispatch hfin hcb) rfl
  | idled hpc hfin hcb hpc' =>
      rw [vehicles_of_finished hpc hfin, hcb]
      refine stored_empty hord rfl rfl rfl (by rw [hpc]; exact load_dispatch hfin hcb) ?_
      rcases hpc' with rfl | rfl
      · rfl
      · rfl
  | checked hpc _ => exact honward hpc rfl rfl (hsame _) rfl
  | marked hpc =>
      exact honward hpc rfl rfl rfl (hord.live.starts w _ _ _ hpc rfl).symm
  | switchedIn hpc => exact honward hpc rfl rfl rfl rfl
  | switchedOut hpc => exact honward hpc rfl rfl rfl rfl
  | decremented hpc => exact honward hpc rfl rfl (hsame _) rfl
  | @examined role g hpc =>
      rw [vehicles_of_scan (by rw [hpc]; nofun)]
      exact stored_stage hord hpc rfl rfl (hsame g) load_examined
  | @requeued role g hpc _ =>
      rw [vehicles_of_scan (by rw [hpc]; nofun)]
      exact stored_requeued hord hpc
  | @held role g hpc => exact absurd ((hord.owned g).ok hpc).1 (hord.live.noHold g)
  | @retired role g hpc _ =>
      rw [vehicles_of_scan (by rw [hpc]; nofun)]
      exact stored_stage hord hpc rfl rfl rfl (job_of_finished ((hord.owned g).ok hpc).1).symm
  | awoke hpc =>
      rw [vehicles_of_scan (by rw [hpc]; nofun)]
      exact stored_empty hord rfl rfl rfl (by rw [hpc]; rfl) rfl

omit [DecidableEq W] [DecidableEq D] [DecidableEq O] [Fintype W] in
theorem scheduled_fibers (t : Task) : (scheduleNoLock s.fibers t.entry).2 = s.fibers ++ [t.entry] := by
  unfold scheduleNoLock
  rw [if_pos t.entry_nonempty]

omit [Fintype W] in
theorem queued_of_schedule (hs : s.step (.schedule (Task.fiber f).entry) = some s') :
    s'.Queued f ∧ f < s'.nextFiber := by
  cases step_cases hs with
  | scheduled _ hknown =>
      refine ⟨⟨(Task.fiber f).entry, ?_, rfl⟩, known_iff.mp hknown f rfl⟩
      rw [scheduled_fibers]
      exact List.mem_append_right _ List.mem_cons_self

omit [DecidableEq W] [DecidableEq D] [DecidableEq O] in
/-- Nobody names a fiber before it is made. -/
theorem stored_newFiber (hord : InOrder s) (hq : s'.fibers = s.fibers)
    (hworker : s'.worker = s.worker) (hfiber : ∀ f, f < s.nextFiber → s'.fiber f = s.fiber f) :
    s'.stored v cb = s.stored v cb := by
  have hjob : ∀ f, f < s.nextFiber → s'.job v f = s.job v f := by
    intro f hf
    unfold job
    rw [hfiber f hf]
  unfold stored
  rw [hq, hworker]
  congr 1
  · apply List.countP_congr
    intro ft hft
    rw [carries_congr fun f hf ↦ hjob f (known_iff.mp (hord.known.queued ft hft) f hf)]
  · apply Finset.sum_congr rfl
    intro w _
    exact load_congr fun f hf ↦ hjob f (hord.known.held w f (.inl hf))

omit [DecidableEq W] [DecidableEq D] [DecidableEq O] [Fintype W] in
/-- An entry that a user may schedule is for the callback only if it is its own. -/
theorem carries_scheduled (htracked : Tracked s v) {t : Task}
    (hnew : ∀ f, t = .fiber f → ¬ s.Queued f ∧ ∀ w, ¬ (s.worker w).Holds f) :
    (if s.carries v cb t.entry = true then 1 else 0) =
      enters cb (.schedule t.entry : Action W D O) := by
  cases t with
  | callback c =>
      simp only [carries_callback]
      show _ = if some c = some cb then 1 else 0
      simp only [Option.some_inj]
  | fiber f =>
      simp only [carries_fiber]
      obtain ⟨hqueued, hheld⟩ := hnew f rfl
      by_cases hv : v f = none
      · unfold job
        rw [hv, ite_self, if_neg nofun]
        rfl
      · -- a fiber that a callback ran on has ended when it is scheduled
        rcases htracked.placed f hv with h | ⟨w, h⟩ | h
        · exact absurd h hqueued
        · exact absurd h (hheld w)
        · exact job_of_finished h

omit [DecidableEq D] [DecidableEq O] in
/-- The callback of a fiber that ends is no longer stored. -/
theorem stored_yielded (hord : InOrder s) {y : Yield} {role : Role}
    (hpc : (s.worker w).pc = .at .running role f) :
    ((s.setState f y.state).setPc w (.at .leaving role f)).stored v cb +
      leaves s v cb (.yield w y : Action W D O) = s.stored v cb := by
  -- before the switch the fiber executes, so it carries its callback
  have hexec : s.job v f = v f := by
    have hstate : (s.fiber f).state = .exec := (hord.owned f).ok hpc
    unfold job
    rw [hstate]
    rfl
  have hmoved : ((s.setState f y.state).setPc w (.at .leaving role f)).stored v cb +
      s.load v cb (s.worker w).pc = s.stored v cb +
        ((s.setState f y.state).setPc w (.at .leaving role f)).load v cb (.at .leaving role f) := by
    refine stored_moved v v cb { s.worker w with pc := .at .leaving role f } hord rfl rfl
      fun g hnot _ ↦ ?_
    have hne : g ≠ f := fun heq ↦ hnot (heq ▸ Worker.holds_of_at hpc)
    unfold job
    show (if (Function.update s.fiber f _ g).state.finished then _ else _) = _
    rw [Function.update_of_ne hne]
  have hold : s.load v cb (s.worker w).pc = if v f = some cb then 1 else 0 := by
    rw [hpc]
    show (if s.job v f = some cb then 1 else 0) = _
    rw [hexec]
  have hnew : ((s.setState f y.state).setPc w (.at .leaving role f)).load v cb
      (.at .leaving role f) = if y.state.finished then 0 else if v f = some cb then 1 else 0 := by
    show (if (if (Function.update s.fiber f { s.fiber f with state := y.state } f).state.finished
      then none else v f) = some cb then 1 else 0) = _
    rw [Function.update_self]
    cases y.state.finished <;> rfl
  have hleaves : leaves s v cb (.yield w y : Action W D O) =
      if y.state.finished ∧ v f = some cb then 1 else 0 := by
    unfold leaves
    dsimp only
    rw [hpc]
  rw [hold, hnew] at hmoved
  rw [hleaves]
  cases hfin : y.state.finished with
  | true =>
      rw [hfin, if_pos rfl] at hmoved
      simp only [true_and]
      exact hmoved
  | false =>
      rw [hfin, if_neg Bool.false_ne_true] at hmoved
      simp only [Bool.false_eq_true, false_and, if_false]
      exact Nat.add_right_cancel hmoved

/-- A callback comes in when it is scheduled and goes out when it ends. -/
theorem stored_step (hord : InOrder s) (htracked : Tracked s v) {a : Action W D O}
    (hplain : s.Plain a) (hs : Of step s a s') :
    s.stored v cb + enters cb a = s'.stored (s.vehicles v a) cb + leaves s v cb a := by
  cases step_cases hs with
  | newFiber =>
      have hstored : ({ s with nextFiber := s.nextFiber + 1 }.setFiber s.nextFiber .fresh).stored v cb =
          s.stored v cb :=
        stored_newFiber hord rfl rfl fun f hf ↦ Function.update_of_ne (Nat.ne_of_lt hf) _ _
      exact hstored.symm
  | scheduled hm hft =>
      obtain ⟨t, rfl, hnew⟩ := hplain
      rw [← carries_scheduled htracked hnew, scheduled_fibers]
      exact (s.stored_append v cb t.entry).symm
  | worked hw =>
      rw [stored_worked hord hw]
      rfl
  | yielded hpc => exact (stored_yielded hord hpc).symm
  | @idleEnded w hpc =>
      have hstored : (s.setWorker w { s.worker w with pc := .scan, idleDone := true }).stored v cb =
          s.stored v cb := stored_empty hord rfl rfl rfl (by rw [hpc]; rfl) rfl
      exact hstored.symm
  | eventAdded | callbackAdded | deleted | triggered | pushed | uncounted => exact hplain.elim
  | _ => rfl

omit [Fintype W] in
/-- A fiber that carries no callback changes to its end only as it ends. -/
theorem ends_step (hord : InOrder s) (htracked : Tracked s v) {a : Action W D O}
    (hplain : s.Plain a) (hs : Of step s a s') (hv : s.vehicles v a f = none) :
    (s.fiber f).state.finished.toNat + ends s f a = (s'.fiber f).state.finished.toNat := by
  have hvf : v f = none := by
    by_contra hne
    exact vehicles_ne_none a hne hv
  -- a write that is not an end
  have hwrite : ∀ {g : FiberId} {fb : Fiber}, s'.fiber = Function.update s.fiber g fb →
      (g = f → fb.state.finished = (s.fiber g).state.finished) →
      (s.fiber f).state.finished.toNat + 0 = (s'.fiber f).state.finished.toNat := by
    intro g fb hfiber hstate
    by_cases hf : f = g
    · rw [hfiber, hf, Function.update_self, hstate hf.symm]
      rfl
    · rw [hfiber, Function.update_of_ne hf]
      rfl
  cases step_cases hs with
  | newFiber =>
      refine hwrite rfl fun heq ↦ ?_
      rw [hord.live.absent _ (Nat.le_refl _)]
      rfl
  | @worked w _ hw =>
      have hproper := hord.apart.proper w
      cases hw with
      | @reused ft isActive c hpc hfin hcb hc _ =>
          refine hwrite rfl fun heq ↦ absurd hvf ?_
          exact heq ▸ htracked.lent w c hc
      | @made ft isActive hpc hfin hcb hc =>
          refine hwrite rfl fun heq ↦ ?_
          rw [hord.live.absent _ (Nat.le_refl _)]
          rfl
      | @marked role g hpc =>
          exact hwrite rfl fun _ ↦ (hord.live.starts w _ _ _ hpc rfl).symm
      | switchedIn => exact hwrite rfl fun _ ↦ rfl
      | switchedOut => exact hwrite rfl fun _ ↦ rfl
      | @held role g hpc => exact absurd ((hord.owned g).ok hpc).1 (hord.live.noHold g)
      | @retired role g hpc _ =>
          -- what is kept for the next callback carried one
          refine hwrite rfl fun heq ↦ absurd hvf ?_
          rw [hproper.retires role g hpc] at hpc
          exact heq ▸ htracked.lent w g (hproper.lent _ _ hpc)
      | _ => rfl
  | @yielded w y role g hpc =>
      have hends : ends s f (.yield w y : Action W D O) = if y.state.finished ∧ g = f then 1 else 0 := by
        unfold ends
        dsimp only
        rw [hpc]
      rw [hends]
      show _ = (Function.update s.fiber g { s.fiber g with state := y.state } f).state.finished.toNat
      by_cases hf : f = g
      · have hexec : (s.fiber f).state = .exec := hf ▸ (hord.owned g).ok hpc
        rw [hexec, hf, Function.update_self]
        simp only [and_true]
        cases y.state.finished <;> rfl
      · rw [Function.update_of_ne hf, if_neg fun h ↦ hf h.2.symm]
        rfl
  | eventAdded | callbackAdded | deleted | triggered | pushed | uncounted => exact hplain.elim
  | _ => rfl

end Machine

end Server
