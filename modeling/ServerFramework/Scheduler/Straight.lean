import ServerFramework.Scheduler.Drain

/-!
# Tasks that run in one piece

The machine where every task finishes or throws and none yields before.  The users may schedule one
fiber several times, so a fiber can be in the queue more than once, and in more than one worker's
hands.  As long as no worker goes into `swapIn` with a fiber that another one is in `swapIn` with or
executes, every assertion of `run`, `swapIn`, `reset` and `~Fiber` holds.
-/

namespace Server

open Runs

/-- The fiber that a worker is in `swapIn` with, executes, or has executed last. -/
def Pc.at? : Pc → Option FiberId
  | .at _ _ f => some f
  | _ => none

/-- The fiber in the entry that a worker took. -/
def Pc.taken? : Pc → Option FiberId
  | .dispatch ft _ => ft.fiber
  | _ => none

/-- What a worker finds at each stage. -/
def Stage.Finds (stage : Stage) (st : FiberState) : Prop :=
  match stage with
  | .check => st = .init
  | .mark => st = .init
  | .switchIn => st = .exec
  | .running => st = .exec
  | .requeue => False
  | .hold => False
  | _ => st.finished = true

/-- The users made the fiber of the task. -/
def Task.By (made : List FiberId) : Task → Prop
  | .fiber f => f ∈ made
  | .callback _ => True

instance (made : List FiberId) (t : Task) : Decidable (t.By made) :=
  match t with
  | .fiber _ => inferInstanceAs (Decidable (_ ∈ _))
  | .callback _ => inferInstanceAs (Decidable True)

theorem Pc.at?_eq_some {pc : Pc} {f : FiberId} :
    pc.at? = some f ↔ ∃ stage role, pc = .at stage role f := by
  constructor
  · intro h
    cases pc with
    | «at» stage role g =>
        cases h
        exact ⟨stage, role, rfl⟩
    | _ => cases h
  · rintro ⟨stage, role, rfl⟩
    rfl

theorem Pc.fiber?_of_at? {pc : Pc} {f : FiberId} (h : pc.at? = some f) : pc.fiber? = some f := by
  obtain ⟨stage, role, rfl⟩ := at?_eq_some.mp h
  rfl

/-- A worker with its fibers: the users' are not kept for callbacks. -/
structure Worker.Straight (made : List FiberId) (fiber : FiberId → Fiber) (next : FiberId)
    (wk : Worker) : Prop where
  proper : wk.Proper
  theirs : ∀ f, wk.pc.fiber? = some f → f ∈ made ∨ ∃ stage, wk.pc = .at stage .callback f
  finds : ∀ stage role f, wk.pc = .at stage role f → stage.Finds (fiber f).state
  kept : ∀ c, wk.cbFiber = some c →
    c ∉ made ∧ c < next ∧ ((fiber c).state = .exec → wk.pc.at? = some c)

variable {made : List FiberId} {fiber fiber' : FiberId → Fiber} {next : FiberId} {wk : Worker}

theorem Worker.Straight.stage (h : wk.Straight made fiber next) {st st' : Stage} {role : Role}
    {f : FiberId} (hpc : wk.pc = .at st role f) (hfiber : ∀ g, g ≠ f → fiber' g = fiber g)
    (hfinds : st'.Finds (fiber' f).state) (hretire : st' = .retire → role = .callback) :
    ({ wk with pc := .at st' role f } : Worker).Straight made fiber' next where
  proper := h.proper.stage hpc hretire
  theirs := fun g hg ↦ by
    cases hg
    refine (h.theirs f (by rw [hpc]; rfl)).imp_right fun ⟨stage, heq⟩ ↦ ⟨st', ?_⟩
    rw [hpc] at heq
    cases heq
    rfl
  finds := fun stage role' g heq ↦ by
    cases heq
    exact hfinds
  kept := fun c hc ↦ by
    obtain ⟨hmade, hlt, hexec⟩ := h.kept c hc
    refine ⟨hmade, hlt, fun hstate ↦ ?_⟩
    by_cases hcf : c = f
    · rw [hcf]
      rfl
    · -- the fiber it keeps is another one, which it would be executing
      rw [hfiber c hcf] at hstate
      have hat := hexec hstate
      rw [hpc] at hat
      exact absurd (Option.some.inj hat).symm hcf

theorem Worker.Straight.free (h : wk.Straight made fiber next) {pc : Pc} {idleDone : Bool}
    (hpc : pc = .scan ∨ pc = .idle ∨ pc = .exited)
    (hkept : ∀ c, wk.cbFiber = some c → (fiber' c).state ≠ .exec) :
    ({ wk with pc := pc, idleDone := idleDone } : Worker).Straight made fiber' next where
  proper := .free hpc
  theirs := fun f hf ↦ by
    rcases hpc with rfl | rfl | rfl
    · cases hf
    · cases hf
    · cases hf
  finds := fun stage role f heq ↦ by
    rcases hpc with rfl | rfl | rfl
    · cases heq
    · cases heq
    · cases heq
  kept := fun c hc ↦ ⟨(h.kept c hc).1, (h.kept c hc).2.1, fun hstate ↦ absurd hstate (hkept c hc)⟩

theorem Worker.Straight.dispatch (h : wk.Straight made fiber next) (hat : wk.pc.at? = none)
    {ft : FiberAndThread} {isActive : Bool}
    (htask : isActive = true → ∃ t : Task, ft = t.entry ∧ t.By made)
    (hnone : isActive = false → ft = ⟨none, none, -1⟩) :
    ({ wk with pc := .dispatch ft isActive } : Worker).Straight made fiber next := by
  have htheirs : ∀ f, ft.fiber = some f → f ∈ made := by
    intro f hf
    cases isActive with
    | true =>
        obtain ⟨t, rfl, hby⟩ := htask rfl
        cases t with
        | fiber g =>
            cases hf
            exact hby
        | callback => cases hf
    | false =>
        rw [hnone rfl] at hf
        cases hf
  refine ⟨⟨fun ft' a heq ha ↦ ?_, fun ft' a heq ha ↦ ?_, fun f hcb hf ↦ ?_, nofun, nofun⟩,
    fun f hf ↦ .inl (htheirs f hf), nofun, fun c hc ↦ ?_⟩
  · cases heq
    obtain ⟨t, ht, -⟩ := htask ha
    exact ⟨t, ht⟩
  · cases heq
    exact hnone ha
  · exact absurd (htheirs f hf) (h.kept f hcb).1
  · obtain ⟨hmade, hlt, hexec⟩ := h.kept c hc
    refine ⟨hmade, hlt, fun hstate ↦ ?_⟩
    rw [hexec hstate] at hat
    cases hat

theorem Worker.Straight.task (h : wk.Straight made fiber next) (hat : wk.pc.at? = none) {f : FiberId}
    (hf : f ∈ made) (hinit : (fiber f).state = .init) :
    ({ wk with pc := .at .check .task f } : Worker).Straight made fiber next where
  proper := by
    refine ⟨nofun, nofun, fun g hcb hg ↦ ?_, nofun, nofun⟩
    cases hg
    exact absurd hf (h.kept f hcb).1
  theirs := fun g hg ↦ by
    cases hg
    exact .inl hf
  finds := fun stage role g heq ↦ by
    cases heq
    exact hinit
  kept := fun c hc ↦ by
    obtain ⟨hmade, hlt, hexec⟩ := h.kept c hc
    refine ⟨hmade, hlt, fun hstate ↦ ?_⟩
    rw [hexec hstate] at hat
    cases hat

theorem Worker.Straight.callback {c : FiberId} (hpc : wk.pc = .at .check .callback c)
    (hc : wk.cbFiber = some c) (hmade : c ∉ made) (hlt : c < next)
    (hinit : (fiber c).state = .init) : wk.Straight made fiber next where
  proper := by
    refine ⟨fun ft a heq ↦ ?_, fun ft a heq ↦ ?_, fun f hcb _ ↦ ?_, fun stage f heq ↦ ?_,
      fun role f heq ↦ ?_⟩
    · rw [hpc] at heq
      cases heq
    · rw [hpc] at heq
      cases heq
    · rw [hc] at hcb
      cases hcb
      exact ⟨.check, hpc⟩
    · rw [hpc] at heq
      cases heq
      exact hc
    · rw [hpc] at heq
      cases heq
  theirs := fun f hf ↦ by
    rw [hpc] at hf
    cases hf
    exact .inr ⟨.check, hpc⟩
  finds := fun stage role f heq ↦ by
    rw [hpc] at heq
    cases heq
    exact hinit
  kept := fun c' hc' ↦ by
    rw [hc] at hc'
    cases hc'
    refine ⟨hmade, hlt, fun _ ↦ ?_⟩
    rw [hpc]
    rfl

namespace Machine

variable {W D O : Type} [DecidableEq W] [DecidableEq D] [DecidableEq O]

/-- The next step of the worker goes into `swapIn` with a fiber that another worker is in `swapIn` with
or executes. -/
def Overlaps (s : Machine W D O) (w : W) : Prop :=
  ∃ f ∈ (s.worker w).pc.taken?, (s.fiber f).state.finished = false ∧
    ∃ w', (s.worker w').pc.at? = some f

instance [Fintype W] (s : Machine W D O) (w : W) : Decidable (s.Overlaps w) :=
  inferInstanceAs (Decidable (∃ _ ∈ _, _))

/-- The steps of a plain scheduler whose tasks finish or throw. -/
def InOnePiece (made : List FiberId) (s : Machine W D O) : Action W D O → Prop
  | .schedule ft => ∃ t : Task, ft = t.entry ∧ t.By made
  | .work w => ¬ s.Overlaps w
  | .yield _ y => y.state.finished = true
  | .addEvent .. => False
  | .addCallback .. => False
  | .delEvent .. => False
  | .trigger .. => False
  | .push _ => False
  | .uncount _ => False
  | _ => True

/-- The users' fibers after a step: `newFiber` makes one. -/
def makes (s : Machine W D O) (made : List FiberId) : Action W D O → List FiberId
  | .newFiber => s.nextFiber :: made
  | _ => made

/-- The fibers in use: what a worker executes, and what it keeps for callbacks. -/
def Uses (s : Machine W D O) (w : W) (f : FiberId) : Prop :=
  (s.worker w).pc.at? = some f ∨ (s.worker w).cbFiber = some f

structure Straight (made : List FiberId) (s : Machine W D O) : Prop where
  exist : ∀ f ∈ made, f < s.nextFiber
  entries : ∀ ft ∈ s.fibers, ∃ t : Task, ft = t.entry ∧ t.By made
  worker : ∀ w, (s.worker w).Straight made s.fiber s.nextFiber
  apart : ∀ w w' f, s.Uses w f → s.Uses w' f → w = w'
  executed : ∀ f, (s.fiber f).state = .exec → ∃ w, (s.worker w).pc.at? = some f
  whole : ∀ f, (s.fiber f).state ≠ .ready ∧ (s.fiber f).state ≠ .hold
  fresh : ∀ f, s.nextFiber ≤ f → s.fiber f = .fresh

variable {s s' : Machine W D O} {w : W} {f : FiberId}

omit [DecidableEq W] [DecidableEq D] [DecidableEq O] in
theorem Straight.exists_of_uses (h : Straight made s) (hf : s.Uses w f) : f < s.nextFiber := by
  rcases hf with hf | hf
  · rcases (h.worker w).theirs f (Pc.fiber?_of_at? hf) with hmade | ⟨stage, hpc⟩
    · exact h.exist f hmade
    · exact ((h.worker w).kept f ((h.worker w).proper.lent stage f hpc)).2.1
  · exact ((h.worker w).kept f hf).2.1

omit [DecidableEq D] [DecidableEq O] in
/-- One worker moves; what it writes and takes into use, no other worker uses. -/
theorem Straight.moved (h : Straight made s) {wk : Worker}
    (hworker : s'.worker = Function.update s.worker w wk) (hnext : s.nextFiber ≤ s'.nextFiber)
    (hq : ∀ ft ∈ s'.fibers, ft ∈ s.fibers)
    (hfiber : ∀ w', w' ≠ w → ∀ f, s.Uses w' f → s'.fiber f = s.fiber f)
    (huses : ∀ f, wk.pc.at? = some f ∨ wk.cbFiber = some f → ∀ w', w' ≠ w → ¬ s.Uses w' f)
    (hwk : wk.Straight made s'.fiber s'.nextFiber)
    (hexec : ∀ f, (s'.fiber f).state = .exec → wk.pc.at? = some f ∨
      (s.fiber f).state = .exec ∧ (s.worker w).pc.at? ≠ some f)
    (hwhole : ∀ f, (s'.fiber f).state ≠ .ready ∧ (s'.fiber f).state ≠ .hold)
    (hfresh : ∀ f, s'.nextFiber ≤ f → s'.fiber f = .fresh) : Straight made s' := by
  have hself : s'.worker w = wk := by rw [hworker, Function.update_self]
  have hother : ∀ {x}, x ≠ w → s'.worker x = s.worker x := fun hx ↦ by
    rw [hworker, Function.update_of_ne hx]
  have hused : ∀ {x f}, x ≠ w → s'.Uses x f → s.Uses x f := fun hx hf ↦ by
    unfold Uses at hf ⊢
    rw [← hother hx]
    exact hf
  have husedSelf : ∀ {x f}, x ≠ w → s'.Uses w f → ¬ s.Uses x f := fun hx hf ↦ by
    unfold Uses at hf
    rw [hself] at hf
    exact huses _ hf _ hx
  refine ⟨fun f hf ↦ Nat.lt_of_lt_of_le (h.exist f hf) hnext, fun ft hft ↦ h.entries ft (hq ft hft),
    fun x ↦ ?_, fun x y f hx hy ↦ ?_, fun f hf ↦ ?_, hwhole, hfresh⟩
  · by_cases hxw : x = w
    · rw [hxw, hself]
      exact hwk
    · -- the fibers of another worker are as they were
      obtain ⟨hproper, htheirs, hfinds, hkept⟩ := h.worker x
      rw [hother hxw]
      refine ⟨hproper, htheirs, fun stage role f hpc ↦ ?_, fun c hc ↦ ?_⟩
      · rw [hfiber x hxw f (.inl (by rw [hpc]; rfl))]
        exact hfinds stage role f hpc
      · obtain ⟨hmade, hlt, hat⟩ := hkept c hc
        rw [hfiber x hxw c (.inr hc)]
        exact ⟨hmade, Nat.lt_of_lt_of_le hlt hnext, hat⟩
  · by_cases hxw : x = w
    · by_cases hyw : y = w
      · exact hxw.trans hyw.symm
      · exact absurd (hused hyw hy) (husedSelf hyw (hxw ▸ hx))
    · by_cases hyw : y = w
      · exact absurd (hused hxw hx) (husedSelf hxw (hyw ▸ hy))
      · exact h.apart x y f (hused hxw hx) (hused hyw hy)
  · rcases hexec f hf with hat | ⟨hold, hnot⟩
    · exact ⟨w, hself ▸ hat⟩
    · obtain ⟨x, hx⟩ := h.executed f hold
      have hxw : x ≠ w := fun heq ↦ hnot (heq ▸ hx)
      refine ⟨x, ?_⟩
      rw [hother hxw]
      exact hx

omit [DecidableEq D] [DecidableEq O] in
theorem Straight.onward (h : Straight made s) {wk : Worker}
    (hworker : s'.worker = Function.update s.worker w wk) (hnext : s'.nextFiber = s.nextFiber)
    (hq : ∀ ft ∈ s'.fibers, ft ∈ s.fibers) (hfiber : s'.fiber = s.fiber)
    (huses : ∀ f, wk.pc.at? = some f ∨ wk.cbFiber = some f →
      s.Uses w f ∨ ∀ w', w' ≠ w → ¬ s.Uses w' f)
    (hwk : wk.Straight made s.fiber s.nextFiber)
    (hexec : ∀ f, (s.worker w).pc.at? = some f → (s.fiber f).state = .exec → wk.pc.at? = some f) :
    Straight made s' := by
  refine h.moved hworker hnext.ge hq (fun _ _ _ _ ↦ by rw [hfiber]) (fun f hf x hx hxf ↦ ?_)
    (by rw [hfiber, hnext]; exact hwk) (fun f hf ↦ ?_) (hfiber ▸ h.whole) fun f hf ↦ ?_
  · rcases huses f hf with hw | hnot
    · exact hx (h.apart x w f hxf hw)
    · exact hnot x hx hxf
  · rw [hfiber] at hf
    by_cases hat : (s.worker w).pc.at? = some f
    · exact .inl (hexec f hat hf)
    · exact .inr ⟨hf, hat⟩
  · rw [hnext] at hf
    rw [hfiber]
    exact h.fresh f hf

omit [DecidableEq D] [DecidableEq O] in
theorem Straight.wrote (h : Straight made s) {wk : Worker} {g : FiberId} {fb : Fiber}
    (hworker : s'.worker = Function.update s.worker w wk) (hnext : s'.nextFiber = s.nextFiber)
    (hq : ∀ ft ∈ s'.fibers, ft ∈ s.fibers) (hfiber : s'.fiber = Function.update s.fiber g fb)
    (hg : s.Uses w g) (huses : ∀ f, wk.pc.at? = some f ∨ wk.cbFiber = some f → s.Uses w f)
    (hwk : wk.Straight made s'.fiber s.nextFiber)
    (hexec : ∀ f, f ≠ g → (s.worker w).pc.at? ≠ some f) (hself : fb.state = .exec → wk.pc.at? = some g)
    (hwhole : fb.state ≠ .ready ∧ fb.state ≠ .hold) : Straight made s' := by
  have hother : ∀ {f}, f ≠ g → s'.fiber f = s.fiber f := fun hf ↦ by
    rw [hfiber, Function.update_of_ne hf]
  have hone : s'.fiber g = fb := by rw [hfiber, Function.update_self]
  refine h.moved hworker hnext.ge hq (fun x hx f hf ↦ ?_) (fun f hf x hx hxf ↦ ?_)
    (by rw [hnext]; exact hwk) (fun f hf ↦ ?_) (fun f ↦ ?_) fun f hf ↦ ?_
  · apply hother
    rintro rfl
    exact hx (h.apart x w f hf hg)
  · exact hx (h.apart x w f hxf (huses f hf))
  · by_cases hfg : f = g
    · rw [hfg, hone] at hf
      exact .inl (hfg ▸ hself hf)
    · rw [hother hfg] at hf
      exact .inr ⟨hf, hexec f hfg⟩
  · by_cases hfg : f = g
    · rw [hfg, hone]
      exact hwhole
    · rw [hother hfg]
      exact h.whole f
  · rw [hnext] at hf
    have hfg : f ≠ g := fun heq ↦ Nat.lt_irrefl g (Nat.lt_of_lt_of_le (h.exists_of_uses hg) (heq ▸ hf))
    rw [hother hfg]
    exact h.fresh f hf

omit [DecidableEq D] [DecidableEq O] in
theorem Straight.wroteAt (h : Straight made s) {st st' : Stage} {role : Role} {fb : Fiber}
    (hpc : (s.worker w).pc = .at st role f)
    (hworker : s'.worker = Function.update s.worker w { s.worker w with pc := .at st' role f })
    (hnext : s'.nextFiber = s.nextFiber) (hq : s'.fibers = s.fibers)
    (hfiber : s'.fiber = Function.update s.fiber f fb) (hfinds : st'.Finds fb.state)
    (hretire : st' = .retire → role = .callback) (hwhole : fb.state ≠ .ready ∧ fb.state ≠ .hold) :
    Straight made s' := by
  have hat : (s.worker w).pc.at? = some f := by rw [hpc]; rfl
  refine h.wrote hworker hnext (fun _ hft ↦ hq ▸ hft) hfiber (.inl hat) (fun g hg ↦ ?_) ?_
    (fun g hg hat' ↦ hg (Option.some.inj (hat'.symm.trans hat))) (fun _ ↦ rfl) hwhole
  · exact hg.imp_left fun hg ↦ hat.trans hg
  · refine (h.worker w).stage hpc (fun g hg ↦ ?_) ?_ hretire
    · rw [hfiber, Function.update_of_ne hg]
    · rw [hfiber, Function.update_self]
      exact hfinds

omit [DecidableEq W] [DecidableEq D] [DecidableEq O] in
/-- What a worker keeps for callbacks does not execute elsewhere. -/
theorem Straight.kept_idle (h : Straight made s) {c : FiberId} (hc : (s.worker w).cbFiber = some c)
    (hat : (s.worker w).pc.at? ≠ some c) : (s.fiber c).state ≠ .exec :=
  fun hstate ↦ hat (((h.worker w).kept c hc).2.2 hstate)

omit [DecidableEq W] [DecidableEq D] [DecidableEq O] in
theorem Straight.init_of_dispatch (h : Straight made s) {ft : FiberAndThread} {isActive : Bool}
    (hpc : (s.worker w).pc = .dispatch ft isActive) (hf : ft.fiber = some f)
    (hlive : (s.fiber f).state.finished = false) (hover : ¬ s.Overlaps w) :
    f ∈ made ∧ (∀ w', (s.worker w').pc.at? ≠ some f) ∧ (s.fiber f).state = .init := by
  have hmade : f ∈ made := by
    rcases (h.worker w).theirs f (by rw [hpc]; exact hf) with hmade | ⟨stage, heq⟩
    · exact hmade
    · rw [hpc] at heq
      cases heq
  have hnot : ∀ w', (s.worker w').pc.at? ≠ some f := by
    intro w' hat
    refine hover ⟨f, ?_, hlive, w', hat⟩
    rw [hpc]
    exact hf
  refine ⟨hmade, hnot, ?_⟩
  obtain ⟨hready, hhold⟩ := h.whole f
  cases hstate : (s.fiber f).state with
  | init => rfl
  | exec =>
      obtain ⟨w', hat⟩ := h.executed f hstate
      exact absurd hat (hnot w')
  | ready => exact absurd hstate hready
  | hold => exact absurd hstate hhold
  | term =>
      rw [hstate] at hlive
      cases hlive
  | except =>
      rw [hstate] at hlive
      cases hlive

omit [DecidableEq W] [DecidableEq D] [DecidableEq O] in
theorem examined_of_finished {role : Role} (hfin : (s.fiber f).state.finished = true) :
    s.examined role f = if role = .task then .scan else .at .retire role f := by
  have hready : (s.fiber f).state ≠ .ready := by
    intro heq
    rw [heq] at hfin
    cases hfin
  unfold examined
  rw [if_neg hready, if_pos hfin]
  cases role with
  | task => rfl
  | callback => rfl

theorem ne_exec_of_finished {st : FiberState} (hfin : st.finished = true) : st ≠ .exec := by
  rintro rfl
  cases hfin

omit [DecidableEq W] [DecidableEq D] [DecidableEq O] in
/-- With nothing in its hands, a worker uses what it keeps for callbacks. -/
theorem uses_of_bare {pc : Pc} (hnone : pc.at? = none)
    (hf : pc.at? = some f ∨ (s.worker w).cbFiber = some f) : s.Uses w f := by
  rw [hnone] at hf
  exact .inr (hf.resolve_left nofun)

omit [DecidableEq D] [DecidableEq O] in
theorem Straight.took (h : Straight made s) {ft : FiberAndThread} {rest : List FiberAndThread}
    (hpc : (s.worker w).pc = .scan)
    (htake : takeFirst (s.takeable (s.worker w).thread) s.fibers = some (ft, rest)) :
    Straight made ({ s with fibers := rest, activeThreadCount := s.activeThreadCount + 1 }.setPc w
      (.dispatch ft true)) := by
  obtain ⟨-, a, b, hl, hl'⟩ := takeFirst_some htake
  have hmem : ∀ x ∈ rest, x ∈ s.fibers := by
    intro x hx
    rw [hl'] at hx
    rw [hl]
    exact (List.mem_append.mp hx).elim (List.mem_append_left _)
      fun hx ↦ List.mem_append_right _ (List.mem_cons_of_mem _ hx)
  refine h.onward rfl rfl hmem rfl (fun f hf ↦ .inl (uses_of_bare rfl hf))
    ((h.worker w).dispatch (by rw [hpc]; rfl) (fun _ ↦ h.entries ft ?_) nofun) fun f hat ↦ ?_
  · rw [hl]
    exact List.mem_append_right _ List.mem_cons_self
  · rw [hpc] at hat
    cases hat

omit [DecidableEq D] [DecidableEq O] in
theorem Straight.resumed (h : Straight made s) (hover : ¬ s.Overlaps w) {ft : FiberAndThread}
    {isActive : Bool} (hpc : (s.worker w).pc = .dispatch ft isActive) (hf : ft.fiber = some f)
    (hlive : (s.fiber f).state.finished = false) : Straight made (s.setPc w (.at .check .task f)) := by
  obtain ⟨hmade, hnot, hinit⟩ := h.init_of_dispatch hpc hf hlive hover
  refine h.onward rfl rfl (fun _ ↦ id) rfl (fun g hg ↦ ?_)
    ((h.worker w).task (by rw [hpc]; rfl) hmade hinit) fun g hat ↦ ?_
  · rcases hg with hg | hg
    · cases hg
      -- the users' fibers are nobody's `cbFiber`
      exact .inr fun w' _ huse ↦ huse.elim (hnot w') fun hc ↦ ((h.worker w').kept f hc).1 hmade
    · exact .inl (.inr hg)
  · rw [hpc] at hat
    cases hat

omit [DecidableEq D] [DecidableEq O] in
theorem Straight.reused (h : Straight made s) {ft : FiberAndThread} {isActive : Bool} {c : FiberId}
    (hpc : (s.worker w).pc = .dispatch ft isActive) (hc : (s.worker w).cbFiber = some c) :
    Straight made ((s.setFiber c .fresh).setPc w (.at .check .callback c)) := by
  obtain ⟨hmade, hlt, -⟩ := (h.worker w).kept c hc
  refine h.wrote rfl rfl (fun _ ↦ id) rfl (.inr hc) (fun f hf ↦ ?_)
    (.callback rfl hc hmade hlt ?_) (fun f _ hat ↦ ?_) nofun ⟨nofun, nofun⟩
  · rcases hf with hf | hf
    · cases hf
      exact .inr hc
    · exact .inr hf
  · show (Function.update s.fiber c .fresh c).state = .init
    rw [Function.update_self]
    rfl
  · rw [hpc] at hat
    cases hat

omit [DecidableEq D] [DecidableEq O] in
/-- A worker without a fiber for callbacks makes one. -/
theorem Straight.supplied (h : Straight made s) {ft : FiberAndThread} {isActive : Bool}
    (hpc : (s.worker w).pc = .dispatch ft isActive) :
    Straight made (({ s with nextFiber := s.nextFiber + 1 }.setFiber s.nextFiber .fresh).setWorker w
      { s.worker w with cbFiber := some s.nextFiber, pc := .at .check .callback s.nextFiber }) := by
  have hself : Function.update s.fiber s.nextFiber .fresh s.nextFiber = .fresh :=
    Function.update_self ..
  have hother : ∀ {f}, f ≠ s.nextFiber →
      Function.update s.fiber s.nextFiber .fresh f = s.fiber f := fun hf ↦
    Function.update_of_ne hf _ _
  refine h.moved rfl (Nat.le_succ _) (fun _ ↦ id)
    (fun x _ f hf ↦ hother (Nat.ne_of_lt (h.exists_of_uses hf))) (fun f hf x _ huse ↦ ?_)
    (.callback rfl rfl (fun hmade ↦ Nat.lt_irrefl _ (h.exist _ hmade)) (Nat.lt_succ_self _)
      (congrArg Fiber.state hself)) (fun f hf ↦ ?_) (fun f ↦ ?_) fun f hf ↦ ?_
  · have hf' : f = s.nextFiber := hf.elim (fun hf ↦ (Option.some.inj hf).symm)
      fun hf ↦ (Option.some.inj hf).symm
    exact Nat.lt_irrefl _ (hf' ▸ h.exists_of_uses huse)
  · by_cases hne : f = s.nextFiber
    · exact .inl (hne ▸ rfl)
    · refine .inr ⟨(congrArg Fiber.state (hother hne)).symm.trans hf, ?_⟩
      rw [hpc]
      nofun
  · show (Function.update s.fiber s.nextFiber .fresh f).state ≠ _ ∧
      (Function.update s.fiber s.nextFiber .fresh f).state ≠ _
    by_cases hne : f = s.nextFiber
    · rw [hne, hself]
      exact ⟨nofun, nofun⟩
    · rw [hother hne]
      exact h.whole f
  · have hlt : s.nextFiber < f := hf
    exact (hother (Nat.ne_of_gt hlt)).trans (h.fresh f (Nat.le_of_lt hlt))

omit [DecidableEq D] [DecidableEq O] in
/-- A worker with no fiber in its hands goes on to where it has none either. -/
theorem Straight.freed (h : Straight made s) (hpc : (s.worker w).pc.at? = none) {pc : Pc}
    (hpc' : pc = .scan ∨ pc = .idle ∨ pc = .exited)
    (hworker : s'.worker = Function.update s.worker w { s.worker w with pc := pc })
    (hnext : s'.nextFiber = s.nextFiber) (hq : s'.fibers = s.fibers) (hfiber : s'.fiber = s.fiber) :
    Straight made s' := by
  have hnone : pc.at? = none := by
    rcases hpc' with rfl | rfl | rfl <;> rfl
  refine h.onward hworker hnext (fun _ hft ↦ hq ▸ hft) hfiber
    (fun f hf ↦ .inl (uses_of_bare hnone hf))
    ((h.worker w).free hpc' fun c hc ↦ h.kept_idle hc (by rw [hpc]; nofun)) fun f hat ↦ ?_
  rw [hpc] at hat
  cases hat

omit [DecidableEq D] [DecidableEq O] in
theorem Straight.examined (h : Straight made s) {role : Role}
    (hpc : (s.worker w).pc = .at .examine role f) : Straight made (s.setPc w (s.examined role f)) := by
  have hw := h.worker w
  have hfin : (s.fiber f).state.finished = true := hw.finds _ _ _ hpc
  have hnot : ∀ g, (s.worker w).pc.at? = some g → (s.fiber g).state ≠ .exec := by
    intro g hg
    rw [hpc] at hg
    cases hg
    exact ne_exec_of_finished hfin
  rw [examined_of_finished hfin]
  cases role with
  | task =>
      rw [if_pos rfl]
      refine h.onward rfl rfl (fun _ ↦ id) rfl (fun g hg ↦ .inl (uses_of_bare rfl hg))
        (hw.free (.inl rfl) fun c hc hstate ↦ ?_) fun g hat hstate ↦ absurd hstate (hnot g hat)
      exact hnot c ((hw.kept c hc).2.2 hstate) hstate
  | callback =>
      rw [if_neg nofun]
      exact h.wroteAt hpc rfl rfl rfl (Function.update_eq_self f s.fiber).symm hfin (fun _ ↦ rfl)
        (h.whole f)

omit [DecidableEq D] [DecidableEq O] in
theorem Straight.retired (h : Straight made s) {role : Role}
    (hpc : (s.worker w).pc = .at .retire role f) :
    Straight made ((s.setFiber f .fresh).setPc w .scan) := by
  refine h.wrote rfl rfl (fun _ ↦ id) rfl (.inl (by rw [hpc]; rfl))
    (fun g hg ↦ uses_of_bare rfl hg) ((h.worker w).free (.inl rfl) fun c hc ↦ ?_)
    (fun g hg hat ↦ ?_) nofun ⟨nofun, nofun⟩
  · show (Function.update s.fiber f .fresh c).state ≠ .exec
    by_cases hcf : c = f
    · rw [hcf, Function.update_self]
      nofun
    · rw [Function.update_of_ne hcf]
      refine h.kept_idle hc fun hat ↦ ?_
      rw [hpc] at hat
      exact hcf (Option.some.inj hat).symm
  · rw [hpc] at hat
    exact hg (Option.some.inj hat).symm

omit [DecidableEq D] [DecidableEq O] in
theorem Straight.worked (h : Straight made s) (hover : ¬ s.Overlaps w) (hs : Worked s w s') :
    Straight made s' := by
  have hw := h.worker w
  -- what the worker does not write is as it was
  have hsame : ∀ f, s.fiber = Function.update s.fiber f (s.fiber f) :=
    fun f ↦ (Function.update_eq_self f s.fiber).symm
  cases hs with
  | took hpc _ htake => exact h.took hpc htake
  | foundNone hpc =>
      refine h.onward rfl rfl (fun _ ↦ id) rfl (fun f hf ↦ .inl (uses_of_bare rfl hf))
        (hw.dispatch (by rw [hpc]; rfl) nofun fun _ ↦ rfl) fun f hat ↦ ?_
      rw [hpc] at hat
      cases hat
  | resumed hpc hf hlive => exact h.resumed hover hpc hf hlive
  | reused hpc _ _ hc _ => exact h.reused hpc hc
  | made hpc => exact h.supplied hpc
  | dropped hpc => exact h.freed (by rw [hpc]; rfl) (.inl rfl) rfl rfl rfl rfl
  | idled hpc _ _ hpc' => exact h.freed (by rw [hpc]; rfl) (.inr hpc'.symm) rfl rfl rfl rfl
  | @checked role f hpc _ =>
      have hfinds : (s.fiber f).state = .init := hw.finds _ _ _ hpc
      exact h.wroteAt hpc rfl rfl rfl (hsame f) hfinds nofun (h.whole f)
  | marked hpc => exact h.wroteAt hpc rfl rfl rfl rfl rfl nofun ⟨nofun, nofun⟩
  | @switchedIn role f hpc =>
      have hfinds : (s.fiber f).state = .exec := hw.finds _ _ _ hpc
      exact h.wroteAt hpc rfl rfl rfl rfl hfinds nofun (h.whole f)
  | @switchedOut role f hpc =>
      have hfinds : (s.fiber f).state.finished = true := hw.finds _ _ _ hpc
      exact h.wroteAt hpc rfl rfl rfl rfl hfinds nofun (h.whole f)
  | @decremented role f hpc =>
      have hfinds : (s.fiber f).state.finished = true := hw.finds _ _ _ hpc
      exact h.wroteAt hpc rfl rfl rfl (hsame f) hfinds nofun (h.whole f)
  | examined hpc => exact h.examined hpc
  -- no fiber yields, so none is queued again or held
  | requeued hpc | held hpc => exact (hw.finds _ _ _ hpc).elim
  | retired hpc _ => exact h.retired hpc
  | awoke hpc => exact h.freed (by rw [hpc]; rfl) (.inl rfl) rfl rfl rfl rfl

omit [DecidableEq W] [DecidableEq D] [DecidableEq O] in
theorem Straight.congr (h : Straight made s) (hworker : s'.worker = s.worker)
    (hfiber : s'.fiber = s.fiber) (hnext : s'.nextFiber = s.nextFiber)
    (hq : ∀ ft ∈ s'.fibers, ft ∈ s.fibers ∨ ∃ t : Task, ft = t.entry ∧ t.By made) :
    Straight made s' where
  exist := hnext ▸ h.exist
  entries := fun ft hft ↦ (hq ft hft).elim (h.entries ft) id
  worker := by
    rw [hworker, hfiber, hnext]
    exact h.worker
  apart := by
    unfold Uses
    rw [hworker]
    exact h.apart
  executed := by
    rw [hworker, hfiber]
    exact h.executed
  whole := hfiber ▸ h.whole
  fresh := by
    rw [hfiber, hnext]
    exact h.fresh

omit [DecidableEq W] [DecidableEq D] [DecidableEq O] in
theorem Straight.newFiber (h : Straight made s) :
    Straight (s.nextFiber :: made)
      ({ s with nextFiber := s.nextFiber + 1 }.setFiber s.nextFiber .fresh) := by
  have hself : Function.update s.fiber s.nextFiber .fresh s.nextFiber = .fresh :=
    Function.update_self ..
  have hother : ∀ {f}, f ≠ s.nextFiber →
      Function.update s.fiber s.nextFiber .fresh f = s.fiber f := fun hf ↦ Function.update_of_ne hf _ _
  have hused : ∀ {w f}, s.Uses w f → Function.update s.fiber s.nextFiber .fresh f = s.fiber f :=
    fun hf ↦ hother (Nat.ne_of_lt (h.exists_of_uses hf))
  refine ⟨fun f hf ↦ ?_, fun ft hft ↦ ?_, fun w ↦ ?_, h.apart, fun f hf ↦ ?_, fun f ↦ ?_,
    fun f hf ↦ ?_⟩
  · rcases List.mem_cons.mp hf with rfl | hf
    · exact Nat.lt_succ_self _
    · exact Nat.lt_succ_of_lt (h.exist f hf)
  · obtain ⟨t, rfl, hby⟩ := h.entries ft hft
    refine ⟨t, rfl, ?_⟩
    cases t with
    | fiber f => exact List.mem_cons_of_mem _ hby
    | callback => trivial
  · obtain ⟨hproper, htheirs, hfinds, hkept⟩ := h.worker w
    refine ⟨hproper, fun f hf ↦ (htheirs f hf).imp_left (List.mem_cons_of_mem _),
      fun stage role f hpc ↦ ?_, fun c hc ↦ ?_⟩
    · have huse : s.Uses w f := .inl (congrArg Pc.at? hpc)
      show stage.Finds (Function.update s.fiber s.nextFiber .fresh f).state
      rw [hused huse]
      exact hfinds stage role f hpc
    · obtain ⟨hmade, hlt, hexec⟩ := hkept c hc
      refine ⟨fun hmem ↦ ?_, Nat.lt_succ_of_lt hlt, fun hstate ↦ hexec ?_⟩
      · rcases List.mem_cons.mp hmem with rfl | hmem
        · exact Nat.lt_irrefl _ hlt
        · exact hmade hmem
      · exact (congrArg Fiber.state (hused (.inr hc))).symm.trans hstate
  · change (Function.update s.fiber s.nextFiber .fresh f).state = .exec at hf
    by_cases hne : f = s.nextFiber
    · rw [hne, hself] at hf
      cases hf
    · rw [hother hne] at hf
      exact h.executed f hf
  · show (Function.update s.fiber s.nextFiber .fresh f).state ≠ _ ∧
      (Function.update s.fiber s.nextFiber .fresh f).state ≠ _
    by_cases hne : f = s.nextFiber
    · rw [hne, hself]
      exact ⟨nofun, nofun⟩
    · rw [hother hne]
      exact h.whole f
  · have hlt : s.nextFiber < f := hf
    exact (hother (Nat.ne_of_gt hlt)).trans (h.fresh f (Nat.le_of_lt hlt))

theorem Straight.step (h : Straight made s) {a : Action W D O} (hok : InOnePiece made s a)
    (hs : Of step s a s') : Straight (s.makes made a) s' := by
  cases step_cases hs with
  | newFiber => exact h.newFiber
  | scheduled =>
      obtain ⟨t, rfl, hby⟩ := hok
      refine h.congr rfl rfl rfl fun ft hft ↦ ?_
      exact (mem_scheduleNoLock hft).imp_right fun heq ↦ ⟨t, heq, hby⟩
  | worked hw => exact h.worked hok hw
  | @yielded w y role f hpc =>
      have hfin : y.state.finished = true := hok
      refine h.wroteAt hpc rfl rfl rfl rfl hfin nofun ⟨fun heq ↦ ?_, fun heq ↦ ?_⟩
      · change y.state = .ready at heq
        rw [heq] at hfin
        cases hfin
      · change y.state = .hold at heq
        rw [heq] at hfin
        cases hfin
  | @idleEnded w hpc =>
      refine h.onward rfl rfl (fun _ ↦ id) rfl (fun f hf ↦ .inl (.inr (hf.resolve_left nofun)))
        ((h.worker w).free (.inl rfl) fun c hc ↦ h.kept_idle hc (by rw [hpc]; nofun)) fun f hat ↦ ?_
      rw [hpc] at hat
      cases hat
  | eventAdded | callbackAdded | deleted | triggered | pushed | uncounted => exact hok.elim
  | _ => exact h.congr rfl rfl rfl fun _ hft ↦ .inl hft

/-! ## The assertions -/

/-- The assertion before the next access of a worker. -/
def Asserts (s : Machine W D O) (w : W) : Prop :=
  match (s.worker w).pc with
  -- `run`: `it->fiber || it->cb`
  | .scan => ∀ ft ∈ s.fibers, ft.nonempty = true
  -- `reset` of the `cbFiber`
  | .dispatch ft _ => ft.cb.isSome = true →
      ∀ c, (s.worker w).cbFiber = some c → (s.fiber c).state.resettable = true
  -- `swapIn`; a fiber that has ended would go on to the assertion that ends `mainFunc`
  | .at .check _ f => (s.fiber f).state ≠ .exec ∧ (s.fiber f).state.finished = false
  | .at .retire _ f => (s.fiber f).state.resettable = true
  | _ => True

theorem resettable_of_ne {st : FiberState} (hready : st ≠ .ready) (hhold : st ≠ .hold)
    (hexec : st ≠ .exec) : st.resettable = true := by
  cases st with
  | init | term | except => rfl
  | ready => exact absurd rfl hready
  | hold => exact absurd rfl hhold
  | exec => exact absurd rfl hexec

omit [DecidableEq W] [DecidableEq D] [DecidableEq O] in
/-- The assertion of `~Fiber`, on whatever no worker executes. -/
theorem Straight.destroyable (h : Straight made s) (hnot : ∀ w, (s.worker w).pc.at? ≠ some f) :
    (s.fiber f).state.resettable = true := by
  refine resettable_of_ne (h.whole f).1 (h.whole f).2 fun hexec ↦ ?_
  obtain ⟨w, hat⟩ := h.executed f hexec
  exact hnot w hat

omit [DecidableEq W] [DecidableEq D] [DecidableEq O] in
theorem Straight.asserts (h : Straight made s) (w : W) : s.Asserts w := by
  unfold Asserts
  split
  · intro ft hft
    obtain ⟨t, rfl, -⟩ := h.entries ft hft
    exact t.entry_nonempty
  · rename_i hpc
    intro _ c hc
    exact resettable_of_ne (h.whole c).1 (h.whole c).2 (h.kept_idle hc (by rw [hpc]; nofun))
  · rename_i f hpc
    have hinit : (s.fiber f).state = .init := (h.worker w).finds _ _ _ hpc
    rw [hinit]
    exact ⟨nofun, rfl⟩
  · rename_i f hpc
    have hfin : (s.fiber f).state.finished = true := (h.worker w).finds _ _ _ hpc
    exact resettable_of_ne (h.whole f).1 (h.whole f).2 (ne_exec_of_finished hfin)
  · trivial

/-! ## What becomes of a task -/

omit [DecidableEq W] [DecidableEq D] [DecidableEq O] in
theorem Straight.not_at_hold (h : Straight made s) (w : W) (role : Role) (f : FiberId) :
    (s.worker w).pc ≠ .at .hold role f :=
  fun hpc ↦ (h.worker w).finds _ _ _ hpc

theorem Straight.placed (h : Straight made s) {a : Action W D O} (hs : Of Machine.step s a s')
    (hplaced : s.Placed f) : s'.Placed f := by
  refine hplaced.step ?_ (fun w ↦ (h.worker w).proper) h.not_at_hold hs
  rw [h.fresh _ (Nat.le_refl _)]
  rfl

/-- A fiber of the users changes to its end only as it ends. -/
theorem Straight.ends_step (h : Straight made s) {a : Action W D O} (hok : InOnePiece made s a)
    (hs : Of Machine.step s a s') (hf : f ∈ made) :
    (s.fiber f).state.finished.toNat + ends s f a = (s'.fiber f).state.finished.toNat := by
  -- a write that is not an end
  have hwrite : ∀ {g : FiberId} {fb : Fiber}, s'.fiber = Function.update s.fiber g fb →
      (g = f → fb.state.finished = (s.fiber g).state.finished) →
      (s.fiber f).state.finished.toNat + 0 = (s'.fiber f).state.finished.toNat := by
    intro g fb hfiber hstate
    by_cases hfg : f = g
    · rw [hfiber, hfg, Function.update_self, hstate hfg.symm]
      rfl
    · rw [hfiber, Function.update_of_ne hfg]
      rfl
  have hlt := h.exist f hf
  cases step_cases hs with
  | newFiber => exact hwrite rfl fun heq ↦ absurd hlt (heq ▸ Nat.lt_irrefl _)
  | @worked w _ hw =>
      have hworker := h.worker w
      cases hw with
      | @reused ft isActive c hpc hfin hcb hc _ =>
          exact hwrite rfl fun heq ↦ absurd hf (heq ▸ (hworker.kept c hc).1)
      | made => exact hwrite rfl fun heq ↦ absurd hlt (heq ▸ Nat.lt_irrefl _)
      | @marked role g hpc =>
          have hinit : (s.fiber g).state = .init := hworker.finds _ _ _ hpc
          refine hwrite rfl fun _ ↦ ?_
          rw [hinit]
          rfl
      | switchedIn => exact hwrite rfl fun _ ↦ rfl
      | switchedOut => exact hwrite rfl fun _ ↦ rfl
      | held hpc => exact absurd hpc (h.not_at_hold _ _ _)
      | @retired role g hpc _ =>
          rw [hworker.proper.retires role g hpc] at hpc
          have hc := hworker.proper.lent _ _ hpc
          exact hwrite rfl fun heq ↦ absurd hf (heq ▸ (hworker.kept g hc).1)
      | _ => rfl
  | @yielded w y role g hpc =>
      have hends : ends s f (.yield w y : Action W D O) = if y.state.finished ∧ g = f then 1 else 0 := by
        unfold ends
        dsimp only
        rw [hpc]
      have hfin : y.state.finished = true := hok
      rw [hends]
      show _ = (Function.update s.fiber g { s.fiber g with state := y.state } f).state.finished.toNat
      by_cases hfg : f = g
      · have hexec : (s.fiber f).state = .exec := by
          rw [hfg]
          exact (h.worker w).finds _ _ _ hpc
        rw [hfg, Function.update_self, if_pos ⟨hfin, rfl⟩, ← hfg, hexec, hfin]
        rfl
      · rw [Function.update_of_ne hfg, if_neg fun heq ↦ hfg heq.2.symm]
        rfl
  | eventAdded | callbackAdded | deleted | triggered | pushed | uncounted => exact hok.elim
  | _ => rfl

omit [DecidableEq W] [DecidableEq D] [DecidableEq O] in
theorem Straight.ends_absent (h : Straight made s) (hle : s.nextFiber ≤ f) (a : Action W D O) :
    ends s f a = 0 := by
  unfold ends
  split
  · split
    · rename_i hpc
      refine if_neg fun hcon ↦ ?_
      have huse : s.Uses _ f := .inl (by rw [hpc, hcon.2]; rfl)
      exact Nat.lt_irrefl f (Nat.lt_of_lt_of_le (h.exists_of_uses huse) hle)
    · rfl
  · rfl

end Machine

/-- A fiber at the stage is still to end. -/
def Stage.unended : Stage → Bool
  | .check => true
  | .mark => true
  | .switchIn => true
  | .running => true
  | _ => false

/-- Whether a worker, which executes the callback `c`, if any, is still to end the callback `cb`. -/
def Pc.hand (c : Option Callback) (cb : Callback) : Pc → Nat
  | .dispatch ft _ => if ft.cb = some cb then 1 else 0
  | .at stage .callback _ => if stage.unended = true ∧ c = some cb then 1 else 0
  | _ => 0

theorem Pc.hand_of_ended {c : Option Callback} {cb : Callback} {stage : Stage} {role : Role}
    {f : FiberId} (h : stage.unended = false) : (Pc.at stage role f).hand c cb = 0 := by
  cases role with
  | task => rfl
  | callback =>
      unfold hand
      dsimp only
      rw [h, if_neg fun hcon ↦ Bool.false_ne_true hcon.1]

theorem Pc.hand_of_unended {c : Option Callback} {cb : Callback} {stage stage' : Stage} {role : Role}
    {f : FiberId} (h : stage.unended = true) (h' : stage'.unended = true) :
    (Pc.at stage' role f).hand c cb = (Pc.at stage role f).hand c cb := by
  cases role with
  | task => rfl
  | callback =>
      unfold hand
      dsimp only
      rw [h, h']

namespace Machine

variable {W D O : Type} [DecidableEq W] [DecidableEq D] [DecidableEq O]

/-- The callbacks that the workers execute, after a step: a worker executes the one of its entry. -/
def executing (s : Machine W D O) (v : W → Option Callback) : Action W D O → W → Option Callback
  | .work w =>
    match (s.worker w).pc with
    | .dispatch ft _ => Function.update v w ft.cb
    | _ => v
  | _ => v

/-- How often the callback is still to end. -/
def unfinished [Fintype W] (s : Machine W D O) (v : W → Option Callback) (cb : Callback) : Nat :=
  s.fibers.countP (fun ft ↦ ft.cb = some cb) + ∑ w, (s.worker w).pc.hand (v w) cb

/-- Whether a step ends the callback. -/
def finishes (s : Machine W D O) (v : W → Option Callback) (cb : Callback) : Action W D O → Nat
  | .yield w _ =>
    match (s.worker w).pc with
    | .at .running .callback _ => if v w = some cb then 1 else 0
    | _ => 0
  | _ => 0

variable {s s' : Machine W D O} {w : W} {v v' : W → Option Callback} {cb : Callback}

omit [DecidableEq D] [DecidableEq O] in
theorem executing_of_ne {x : W} (hx : x ≠ w) : s.executing v (.work w) x = v x := by
  cases hpc : (s.worker w).pc with
  | dispatch ft isActive => simp only [executing, hpc, Function.update_of_ne hx]
  | _ => simp only [executing, hpc]

omit [DecidableEq D] [DecidableEq O] in
theorem executing_dispatch {ft : FiberAndThread} {isActive : Bool}
    (hpc : (s.worker w).pc = .dispatch ft isActive) : s.executing v (.work w) w = ft.cb := by
  simp only [executing, hpc, Function.update_self]

omit [DecidableEq D] [DecidableEq O] in
theorem executing_other (hpc : ∀ ft isActive, (s.worker w).pc ≠ .dispatch ft isActive) :
    s.executing v (.work w) = v := by
  unfold executing
  dsimp only
  split
  · rename_i ft isActive heq
    exact absurd heq (hpc ft isActive)
  · rfl

variable [Fintype W]

omit [DecidableEq D] [DecidableEq O] in
theorem unfinished_moved (s s' : Machine W D O) (cb : Callback) {wk : Worker}
    (hworker : s'.worker = Function.update s.worker w wk) (hv : ∀ x, x ≠ w → v' x = v x) :
    ∑ x, (s'.worker x).pc.hand (v' x) cb + (s.worker w).pc.hand (v w) cb =
      ∑ x, (s.worker x).pc.hand (v x) cb + wk.pc.hand (v' w) cb := by
  have hsum := Counter.sum_change (f := fun x ↦ (s'.worker x).pc.hand (v' x) cb)
    (g := fun x ↦ (s.worker x).pc.hand (v x) cb) w fun x hx ↦ by
      rw [hworker, Function.update_of_ne hx, hv x hx]
  rw [hsum, hworker, Function.update_self]

omit [DecidableEq D] [DecidableEq O] in
theorem unfinished_kept {wk : Worker} (hq : s'.fibers = s.fibers)
    (hworker : s'.worker = Function.update s.worker w wk) (hv : ∀ x, x ≠ w → v' x = v x)
    (hhand : wk.pc.hand (v' w) cb = (s.worker w).pc.hand (v w) cb) :
    s'.unfinished v' cb = s.unfinished v cb := by
  have hmoved := unfinished_moved s s' cb hworker hv
  rw [hhand] at hmoved
  unfold unfinished
  rw [hq, Nat.add_right_cancel hmoved]

omit [DecidableEq D] [DecidableEq O] in
/-- From one stage to another that the callback has as much before it. -/
theorem unfinished_stage {st st' : Stage} {role : Role} {f : FiberId}
    (hpc : (s.worker w).pc = .at st role f) (hq : s'.fibers = s.fibers)
    (hworker : s'.worker = Function.update s.worker w { s.worker w with pc := .at st' role f })
    (hst : st'.unended = st.unended) :
    s'.unfinished (s.executing v (.work w)) cb = s.unfinished v cb := by
  refine unfinished_kept hq hworker (fun _ ↦ executing_of_ne) ?_
  rw [executing_other (by rw [hpc]; nofun), hpc]
  cases hend : st.unended with
  | true => exact Pc.hand_of_unended hend (hst.trans hend)
  | false => rw [Pc.hand_of_ended hend, Pc.hand_of_ended (hst.trans hend)]

omit [DecidableEq D] [DecidableEq O] in
/-- An entry without a callback counts for nothing. -/
theorem unfinished_bare {ft : FiberAndThread} {isActive : Bool} {wk : Worker}
    (hpc : (s.worker w).pc = .dispatch ft isActive) (hcb : ft.cb = none)
    (hhand : ∀ c, wk.pc.hand c cb = 0) (hq : s'.fibers = s.fibers)
    (hworker : s'.worker = Function.update s.worker w wk) :
    s'.unfinished (s.executing v (.work w)) cb = s.unfinished v cb := by
  refine unfinished_kept hq hworker (fun _ ↦ executing_of_ne) ?_
  rw [hhand, hpc]
  show 0 = if ft.cb = some cb then 1 else 0
  rw [hcb, if_neg nofun]

omit [DecidableEq D] [DecidableEq O] in
/-- What leaves the queue is in the worker's hands. -/
theorem unfinished_took {ft : FiberAndThread} {rest : List FiberAndThread}
    (hpc : (s.worker w).pc = .scan)
    (htake : takeFirst (s.takeable (s.worker w).thread) s.fibers = some (ft, rest)) :
    unfinished ({ s with fibers := rest, activeThreadCount := s.activeThreadCount + 1 }.setPc w
      (.dispatch ft true)) (s.executing v (.work w)) cb = s.unfinished v cb := by
  obtain ⟨-, a, b, hl, rfl⟩ := takeFirst_some htake
  have hmoved := unfinished_moved s
    ({ s with fibers := a ++ b, activeThreadCount := s.activeThreadCount + 1 }.setPc w
      (.dispatch ft true)) cb rfl fun x (_ : x ≠ w) ↦ (rfl : v x = v x)
  rw [executing_other (by rw [hpc]; nofun)]
  unfold unfinished
  rw [hpc] at hmoved
  rw [hl]
  show (a ++ b).countP _ + _ = _
  rw [List.countP_append, List.countP_append, List.countP_cons]
  change _ + 0 = _ + (if ft.cb = some cb then 1 else 0) at hmoved
  simp only [decide_eq_true_eq]
  omega

omit [DecidableEq D] [DecidableEq O] in
theorem Straight.unfinished_worked (h : Straight made s) (hs : Worked s w s') :
    s'.unfinished (s.executing v (.work w)) cb = s.unfinished v cb := by
  have hne : ∀ x, x ≠ w → s.executing v (.work w) x = v x := fun _ ↦ executing_of_ne
  cases hs with
  | took hpc _ htake => exact unfinished_took hpc htake
  | foundNone hpc =>
      refine unfinished_kept rfl rfl hne ?_
      rw [hpc]
      rfl
  | @resumed ft isActive f hpc hf _ =>
      have hcb : ft.cb = none := by
        obtain ⟨t, rfl⟩ := (h.worker w).proper.entry hpc fun heq ↦ by
          rw [heq] at hf
          cases hf
        cases t with
        | fiber => rfl
        | callback => cases hf
      exact unfinished_bare hpc hcb (fun _ ↦ rfl) rfl rfl
  | @reused ft isActive c hpc _ _ hc _ =>
      refine unfinished_kept rfl rfl hne ?_
      rw [executing_dispatch hpc, hpc]
      show (if true = true ∧ ft.cb = some cb then 1 else 0) = if ft.cb = some cb then 1 else 0
      simp only [true_and]
  | @made ft isActive hpc _ _ hc =>
      refine unfinished_kept rfl rfl hne ?_
      rw [executing_dispatch hpc, hpc]
      show (if true = true ∧ ft.cb = some cb then 1 else 0) = if ft.cb = some cb then 1 else 0
      simp only [true_and]
  | dropped hpc _ hcb =>
      exact unfinished_bare hpc (Option.not_isSome_iff_eq_none.mp (by rw [hcb]; nofun)) (fun _ ↦ rfl)
        rfl rfl
  | idled hpc _ hcb hpc' =>
      refine unfinished_bare hpc (Option.not_isSome_iff_eq_none.mp (by rw [hcb]; nofun)) (fun _ ↦ ?_)
        rfl rfl
      rcases hpc' with rfl | rfl
      · rfl
      · rfl
  | checked hpc => exact unfinished_stage hpc rfl rfl rfl
  | marked hpc => exact unfinished_stage hpc rfl rfl rfl
  | switchedIn hpc => exact unfinished_stage hpc rfl rfl rfl
  | switchedOut hpc => exact unfinished_stage hpc rfl rfl rfl
  | decremented hpc => exact unfinished_stage hpc rfl rfl rfl
  | @examined role f hpc =>
      rw [examined_of_finished ((h.worker w).finds _ _ _ hpc)]
      refine unfinished_kept rfl rfl hne ?_
      rw [hpc, Pc.hand_of_ended rfl]
      cases role with
      | task => rfl
      | callback => exact Pc.hand_of_ended rfl
  | requeued hpc => exact ((h.worker w).finds _ _ _ hpc).elim
  | held hpc => exact ((h.worker w).finds _ _ _ hpc).elim
  | retired hpc =>
      refine unfinished_kept rfl rfl hne ?_
      rw [hpc, Pc.hand_of_ended rfl]
      rfl
  | awoke hpc =>
      refine unfinished_kept rfl rfl hne ?_
      rw [hpc]
      rfl

/-- A callback comes in when it is scheduled and goes out when it ends. -/
theorem Straight.unfinished_step (h : Straight made s) {a : Action W D O}
    (hok : InOnePiece made s a) (hs : Of Machine.step s a s') :
    s.unfinished v cb + enters cb a = s'.unfinished (s.executing v a) cb + s.finishes v cb a := by
  cases step_cases hs with
  | scheduled =>
      obtain ⟨t, rfl, -⟩ := hok
      have hexecuting : s.executing v (.schedule t.entry) = v := rfl
      rw [hexecuting]
      unfold unfinished
      show _ = (scheduleNoLock s.fibers t.entry).2.countP _ + _ + _
      rw [scheduled_fibers, List.countP_append, List.countP_singleton]
      show _ + _ + (if t.entry.cb = some cb then 1 else 0) = _ + _ + _ + 0
      simp only [decide_eq_true_eq]
      omega
  | worked hw =>
      rw [h.unfinished_worked hw]
      rfl
  | @yielded w y role f hpc =>
      have hmoved := unfinished_moved s ((s.setState f y.state).setPc w (.at .leaving role f)) cb
        rfl fun x (_ : x ≠ w) ↦ (rfl : v x = v x)
      have hfinishes : s.finishes v cb (.yield w y : Action W D O) =
          (s.worker w).pc.hand (v w) cb := by
        unfold finishes
        dsimp only
        rw [hpc]
        cases role with
        | task => rfl
        | callback =>
            show (if v w = some cb then 1 else 0) = if true = true ∧ v w = some cb then 1 else 0
            simp only [true_and]
      have hexecuting : s.executing v (.yield w y) = v := rfl
      rw [Pc.hand_of_ended rfl, Nat.add_zero] at hmoved
      rw [hfinishes, hexecuting]
      unfold unfinished
      rw [← hmoved]
      exact (Nat.add_assoc _ _ _).symm
  | @idleEnded w hpc =>
      have hkept : (s.setWorker w { s.worker w with pc := .scan, idleDone := true }).unfinished v cb =
          s.unfinished v cb := by
        refine unfinished_kept rfl rfl (fun _ _ ↦ rfl) ?_
        rw [hpc]
        rfl
      exact hkept.symm
  | eventAdded | callbackAdded | deleted | triggered | pushed | uncounted => exact hok.elim
  | _ => rfl

end Machine

end Server
