import ServerFramework.Scheduler.Single

/-!
# The fiber that a worker keeps for callbacks

`run` resets its `cbFiber` for every callback, and once more after it.  As long as nobody else puts the
fiber in the queue, it is in the state `INIT` whenever the worker is not executing it, and `reset` finds
it in a state that it accepts.
-/

namespace Server

open Runs

/-- A worker has its `cbFiber` at a stage of a callback, or the fiber is as `reset` left it. -/
structure Worker.Reuses (wk : Worker) (fiber : FiberId → Fiber) : Prop where
  lent : ∀ stage f, wk.pc = .at stage .callback f → wk.cbFiber = some f
  kept : ∀ f, wk.cbFiber = some f → (∃ stage, wk.pc = .at stage .callback f) ∨
    ((fiber f).state = .init ∧ wk.pc.fiber? ≠ some f)

variable {wk : Worker} {fiber fiber' : FiberId → Fiber}

theorem Worker.Reuses.congr (h : wk.Reuses fiber)
    (hsame : ∀ f, wk.cbFiber = some f → (fiber' f).state = (fiber f).state) : wk.Reuses fiber' where
  lent := h.lent
  kept := fun f hf ↦ by
    rw [hsame f hf]
    exact h.kept f hf

/-- Outside the stages of a callback the fiber is as `reset` left it. -/
theorem Worker.Reuses.init (h : wk.Reuses fiber) {f : FiberId} (hf : wk.cbFiber = some f)
    (hpc : ∀ stage, wk.pc ≠ .at stage .callback f) :
    (fiber f).state = .init ∧ wk.pc.fiber? ≠ some f := by
  rcases h.kept f hf with ⟨stage, heq⟩ | hinit
  · exact absurd heq (hpc stage)
  · exact hinit

/-- A worker that lets go of what it had. -/
theorem Worker.Reuses.free (h : wk.Reuses fiber) {pc : Pc} {idleDone : Bool}
    (hpc : ∀ stage f, wk.pc ≠ .at stage .callback f) (hpc' : pc.fiber? = none) :
    ({ wk with pc := pc, idleDone := idleDone } : Worker).Reuses fiber where
  lent := fun stage f heq ↦ by
    change pc = _ at heq
    rw [heq] at hpc'
    cases hpc'
  kept := fun f hf ↦ by
    right
    refine ⟨(h.init hf fun stage ↦ hpc stage f).1, ?_⟩
    show pc.fiber? ≠ some f
    rw [hpc']
    nofun

/-- From one stage to the next only the fiber at that stage changes. -/
theorem Worker.Reuses.stage (h : wk.Reuses fiber) {st st' : Stage} {role : Role} {g : FiberId}
    (hpc : wk.pc = .at st role g) (hsame : ∀ f, f ≠ g → (fiber' f).state = (fiber f).state) :
    ({ wk with pc := .at st' role g } : Worker).Reuses fiber' where
  lent := fun stage f heq ↦ by
    cases heq
    exact h.lent st g hpc
  kept := fun f hf ↦ by
    rcases h.kept f hf with ⟨stage, heq⟩ | ⟨hinit, hne⟩
    · rw [hpc] at heq
      cases heq
      exact .inl ⟨st', rfl⟩
    · rw [hpc] at hne
      right
      refine ⟨?_, hne⟩
      rw [hsame f fun heq ↦ hne (heq ▸ rfl)]
      exact hinit

/-- A fiber at a stage of a callback is the worker's own, any other is not. -/
theorem Worker.Reuses.gone (h : wk.Reuses fiber) {st : Stage} {role : Role} {f : FiberId}
    (hpc : wk.pc = .at st role f) : ¬ (if role = .callback then none else wk.cbFiber) = some f := by
  intro hcb
  rcases h.kept f (Machine.release_cbFiber hcb) with ⟨stage, heq⟩ | ⟨-, hne⟩
  · rw [hpc] at heq
    cases heq
    rw [if_pos rfl] at hcb
    cases hcb
  · rw [hpc] at hne
    exact hne rfl

theorem Worker.Reuses.released (h : wk.Reuses fiber) {st : Stage} {role : Role} {g : FiberId}
    (hpc : wk.pc = .at st role g) (hsame : ∀ f, f ≠ g → (fiber' f).state = (fiber f).state) :
    ({ wk with pc := .scan, cbFiber := if role = .callback then none else wk.cbFiber } :
      Worker).Reuses fiber' where
  lent := nofun
  kept := fun f hf ↦ by
    have hne : f ≠ g := by
      rintro rfl
      exact h.gone hpc hf
    have hpc' : ∀ stage, wk.pc ≠ .at stage .callback f := by
      intro stage heq
      rw [hpc] at heq
      cases heq
      exact hne rfl
    right
    refine ⟨?_, nofun⟩
    rw [hsame f hne]
    exact (h.init (Machine.release_cbFiber hf) hpc').1

namespace Machine

variable {W D O : Type} [DecidableEq W] [DecidableEq D] [DecidableEq O]
variable {s s' : Machine W D O} {w : W} {wk : Worker}

omit [DecidableEq D] [DecidableEq O] in
/-- A worker moves, and no other worker's `cbFiber` changes its state. -/
theorem reuses_moved (h : ∀ w, (s.worker w).Reuses s.fiber)
    (hworker : s'.worker = Function.update s.worker w wk)
    (hsame : ∀ w' f, w' ≠ w → (s.worker w').cbFiber = some f →
      (s'.fiber f).state = (s.fiber f).state)
    (hwk : wk.Reuses s'.fiber) (w' : W) : (s'.worker w').Reuses s'.fiber := by
  rw [hworker]
  by_cases hne : w' = w
  · subst hne
    rw [Function.update_self]
    exact hwk
  · rw [Function.update_of_ne hne]
    exact (h w').congr fun f hf ↦ hsame w' f hne hf

theorem state_update {fiber : FiberId → Fiber} {g : FiberId} {fb : Fiber} {f : FiberId} (hf : f ≠ g) :
    (Function.update fiber g fb f).state = (fiber f).state := by
  rw [Function.update_of_ne hf]

omit [DecidableEq W] [DecidableEq D] [DecidableEq O] in
/-- What a worker holds is no other worker's `cbFiber`. -/
theorem Owned.elsewhere {g : FiberId} (h : Owned s g) (hheld : (s.worker w).Holds g) {fb : Fiber}
    (w' : W) (f : FiberId) (hne : w' ≠ w) (hf : (s.worker w').cbFiber = some f) :
    (Function.update s.fiber g fb f).state = (s.fiber f).state := by
  apply state_update
  rintro rfl
  exact hne (h.unique w' w (.inr hf) hheld)

omit [DecidableEq D] [DecidableEq O] in
theorem reuses_worked (h : ∀ w, (s.worker w).Reuses s.fiber) (hk : s.Known)
    (howned : ∀ f, Owned s f) (hsingle : Single s) (hs : Worked s w s') :
    ∀ w', (s'.worker w').Reuses s'.fiber := by
  have hw := h w
  -- a worker at `scan`, `dispatch` or `idle` is at no stage of a callback
  have hout : ∀ {pc : Pc}, (s.worker w).pc = pc → (∀ stage f, pc ≠ .at stage .callback f) →
      ∀ stage f, (s.worker w).pc ≠ .at stage .callback f :=
    fun hpc hne stage f ↦ hpc ▸ hne stage f
  cases hs with
  | took hpc _ htake =>
      rcases takeFirst_some htake with ⟨-, a, b, hl, -⟩
      refine reuses_moved h rfl (fun _ _ _ _ ↦ rfl) ⟨nofun, fun f hf ↦ .inr ⟨?_, ?_⟩⟩
      · exact (hw.init hf fun stage ↦ hout hpc nofun stage f).1
      · -- what is queued is in nobody's hands
        intro heq
        apply hsingle.away f ⟨_, _, heq⟩ w (.inr hf)
        rw [hl]
        exact List.mem_append_right _ List.mem_cons_self
  | resumed hpc hf _ =>
      refine reuses_moved h rfl (fun _ _ _ _ ↦ rfl) ⟨nofun, fun g hg ↦ .inr ?_⟩
      have hinit := hw.init hg fun stage ↦ hout hpc nofun stage g
      refine ⟨hinit.1, fun heq ↦ hinit.2 ?_⟩
      rw [hpc]
      exact hf.trans heq
  | reused hpc _ _ hc _ =>
      refine reuses_moved h rfl ((howned _).elsewhere (.inr hc)) ⟨fun stage f heq ↦ ?_, fun f hf ↦ ?_⟩
      · cases heq
        exact hc
      · cases hc.symm.trans hf
        exact .inl ⟨.check, rfl⟩
  | made hpc =>
      refine reuses_moved h rfl (fun w' f _ hf ↦ ?_) ⟨fun stage f heq ↦ ?_, fun f hf ↦ ?_⟩
      · exact state_update (Nat.ne_of_lt (hk.held w' f (.inr hf)))
      · cases heq
        rfl
      · cases hf
        exact .inl ⟨.check, rfl⟩
  | foundNone hpc | dropped hpc | awoke hpc =>
      exact reuses_moved h rfl (fun _ _ _ _ ↦ rfl) (hw.free (hout hpc nofun) rfl)
  | idled hpc _ _ hpc' =>
      refine reuses_moved h rfl (fun _ _ _ _ ↦ rfl) (hw.free (hout hpc nofun) ?_)
      rcases hpc' with rfl | rfl <;> rfl
  | checked hpc | decremented hpc =>
      exact reuses_moved h rfl (fun _ _ _ _ ↦ rfl) (hw.stage hpc fun _ _ ↦ rfl)
  | marked hpc | switchedIn hpc | switchedOut hpc =>
      exact reuses_moved h rfl ((howned _).elsewhere (Worker.holds_of_at hpc))
        (hw.stage hpc fun _ hne ↦ state_update hne)
  | @examined role f hpc =>
      refine reuses_moved h rfl (fun _ _ _ _ ↦ rfl) ?_
      unfold examined
      split
      · exact hw.stage hpc fun _ _ ↦ rfl
      · split
        · cases role with
          | task => exact hw.free (hout hpc nofun) rfl
          | callback => exact hw.stage hpc fun _ _ ↦ rfl
        · exact hw.stage hpc fun _ _ ↦ rfl
  | requeued hpc =>
      exact reuses_moved h rfl (fun _ _ _ _ ↦ rfl) (hw.released hpc fun _ _ ↦ rfl)
  | held hpc =>
      exact reuses_moved h rfl ((howned _).elsewhere (Worker.holds_of_at hpc))
        (hw.released hpc fun _ hne ↦ state_update hne)
  | @retired role g hpc =>
      refine reuses_moved h rfl ((howned _).elsewhere (Worker.holds_of_at hpc))
        ⟨nofun, fun f hf ↦ .inr ⟨?_, nofun⟩⟩
      show (Function.update s.fiber g .fresh f).state = .init
      by_cases heq : f = g
      · rw [heq, Function.update_self]
        rfl
      · rw [state_update heq]
        refine (hw.init hf fun stage hstage ↦ heq ?_).1
        rw [hpc] at hstage
        cases hstage
        rfl

/-- What holds while nothing is put in the queue that somebody has. -/
structure InHand (s : Machine W D O) : Prop where
  known : s.Known
  owned : ∀ f, Owned s f
  single : Single s
  reuses : ∀ w, (s.worker w).Reuses s.fiber

theorem InHand.step (h : InHand s) {a : Action W D O} (hfree : s.Exclusive a)
    (hs : Of step s a s') : InHand s' where
  known := h.known.step hs
  owned := fun f ↦ (h.owned f).step h.known (h.single.takesUnheld f a) hs
  single := h.single.step h.known h.owned (fun w _ _ hpc ↦ (h.reuses w).gone hpc) hfree hs
  reuses := by
    cases step_cases hs with
    | newFiber =>
        intro w
        apply (h.reuses w).congr
        intro f hf
        exact state_update (Nat.ne_of_lt (h.known.held w f (.inr hf)))
    | worked hw => exact reuses_worked h.reuses h.known h.owned h.single hw
    | @yielded w _ _ f hpc =>
        exact reuses_moved h.reuses rfl ((h.owned f).elsewhere (Worker.holds_of_at hpc))
          ((h.reuses w).stage hpc fun _ hne ↦ state_update hne)
    | @idleEnded w hpc =>
        have hout : ∀ stage f, (s.worker w).pc ≠ .at stage .callback f := by
          intro stage f heq
          rw [hpc] at heq
          cases heq
        exact reuses_moved h.reuses rfl (fun _ _ _ _ ↦ rfl) ((h.reuses w).free hout rfl)
    | _ => exact h.reuses

omit [DecidableEq W] [DecidableEq D] [DecidableEq O] in
theorem start_inHand (thread : W → Int) : InHand (start thread : Machine W D O) where
  known := start_known thread
  owned := start_owned thread
  single := ⟨List.nodup_nil, fun _ ⟨_, hmem, _⟩ ↦ absurd hmem List.not_mem_nil⟩
  reuses := fun _ ↦ ⟨nofun, nofun⟩

/-! ## `reset` in `run` -/

/-- The fiber that the next step of a worker resets. -/
def resets (s : Machine W D O) (w : W) : Option FiberId :=
  match (s.worker w).pc with
  | .dispatch ft _ =>
    if (ft.fiber.filter fun f ↦ !(s.fiber f).state.finished).isNone && ft.cb.isSome then
      (s.worker w).cbFiber
    else none
  | .at .retire _ f => some f
  | _ => none

omit [DecidableEq W] [DecidableEq D] [DecidableEq O] in
theorem InHand.scanning (h : InHand s) (hpc : (s.worker w).pc = .scan) {f : FiberId}
    (hf : (s.worker w).cbFiber = some f) : (s.fiber f).state = .init :=
  ((h.reuses w).init hf fun stage heq ↦ by rw [hpc] at heq; cases heq).1

omit [DecidableEq W] [DecidableEq D] [DecidableEq O] in
theorem InHand.resettable (h : InHand s) {f : FiberId} (hf : s.resets w = some f) :
    (s.fiber f).state.resettable = true := by
  unfold resets at hf
  split at hf
  · rename_i ft isActive hpc
    split at hf
    · have hinit := (h.reuses w).init hf fun stage heq ↦ by rw [hpc] at heq; cases heq
      rw [hinit.1]
      rfl
    · cases hf
  · rename_i role g hpc
    cases hf
    have hfin := ((h.owned f).ok hpc).1
    revert hfin
    cases (s.fiber f).state <;> decide
  · cases hf

end Machine

end Server
