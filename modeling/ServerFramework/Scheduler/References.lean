import ServerFramework.Fiber.Switch
import ServerFramework.Scheduler.Machine

/-!
# Who owns a fiber

The `Fiber::ptr`s to each fiber, while one worker executes `Scheduler::run`: those of the queue, of
`run`, of the event contexts, of the users, and the `cur`s on the fiber's own stack.  One step is one
change of a pointer, a state or the running coroutine.
-/

namespace Server.References

open Runs Switch IOManager

/-- The `cur`s on a fiber's own stack. -/
inductive Frames where
  /-- not started, or about to leave `mainFunc` for the last time -/
  | empty
  /-- the one of `mainFunc` or `callerMainFunc` -/
  | main
  /-- and one of a function that switches away -/
  | yielding
  deriving DecidableEq, Repr

def Frames.refs : Frames → Nat
  | .empty => 0
  | .main => 1
  | .yielding => 2

structure Owned where
  state : FiberState
  frames : Frames
  deriving DecidableEq, Repr

/-- The pointer of `run` through which a fiber is resumed. -/
inductive Slot where
  | ft
  | cbFiber
  | idleFiber
  deriving DecidableEq, Repr

/-- Where the worker is with a fiber. -/
inductive Stage where
  /-- in `swapIn` -/
  | swapIn
  /-- at the start of `mainFunc`, or back in the function that switched away -/
  | entered
  | running
  /-- `yieldToHold` or `yieldToReady`, with its `cur` -/
  | yielding (p : Pause)
  /-- `IOManager::idle`, with its `cur` -/
  | letting
  /-- `mainFunc` has written the last state -/
  | ending
  /-- without a `cur`, about to call `swapOut` of a raw pointer -/
  | switching
  /-- in `run` again -/
  | back
  deriving DecidableEq, Repr

inductive Pc where
  /-- `run` has not begun, or has ended -/
  | outside
  | done
  /-- in `callerMainFunc`, before its `cur` -/
  | rootEntered
  /-- `callerMainFunc` has written the last state -/
  | rootEnding
  /-- without a `cur`, about to call `back` of a raw pointer -/
  | rootSwitching
  /-- `ft.reset()` at the top of the loop -/
  | top
  | scan
  | dispatch (isActive : Bool)
  /-- `ft.reset()` before `cbFiber->swapIn()` -/
  | clearFt (cbFiber : FiberId)
  | at (stage : Stage) (slot : Slot) (f : FiberId)
  /-- `ft.reset()` and `cbFiber.reset()` after the fiber is dealt with -/
  | dropFt
  | dropCbFiber
  deriving DecidableEq, Repr

/-- An `EventContext` with a fiber. -/
structure Waiting where
  fd : Nat
  event : Event
  fiber : FiberId
  deriving DecidableEq, Repr

structure State where
  fibers : List FiberAndThread
  ft : FiberAndThread
  cbFiber : Option FiberId
  idleFiber : Option FiberId
  /-- `m_rootFiber` -/
  rootFiber : Option FiberId
  contexts : List Waiting
  /-- pointers that the users of the library hold -/
  users : List FiberId
  fiber : FiberId → Owned
  nextFiber : FiberId
  pc : Pc

/-- What the fibers and the users do; `work` is the next step of the library. -/
inductive Act where
  | work
  /-- the fiber that runs calls `yieldToHold` or `yieldToReady` -/
  | pause (p : Pause)
  /-- `IOManager::idle` is about to switch away -/
  | letGo
  /-- the callback returns or throws -/
  | finish (o : Outcome)
  /-- `Fiber(cb)` -/
  | newFiber
  | schedule (ft : FiberAndThread)
  | dropPointer (f : FiberId)
  /-- the fiber that runs calls `getThis` -/
  | getThis
  /-- the fiber that runs calls `addEvent` without a callback -/
  | addEvent (fd : Nat) (event : Event)
  | delEvent (fd : Nat) (event : Event)
  /-- `triggerEvent` -/
  | trigger (fd : Nat) (event : Event)
  deriving DecidableEq, Repr

def noEntry : FiberAndThread := ⟨none, none, -1⟩

namespace State

variable {s s' : State} {f g : FiberId} {stage : Stage} {slot : Slot} {act : Act} {acts : List Act}

/-- A scheduler before `run`, with a root fiber if it uses its caller. -/
def start (useCaller : Bool) : State :=
  ⟨[], noEntry, none, none, if useCaller then some 0 else none, [], [],
    fun _ ↦ ⟨.init, .empty⟩, 1, .outside⟩

/-! ## References -/

/-- All pointers but those on the fibers' own stacks. -/
def pointers (s : State) : List FiberId :=
  s.fibers.filterMap FiberAndThread.fiber ++
    (s.ft.fiber.toList ++ (s.cbFiber.toList ++ (s.idleFiber.toList ++ (s.rootFiber.toList ++
      (s.contexts.map Waiting.fiber ++ s.users)))))

/-- `use_count()` -/
def count (s : State) (f : FiberId) : Nat := s.pointers.count f + (s.fiber f).frames.refs

def get (s : State) : Slot → Option FiberId
  | .ft => s.ft.fiber
  | .cbFiber => s.cbFiber
  | .idleFiber => s.idleFiber

/-! ## Steps -/

def setFiber (s : State) (f : FiberId) (v : Owned) : State :=
  { s with fiber := Function.update s.fiber f v }

def setState (s : State) (f : FiberId) (state : FiberState) : State :=
  s.setFiber f { s.fiber f with state := state }

def setFrames (s : State) (f : FiberId) (frames : Frames) : State :=
  s.setFiber f { s.fiber f with frames := frames }

/-- A new fiber, which is `s.nextFiber`. -/
def newFiber (s : State) : State :=
  { s.setFiber s.nextFiber ⟨.init, .empty⟩ with nextFiber := s.nextFiber + 1 }

def goto (s : State) (pc : Pc) : State := { s with pc := pc }

/-- `run` up to its loop. -/
def begin (s : State) : State :=
  { s.newFiber with idleFiber := some s.nextFiber, cbFiber := none, ft := noEntry, pc := .top }

/-- Whether `run` takes an entry: it is for this worker, and its fiber is not in `EXEC`. -/
def takes (s : State) (thread : Int) (e : FiberAndThread) : Bool :=
  (e.thread == -1 || e.thread == thread) &&
    match e.fiber with
    | some f => decide ((s.fiber f).state ≠ .exec)
    | none => true

/-- `cbFiber->reset(ft.cb)`, or a new `cbFiber`. -/
def takeCallback (s : State) : Option State :=
  match s.cbFiber with
  | some c =>
    if (s.fiber c).state.resettable then some ((s.setState c .init).goto (.clearFt c)) else none
  | none => some { s.newFiber with cbFiber := some s.nextFiber, pc := .clearFt s.nextFiber }

/-- `run` returns, and its pointers are gone. -/
def leave (s : State) : State :=
  { s with ft := noEntry, cbFiber := none, idleFiber := none, pc := .done }

/-- Without an entry, or with one that is left out. -/
def beIdle (s : State) (isActive : Bool) : Option State :=
  if isActive then some (s.goto .top)
  else
    match s.idleFiber with
    | none => none
    | some i =>
      if (s.fiber i).state = .term then
        match s.rootFiber with
        | none => some s.leave
        -- `callerMainFunc` goes on
        | some r => some ((s.leave.setState r .term).goto .rootEnding)
      else some (s.goto (.at .swapIn .idleFiber i))

def dispatch (s : State) (isActive : Bool) : Option State :=
  match s.ft.fiber.filter fun f ↦ !(s.fiber f).state.finished with
  | some f => some (s.goto (.at .swapIn .ft f))
  | none => if s.ft.cb.isSome then s.takeCallback else s.beIdle isActive

/-- What `run` does with a fiber that has switched back. -/
def examine (s : State) (slot : Slot) (f : FiberId) : State :=
  let state := (s.fiber f).state
  let queued := { s with fibers := (scheduleNoLock s.fibers (.ofFiber (some f) (-1))).2 }
  match slot with
  | .ft =>
    if state = .ready then queued.goto .dropFt
    else if !state.finished then (s.setState f .hold).goto .dropFt
    else s.goto .dropFt
  | .cbFiber =>
    if state = .ready then queued.goto .dropCbFiber
    else if state.finished then (s.setState f .init).goto .top
    else (s.setState f .hold).goto .dropCbFiber
  | .idleFiber => if !state.finished then (s.setState f .hold).goto .top else s.goto .top

/-- The next step with a fiber. -/
def workAt (s : State) (stage : Stage) (slot : Slot) (f : FiberId) : Option State :=
  match stage with
  | .swapIn =>
    if (s.fiber f).state = .exec then none
    else some ((s.setState f .exec).goto (.at .entered slot f))
  | .entered => some ((s.setFrames f .main).goto (.at .running slot f))
  | .running => none
  | .yielding p => some ((s.setState f p.state).goto (.at .back slot f))
  | .letting => some ((s.setFrames f .main).goto (.at .switching slot f))
  | .ending => some ((s.setFrames f .empty).goto (.at .switching slot f))
  | .switching => some (s.goto (.at .back slot f))
  | .back => some (s.examine slot f)

/-- `run` and the functions of `Fiber`, on the worker `thread`. -/
def work (thread : Int) (s : State) : Option State :=
  match s.pc with
  | .outside =>
    match s.rootFiber with
    | none => some s.begin
    | some r => some ((s.setState r .exec).goto .rootEntered)
  | .done => if s.rootFiber.isNone then some s.begin else none
  | .rootEntered => s.rootFiber.map fun r ↦ (s.setFrames r .main).begin
  | .rootEnding => s.rootFiber.map fun r ↦ (s.setFrames r .empty).goto .rootSwitching
  | .rootSwitching => some (s.goto .done)
  | .top => some { s with ft := noEntry, pc := .scan }
  | .scan =>
    match takeFirst (s.takes thread) s.fibers with
    | none => some (s.goto (.dispatch false))
    | some (e, rest) => some { s with fibers := rest, ft := e, pc := .dispatch true }
  | .dispatch isActive => s.dispatch isActive
  | .clearFt c => some { s with ft := noEntry, pc := .at .swapIn .cbFiber c }
  | .at stage slot f => s.workAt stage slot f
  | .dropFt => some { s with ft := noEntry, pc := .top }
  | .dropCbFiber => some { s with cbFiber := none, pc := .top }

/-- The idle fiber and the others end and yield each in their own ways. -/
def perform (s : State) (slot : Slot) (f : FiberId) : Act → Option State
  | .pause p => some ((s.setFrames f .yielding).goto (.at (.yielding p) slot f))
  | .letGo =>
    if slot = .idleFiber then some ((s.setFrames f .yielding).goto (.at .letting slot f)) else none
  | .finish o =>
    if slot = .idleFiber ∧ o = .throws then none
    else some ((s.setState f o.state).goto (.at .ending slot f))
  | .getThis => if slot = .idleFiber then none else some { s with users := f :: s.users }
  | .addEvent fd event =>
    if slot = .idleFiber ∨ s.contexts.any fun c ↦ c.fd == fd && c.event == event then none
    else some { s with contexts := ⟨fd, event, f⟩ :: s.contexts }
  | _ => none

def step (thread : Int) (s : State) : Act → Option State
  | .work => s.work thread
  | .newFiber => some { s.newFiber with users := s.nextFiber :: s.users }
  | .schedule ft =>
    if ft.fiber.all s.users.contains then
      some { s with fibers := (scheduleNoLock s.fibers ft).2 }
    else none
  | .dropPointer f => if f ∈ s.users then some { s with users := s.users.erase f } else none
  | .delEvent fd event =>
    (takeFirst (fun c ↦ c.fd == fd && c.event == event) s.contexts).map fun (_, contexts) ↦
      { s with contexts := contexts }
  | .trigger fd event =>
    (takeFirst (fun c ↦ c.fd == fd && c.event == event) s.contexts).map fun (c, contexts) ↦
      { s with contexts := contexts, fibers := (scheduleNoLock s.fibers (.ofFiber (some c.fiber) (-1))).2 }
  | a =>
    match s.pc with
    | .at .running slot f => s.perform slot f a
    | _ => none

/-! ## Pointers are copies -/

theorem mem_pointers : g ∈ s.pointers ↔ (∃ e ∈ s.fibers, e.fiber = some g) ∨ s.ft.fiber = some g ∨
    s.cbFiber = some g ∨ s.idleFiber = some g ∨ s.rootFiber = some g ∨
      (∃ c ∈ s.contexts, c.fiber = g) ∨ g ∈ s.users := by
  simp only [pointers, List.mem_append, List.mem_filterMap, Option.mem_toList, List.mem_map]

theorem mem_of_entry {e : FiberAndThread} (he : e ∈ s.fibers) (hg : e.fiber = some g) :
    g ∈ s.pointers :=
  mem_pointers.mpr (.inl ⟨e, he, hg⟩)

theorem mem_of_cbFiber (h : s.cbFiber = some g) : g ∈ s.pointers :=
  mem_pointers.mpr (.inr (.inr (.inl h)))

theorem mem_of_root (h : s.rootFiber = some g) : g ∈ s.pointers :=
  mem_pointers.mpr (.inr (.inr (.inr (.inr (.inl h)))))

theorem mem_of_context {c : Waiting} (hc : c ∈ s.contexts) : c.fiber ∈ s.pointers :=
  mem_pointers.mpr (.inr (.inr (.inr (.inr (.inr (.inl ⟨c, hc, rfl⟩))))))

theorem mem_of_user (h : g ∈ s.users) : g ∈ s.pointers :=
  mem_pointers.mpr (.inr (.inr (.inr (.inr (.inr (.inr h))))))

theorem get_mem (h : s.get slot = some f) : f ∈ s.pointers := by
  rw [mem_pointers]
  cases slot with
  | ft => exact .inr (.inl h)
  | cbFiber => exact .inr (.inr (.inl h))
  | idleFiber => exact .inr (.inr (.inr (.inl h)))

theorem count_pos_iff : 0 < s.count f ↔ f ∈ s.pointers ∨ (s.fiber f).frames ≠ .empty := by
  have hrefs : 0 < (s.fiber f).frames.refs ↔ (s.fiber f).frames ≠ .empty := by
    cases (s.fiber f).frames <;> decide
  unfold count
  rw [← List.count_pos_iff, ← hrefs]
  omega

/-- A step makes pointers only to a new fiber and to fibers that somebody points to. -/
structure Copies (s s' : State) : Prop where
  next : s.nextFiber ≤ s'.nextFiber
  pointers : ∀ g ∈ s'.pointers, g ∈ s.pointers ∨ s.nextFiber ≤ g ∧ g < s'.nextFiber
  frames : ∀ g < s.nextFiber, (s'.fiber g).frames ≠ .empty → 0 < s.count g

/-- A fiber is destroyed only once. -/
theorem Copies.count_zero (h : Copies s s') (hf : f < s.nextFiber) (hzero : s.count f = 0) :
    s'.count f = 0 := by
  by_contra hne
  rcases count_pos_iff.mp (Nat.pos_of_ne_zero hne) with hmem | hframes
  · rcases h.pointers f hmem with hold | ⟨hnew, _⟩
    · exact absurd (count_pos_iff.mpr (.inl hold)) (by omega)
    · exact absurd hf (Nat.not_lt_of_le hnew)
  · exact absurd (h.frames f hf hframes) (by omega)

end State

/-! ## The invariant -/

/-- The states in which a fiber must not be destroyed. -/
def Active (st : FiberState) : Prop := st = .hold ∨ st = .ready ∨ st = .exec

/-- What a worker relies on while it is at a stage with a fiber. -/
def StageOk : Stage → Owned → Prop
  | .swapIn, _ => True
  | .entered, v => v.state = .exec
  | .running, v | .yielding _, v | .letting, v => v.state = .exec ∧ v.frames ≠ .empty
  | .ending, v => ¬ Active v.state ∧ v.state ≠ .init
  | .switching, v | .back, v => v.state ≠ .init

namespace State

variable {s s' : State} {f g : FiberId} {stage : Stage} {slot : Slot} {act : Act} {acts : List Act}

def PcOk (s : State) : Prop :=
  match s.pc with
  | .at stage slot f => s.get slot = some f ∧ StageOk stage (s.fiber f)
  | .clearFt c => s.cbFiber = some c
  | .rootEnding => ∀ r, s.rootFiber = some r → ¬ Active (s.fiber r).state
  | _ => True

/-- A fiber that has been switched to, and has no `cur` yet. -/
def Entering (s : State) (f : FiberId) : Prop :=
  (∃ slot, s.pc = .at .entered slot f) ∨ s.pc = .rootEntered ∧ s.rootFiber = some f

structure Safe (s : State) : Prop where
  pc : PcOk s
  live : ∀ f, Active (s.fiber f).state → (s.fiber f).frames ≠ .empty ∨ Entering s f
  allocated : ∀ f ∈ s.pointers, f < s.nextFiber

theorem start_safe (useCaller : Bool) : Safe (start useCaller) := by
  refine ⟨trivial, fun f hf ↦ ?_, fun f hf ↦ ?_⟩
  · rcases hf with h | h | h <;> cases h
  · cases useCaller with
    | true =>
        have hzero : f = 0 := by simpa [start, pointers, noEntry] using hf
        rw [hzero]
        decide
    | false => simp [start, pointers, noEntry] at hf

/-! ## One step -/

theorem Copies.trans {s'' : State} (h : Copies s s') (h' : Copies s' s'') : Copies s s'' := by
  refine ⟨h.next.trans h'.next, fun g hg ↦ ?_, fun g hg hframes ↦ ?_⟩
  · rcases h'.pointers g hg with hold | ⟨hle, hlt⟩
    · rcases h.pointers g hold with hold | ⟨hle, hlt⟩
      · exact .inl hold
      · exact .inr ⟨hle, Nat.lt_of_lt_of_le hlt h'.next⟩
    · exact .inr ⟨h.next.trans hle, hlt⟩
  -- a pointer in the end is one in between, and that is one in the beginning
  · have hmid := h'.frames g (Nat.lt_of_lt_of_le hg h.next) hframes
    by_contra hzero
    exact absurd (h.count_zero hg (Nat.eq_zero_of_not_pos hzero)) (Nat.ne_of_gt hmid)

theorem Safe.allocated_of (h : Safe s) (hcopies : Copies s s') : ∀ f ∈ s'.pointers, f < s'.nextFiber := by
  intro f hf
  rcases hcopies.pointers f hf with hold | ⟨_, hlt⟩
  · exact Nat.lt_of_lt_of_le (h.allocated f hold) hcopies.next
  · exact hlt

/-- What a step keeps and does not do. -/
def Good (s s' : State) : Prop := Safe s' ∧ Copies s s'

/-- A step that changes no fiber, and drops or moves pointers. -/
theorem Safe.moves (h : Safe s) (hnext : s'.nextFiber = s.nextFiber) (hfiber : s'.fiber = s.fiber)
    (hpointers : ∀ g ∈ s'.pointers, g ∈ s.pointers) (hleft : ∀ g, Entering s g → Entering s' g)
    (hpc : PcOk s') : Good s s' := by
  have hcopies : Copies s s' := by
    refine ⟨Nat.le_of_eq hnext.symm, fun g hg ↦ .inl (hpointers g hg), fun g _ hframes ↦ ?_⟩
    rw [hfiber] at hframes
    exact count_pos_iff.mpr (.inr hframes)
  refine ⟨⟨hpc, fun g hg ↦ ?_, h.allocated_of hcopies⟩, hcopies⟩
  rw [hfiber] at hg ⊢
  exact (h.live g hg).imp_right (hleft g)

/-- A step that changes one fiber, to which there is a pointer. -/
theorem Safe.changes (h : Safe s) (f : FiberId) (v : Owned) (pc : Pc) (howned : f ∈ s.pointers)
    (hself : Active v.state → v.frames ≠ .empty ∨ Entering ((s.setFiber f v).goto pc) f)
    (hleft : ∀ g, Entering s g → g = f) (hpc : PcOk ((s.setFiber f v).goto pc)) :
    Good s ((s.setFiber f v).goto pc) := by
  have hother : ∀ g ≠ f, ((s.setFiber f v).goto pc).fiber g = s.fiber g := fun g hg ↦
    Function.update_of_ne hg _ _
  have hfiber : ((s.setFiber f v).goto pc).fiber f = v := Function.update_self _ _ _
  have hcopies : Copies s ((s.setFiber f v).goto pc) := by
    refine ⟨Nat.le_refl _, fun g hg ↦ .inl hg, fun g _ hframes ↦ ?_⟩
    by_cases hg : g = f
    · rw [hg]
      exact count_pos_iff.mpr (.inl howned)
    · rw [hother g hg] at hframes
      exact count_pos_iff.mpr (.inr hframes)
  refine ⟨⟨hpc, fun g hg ↦ ?_, h.allocated_of hcopies⟩, hcopies⟩
  by_cases hgf : g = f
  · rw [hgf, hfiber] at hg ⊢
    exact hself hg
  · rw [hother g hgf] at hg ⊢
    rcases h.live g hg with hframes | hentering
    · exact .inl hframes
    · exact absurd (hleft g hentering) hgf

theorem not_entering {pc : Pc} (hpc : s.pc = pc) (hslot : ∀ slot f, pc ≠ .at .entered slot f)
    (hroot : pc ≠ .rootEntered) (g : FiberId) : ¬ Entering s g := by
  intro hentering
  rcases hentering with ⟨slot, hpc'⟩ | ⟨hpc', _⟩
  · exact hslot slot g (hpc.symm.trans hpc')
  · exact hroot (hpc.symm.trans hpc')

theorem entering_eq (hpc : s.pc = .at stage slot f) (hentering : Entering s g) : g = f := by
  rcases hentering with ⟨slot', hpc'⟩ | ⟨hpc', _⟩
  · rw [hpc] at hpc'
    cases hpc'
    rfl
  · rw [hpc] at hpc'
    cases hpc'

theorem newFiber_live (hlive : ∀ g, Active (s.fiber g).state → (s.fiber g).frames ≠ .empty) :
    ∀ g, Active (s.newFiber.fiber g).state → (s.newFiber.fiber g).frames ≠ .empty := by
  intro g hg
  by_cases hnew : g = s.nextFiber
  · have hfiber : s.newFiber.fiber g = ⟨.init, .empty⟩ := by
      rw [hnew]
      exact Function.update_self _ _ _
    rw [hfiber] at hg
    rcases hg with h | h | h <;> cases h
  · have hfiber : s.newFiber.fiber g = s.fiber g := Function.update_of_ne hnew _ _
    rw [hfiber] at hg ⊢
    exact hlive g hg

theorem newFiber_copies (hfiber : s'.fiber = s.newFiber.fiber) (hnext : s'.nextFiber = s.nextFiber + 1)
    (hpointers : ∀ g ∈ s'.pointers, g ∈ s.pointers ∨ g = s.nextFiber) : Copies s s' := by
  refine ⟨hnext ▸ Nat.le_succ _, fun g hg ↦ ?_, fun g hg hframes ↦ ?_⟩
  · rcases hpointers g hg with hold | rfl
    · exact .inl hold
    · exact .inr ⟨Nat.le_refl _, hnext ▸ Nat.lt_succ_self _⟩
  · have hold : s.newFiber.fiber g = s.fiber g := Function.update_of_ne (Nat.ne_of_lt hg) _ _
    rw [hfiber, hold] at hframes
    exact count_pos_iff.mpr (.inr hframes)

theorem Safe.begin (h : Safe s)
    (hlive : ∀ g, Active (s.fiber g).state → (s.fiber g).frames ≠ .empty) : Good s s.begin := by
  have hcopies : Copies s s.begin := by
    refine newFiber_copies (s := s) rfl rfl fun g hg ↦ ?_
    rw [mem_pointers] at hg ⊢
    rcases hg with hg | hg | hg | hg | hg
    · exact .inl (.inl hg)
    · cases hg
    · cases hg
    · exact .inr (Option.some.inj hg).symm
    · exact .inl (.inr (.inr (.inr (.inr hg))))
  exact ⟨⟨trivial, fun g hg ↦ .inl (newFiber_live hlive g hg), h.allocated_of hcopies⟩, hcopies⟩

/-- Without a switch under way every active fiber has its `cur`. -/
theorem Safe.live_of (h : Safe s) (hnot : ∀ g, ¬ Entering s g) :
    ∀ g, Active (s.fiber g).state → (s.fiber g).frames ≠ .empty :=
  fun g hg ↦ (h.live g hg).resolve_right (hnot g)

theorem not_active_init : ¬ Active .init := by
  intro h
  rcases h with h | h | h <;> cases h

theorem not_active_term : ¬ Active .term := by
  intro h
  rcases h with h | h | h <;> cases h

theorem active_of {st : FiberState} (hinit : st ≠ .init) (hfinished : st.finished = false) :
    Active st := by
  cases st with
  | init => exact absurd rfl hinit
  | hold => exact .inl rfl
  | ready => exact .inr (.inl rfl)
  | exec => exact .inr (.inr rfl)
  | term | except => cases hfinished

theorem Safe.takeCallback (h : Safe s) (hnot : ∀ g, ¬ Entering s g) (hs : s.takeCallback = some s') :
    Good s s' := by
  unfold State.takeCallback at hs
  cases hc : s.cbFiber with
  | some c =>
      rw [hc] at hs
      dsimp only at hs
      split at hs
      · obtain rfl := Option.some.inj hs
        exact h.changes c _ _ (mem_of_cbFiber hc) (fun ha ↦ absurd ha not_active_init)
          (fun g hg ↦ absurd hg (hnot g)) hc
      · cases hs
  | none =>
      rw [hc] at hs
      obtain rfl := Option.some.inj hs
      have hcopies : Copies s { s.newFiber with
          cbFiber := some s.nextFiber, pc := .clearFt s.nextFiber } := by
        refine newFiber_copies (s := s) rfl rfl fun g hg ↦ ?_
        rw [mem_pointers] at hg ⊢
        rcases hg with hg | hg | hg | hg
        · exact .inl (.inl hg)
        · exact .inl (.inr (.inl hg))
        · exact .inr (Option.some.inj hg).symm
        · exact .inl (.inr (.inr (.inr hg)))
      exact ⟨⟨rfl, fun g hg ↦ .inl (newFiber_live (h.live_of hnot) g hg),
        h.allocated_of hcopies⟩, hcopies⟩

theorem Safe.goto (h : Safe s) (hnot : ∀ g, ¬ Entering s g) {pc : Pc} (hpc : PcOk (s.goto pc)) :
    Good s (s.goto pc) :=
  h.moves rfl rfl (fun _ hg ↦ hg) (fun g hg ↦ absurd hg (hnot g)) hpc

theorem Safe.leave (h : Safe s) (hnot : ∀ g, ¬ Entering s g) : Good s s.leave := by
  refine h.moves rfl rfl (fun g hg ↦ ?_) (fun g hg ↦ absurd hg (hnot g)) trivial
  rw [mem_pointers] at hg ⊢
  rcases hg with hg | hg | hg | hg | hg
  · exact .inl hg
  · cases hg
  · cases hg
  · cases hg
  · exact .inr (.inr (.inr (.inr hg)))

theorem Safe.beIdle (h : Safe s) (hnot : ∀ g, ¬ Entering s g) {isActive : Bool}
    (hs : s.beIdle isActive = some s') : Good s s' := by
  unfold State.beIdle at hs
  split at hs
  · obtain rfl := Option.some.inj hs
    exact h.goto hnot trivial
  · cases hi : s.idleFiber with
    | none =>
        rw [hi] at hs
        cases hs
    | some i =>
        rw [hi] at hs
        dsimp only at hs
        -- an idle fiber that has ended ends `run`, and the root fiber with it
        split at hs
        · have hleave := h.leave hnot
          cases hr : s.rootFiber with
          | none =>
              rw [hr] at hs
              obtain rfl := Option.some.inj hs
              exact hleave
          | some r =>
              rw [hr] at hs
              obtain rfl := Option.some.inj hs
              have hroot : r ∈ s.leave.pointers := by
                rw [mem_pointers]
                exact .inr (.inr (.inr (.inr (.inl hr))))
              have hended := hleave.1.changes r ⟨.term, (s.fiber r).frames⟩ .rootEnding hroot
                (fun ha ↦ absurd ha not_active_term)
                (fun g hg ↦ absurd hg
                  (not_entering (rfl : s.leave.pc = .done) (fun _ _ ↦ nofun) nofun g)) (by
                  intro r' hr'
                  have heq : r' = r := Option.some.inj (hr'.symm.trans hr)
                  show ¬ Active (Function.update s.fiber r _ r').state
                  rw [heq, Function.update_self]
                  exact not_active_term)
              exact ⟨hended.1, hleave.2.trans hended.2⟩
        · obtain rfl := Option.some.inj hs
          exact h.goto hnot ⟨hi, trivial⟩

theorem Safe.dispatch (h : Safe s) (hnot : ∀ g, ¬ Entering s g) {isActive : Bool}
    (hs : s.dispatch isActive = some s') : Good s s' := by
  unfold State.dispatch at hs
  split at hs
  · rename_i f hf
    obtain rfl := Option.some.inj hs
    exact h.goto hnot ⟨(Option.filter_eq_some_iff.mp hf).1, trivial⟩
  · split at hs
    · exact h.takeCallback hnot hs
    · exact h.beIdle hnot hs

theorem Safe.examine (h : Safe s) (hpc : s.pc = .at .back slot f) : Good s (s.examine slot f) := by
  have hok := h.pc
  unfold PcOk at hok
  rw [hpc] at hok
  obtain ⟨hget, hinit⟩ := hok
  have hnot : ∀ g, ¬ Entering s g := not_entering hpc (fun _ _ ↦ nofun) nofun
  have howned := get_mem hget
  have hqueued : ∀ pc, PcOk (s.goto pc) → Good s ({ s with
      fibers := (scheduleNoLock s.fibers (.ofFiber (some f) (-1))).2 }.goto pc) := by
    intro pc hok
    refine h.moves rfl rfl (fun g hg ↦ ?_) (fun g hg ↦ absurd hg (hnot g)) hok
    rw [mem_pointers] at hg
    rcases hg with ⟨e, he, heg⟩ | hg
    -- the new entry copies `ft.fiber` or `cbFiber`
    · rcases List.mem_append.mp he with he | he
      · exact mem_pointers.mpr (.inl ⟨e, he, heg⟩)
      · rw [List.mem_singleton.mp he] at heg
        exact Option.some.inj heg ▸ howned
    · exact mem_pointers.mpr (.inr hg)
  -- a fiber that has not ended is held, and still has its `cur`
  have hhold : ∀ pc, (s.fiber f).state.finished = false → PcOk ((s.setState f .hold).goto pc) →
      Good s ((s.setState f .hold).goto pc) := by
    intro pc hfinished hok
    have hframes := h.live_of hnot f (active_of hinit hfinished)
    exact h.changes f _ pc howned (fun _ ↦ .inl hframes) (fun g hg ↦ absurd hg (hnot g)) hok
  unfold State.examine
  cases slot with
  | ft =>
      dsimp only
      split
      · exact hqueued _ trivial
      · split
        · rename_i hfinished
          exact hhold _ (by simpa using hfinished) trivial
        · exact h.goto hnot trivial
  | cbFiber =>
      dsimp only
      split
      · exact hqueued _ trivial
      · split
        · exact h.changes f _ _ howned (fun ha ↦ absurd ha not_active_init)
            (fun g hg ↦ absurd hg (hnot g)) trivial
        · rename_i hfinished
          exact hhold _ (Bool.eq_false_iff.mpr hfinished) trivial
  | idleFiber =>
      dsimp only
      split
      · rename_i hfinished
        exact hhold _ (by simpa using hfinished) trivial
      · exact h.goto hnot trivial

theorem Safe.workAt (h : Safe s) (hpc : s.pc = .at stage slot f)
    (hs : s.workAt stage slot f = some s') : Good s s' := by
  have hok := h.pc
  unfold PcOk at hok
  rw [hpc] at hok
  obtain ⟨hget, hstage⟩ := hok
  have howned := get_mem hget
  have hleft : ∀ g, Entering s g → g = f := fun g hg ↦ entering_eq hpc hg
  -- what is left for each stage: the state that is written, and what the next stage relies on
  have hchange : ∀ (v : Owned) (next : Stage), (Active v.state → v.frames ≠ .empty ∨ next = .entered) →
      StageOk next v → Good s ((s.setFiber f v).goto (.at next slot f)) := by
    intro v next hself hnext
    apply h.changes f v _ howned _ hleft
    · refine ⟨?_, ?_⟩
      · cases slot <;> exact hget
      · show StageOk next (Function.update s.fiber f v f)
        rw [Function.update_self]
        exact hnext
    · intro ha
      rcases hself ha with hframes | rfl
      · exact .inl hframes
      · exact .inr (.inl ⟨slot, rfl⟩)
  cases stage with
  | swapIn =>
      unfold State.workAt at hs
      dsimp only at hs
      split at hs
      · cases hs
      · obtain rfl := Option.some.inj hs
        exact hchange _ .entered (fun _ ↦ .inr rfl) rfl
  -- `cur` is taken from `shared_from_this` while the slot still holds the fiber
  | entered =>
      obtain rfl := Option.some.inj hs
      exact hchange ⟨(s.fiber f).state, .main⟩ .running (fun _ ↦ .inl nofun) ⟨hstage, nofun⟩
  | running => cases hs
  | yielding p =>
      obtain rfl := Option.some.inj hs
      apply hchange ⟨p.state, (s.fiber f).frames⟩ .back
      · exact fun _ ↦ .inl hstage.2
      · cases p <;> nofun
  | letting =>
      obtain rfl := Option.some.inj hs
      apply hchange ⟨(s.fiber f).state, .main⟩ .switching
      · exact fun _ ↦ .inl nofun
      · show (s.fiber f).state ≠ .init
        rw [hstage.1]
        nofun
  | ending =>
      obtain rfl := Option.some.inj hs
      apply hchange ⟨(s.fiber f).state, .empty⟩ .switching
      · exact fun ha ↦ absurd ha hstage.1
      · exact hstage.2
  -- `cur` is gone, and the worker goes on with the pointer in the slot
  | switching =>
      obtain rfl := Option.some.inj hs
      have hnot : ∀ g, ¬ Entering s g :=
        not_entering hpc (fun _ _ ↦ nofun) nofun
      apply h.goto hnot
      refine ⟨?_, hstage⟩
      cases slot <;> exact hget
  | back =>
      obtain rfl := Option.some.inj hs
      exact h.examine hpc

theorem Safe.dropFt (h : Safe s) (hnot : ∀ g, ¬ Entering s g) {pc : Pc}
    (hpc : PcOk ({ s with ft := noEntry }.goto pc)) : Good s ({ s with ft := noEntry }.goto pc) := by
  refine h.moves rfl rfl (fun g hg ↦ ?_) (fun g hg ↦ absurd hg (hnot g)) hpc
  rw [mem_pointers] at hg ⊢
  rcases hg with hg | hg | hg
  · exact .inl hg
  · cases hg
  · exact .inr (.inr hg)

theorem Safe.scan (h : Safe s) (hnot : ∀ g, ¬ Entering s g) {p : FiberAndThread → Bool}
    {e : FiberAndThread} {rest : List FiberAndThread} (htake : takeFirst p s.fibers = some (e, rest)) :
    Good s { s with fibers := rest, ft := e, pc := .dispatch true } := by
  obtain ⟨_, before, after, hfibers, hrest⟩ := takeFirst_some htake
  refine h.moves rfl rfl (fun g hg ↦ ?_) (fun g hg ↦ absurd hg (hnot g)) trivial
  rw [mem_pointers] at hg ⊢
  rw [hfibers]
  rcases hg with ⟨d, hd, hdg⟩ | hg | hg
  · have hmem : d ∈ before ++ after := hrest ▸ hd
    refine .inl ⟨d, ?_, hdg⟩
    rcases List.mem_append.mp hmem with hmem | hmem
    · exact List.mem_append_left _ hmem
    · exact List.mem_append_right _ (List.mem_cons_of_mem _ hmem)
  · exact .inl ⟨e, List.mem_append_right _ List.mem_cons_self, hg⟩
  · exact .inr (.inr hg)

theorem Safe.enterRoot (h : Safe s) (hpc : s.pc = .rootEntered) {r : FiberId}
    (hr : s.rootFiber = some r) : Good s (s.setFrames r .main).begin := by
  have howned : r ∈ s.pointers := mem_of_root hr
  have hleft : ∀ g, Entering s g → g = r := by
    intro g hg
    rcases hg with ⟨slot, hat⟩ | ⟨_, hroot⟩
    · rw [hpc] at hat
      cases hat
    · exact Option.some.inj (hroot.symm.trans hr)
  have hmain := h.changes r ⟨(s.fiber r).state, .main⟩ .outside howned (fun _ ↦ .inl nofun) hleft
    trivial
  have hlive := hmain.1.live_of (not_entering (rfl : _ = Pc.outside) (fun _ _ ↦ nofun) nofun)
  have hbegin := hmain.1.begin hlive
  exact ⟨hbegin.1, hmain.2.trans hbegin.2⟩

theorem Safe.work (h : Safe s) {thread : Int} (hs : s.work thread = some s') : Good s s' := by
  have hok := h.pc
  unfold PcOk at hok
  unfold State.work at hs
  cases hpc : s.pc with
  | outside =>
      have hnot : ∀ g, ¬ Entering s g := not_entering hpc (fun _ _ ↦ nofun) nofun
      rw [hpc] at hs
      dsimp only at hs
      split at hs
      · obtain rfl := Option.some.inj hs
        exact h.begin (h.live_of hnot)
      · rename_i r hr
        obtain rfl := Option.some.inj hs
        have howned : r ∈ s.pointers := mem_of_root hr
        exact h.changes r _ _ howned (fun _ ↦ .inr (.inr ⟨rfl, hr⟩))
          (fun g hg ↦ absurd hg (hnot g)) trivial
  | done =>
      have hnot : ∀ g, ¬ Entering s g := not_entering hpc (fun _ _ ↦ nofun) nofun
      rw [hpc] at hs
      dsimp only at hs
      split at hs
      · obtain rfl := Option.some.inj hs
        exact h.begin (h.live_of hnot)
      · cases hs
  | rootEntered =>
      rw [hpc] at hs
      obtain ⟨r, hr, rfl⟩ := Option.map_eq_some_iff.mp hs
      exact h.enterRoot hpc hr
  | rootEnding =>
      have hnot : ∀ g, ¬ Entering s g := not_entering hpc (fun _ _ ↦ nofun) nofun
      rw [hpc] at hs hok
      obtain ⟨r, hr, rfl⟩ := Option.map_eq_some_iff.mp hs
      have howned : r ∈ s.pointers := mem_of_root hr
      exact h.changes r _ _ howned (fun ha ↦ absurd ha (hok r hr))
        (fun g hg ↦ absurd hg (hnot g)) trivial
  | rootSwitching =>
      rw [hpc] at hs
      obtain rfl := Option.some.inj hs
      exact h.goto (not_entering hpc (fun _ _ ↦ nofun) nofun) trivial
  | top | dropFt =>
      rw [hpc] at hs
      obtain rfl := Option.some.inj hs
      exact h.dropFt (not_entering hpc (fun _ _ ↦ nofun) nofun) trivial
  | scan =>
      have hnot : ∀ g, ¬ Entering s g := not_entering hpc (fun _ _ ↦ nofun) nofun
      rw [hpc] at hs
      dsimp only at hs
      split at hs
      · obtain rfl := Option.some.inj hs
        exact h.goto hnot trivial
      · rename_i e rest htake
        obtain rfl := Option.some.inj hs
        exact h.scan hnot htake
  | dispatch isActive =>
      rw [hpc] at hs
      exact h.dispatch (not_entering hpc (fun _ _ ↦ nofun) nofun) hs
  | clearFt c =>
      rw [hpc] at hs hok
      obtain rfl := Option.some.inj hs
      exact h.dropFt (not_entering hpc (fun _ _ ↦ nofun) nofun) ⟨hok, trivial⟩
  | «at» stage slot f =>
      rw [hpc] at hs
      exact h.workAt hpc hs
  | dropCbFiber =>
      have hnot : ∀ g, ¬ Entering s g := not_entering hpc (fun _ _ ↦ nofun) nofun
      rw [hpc] at hs
      obtain rfl := Option.some.inj hs
      refine h.moves rfl rfl (fun g hg ↦ ?_) (fun g hg ↦ absurd hg (hnot g)) trivial
      rw [mem_pointers] at hg ⊢
      rcases hg with hg | hg | hg | hg
      · exact .inl hg
      · exact .inr (.inl hg)
      · cases hg
      · exact .inr (.inr (.inr hg))

theorem PcOk.of_same (h : PcOk s) (hpc : s'.pc = s.pc) (hget : ∀ slot, s'.get slot = s.get slot)
    (hcb : s'.cbFiber = s.cbFiber) (hroot : s'.rootFiber = s.rootFiber)
    (hfiber : ∀ f ∈ s.pointers, s'.fiber f = s.fiber f) : PcOk s' := by
  unfold PcOk at *
  rw [hpc, hcb, hroot]
  cases hs : s.pc with
  | «at» stage slot f =>
      rw [hs] at h
      dsimp only
      rw [hget, hfiber f (get_mem h.1)]
      exact h
  | rootEnding =>
      rw [hs] at h
      intro r hr
      rw [hfiber r (mem_of_root hr)]
      exact h r hr
  | clearFt c =>
      rw [hs] at h
      exact h
  | _ => trivial

/-- Pointers of the queue, the event contexts and the users to fibers that are pointed to already
change nothing for a worker. -/
theorem Safe.share (h : Safe s) (fibers : List FiberAndThread) (contexts : List Waiting)
    (users : List FiberId) (hfibers : ∀ e ∈ fibers, ∀ g, e.fiber = some g → g ∈ s.pointers)
    (hcontexts : ∀ c ∈ contexts, c.fiber ∈ s.pointers) (husers : ∀ g ∈ users, g ∈ s.pointers) :
    Good s { s with fibers := fibers, contexts := contexts, users := users } := by
  refine h.moves rfl rfl (fun g hg ↦ ?_) (fun _ hg ↦ hg) ?_
  · rw [mem_pointers] at hg
    rcases hg with ⟨e, he, heg⟩ | hg | hg | hg | hg | ⟨c, hc, rfl⟩ | hg
    · exact hfibers e he g heg
    · exact mem_pointers.mpr (.inr (.inl hg))
    · exact mem_pointers.mpr (.inr (.inr (.inl hg)))
    · exact mem_pointers.mpr (.inr (.inr (.inr (.inl hg))))
    · exact mem_of_root hg
    · exact hcontexts c hc
    · exact husers g hg
  · exact h.pc.of_same rfl (fun slot ↦ by cases slot <;> rfl) rfl rfl fun _ _ ↦ rfl

theorem mem_schedule {ft e : FiberAndThread} (h : e ∈ (scheduleNoLock s.fibers ft).2) :
    e ∈ s.fibers ∨ e = ft := by
  unfold scheduleNoLock at h
  dsimp only at h
  split at h
  · exact (List.mem_append.mp h).imp_right List.mem_singleton.mp
  · exact .inl h

theorem Safe.perform (h : Safe s) (hpc : s.pc = .at .running slot f)
    (hs : s.perform slot f act = some s') : Good s s' := by
  have hok := h.pc
  unfold PcOk at hok
  rw [hpc] at hok
  obtain ⟨hget, hstate, hframes⟩ := hok
  have howned := get_mem hget
  have hleft : ∀ g, Entering s g → g = f := fun g hg ↦ entering_eq hpc hg
  have hchange : ∀ (v : Owned) (next : Stage), v.frames ≠ .empty → StageOk next v →
      Good s ((s.setFiber f v).goto (.at next slot f)) := by
    intro v next hv hnext
    refine h.changes f v _ howned (fun _ ↦ .inl hv) hleft ⟨?_, ?_⟩
    · cases slot <;> exact hget
    · show StageOk next (Function.update s.fiber f v f)
      rw [Function.update_self]
      exact hnext
  cases act with
  | pause p =>
      obtain rfl := Option.some.inj hs
      exact hchange ⟨_, .yielding⟩ _ nofun ⟨hstate, nofun⟩
  | letGo =>
      unfold State.perform at hs
      dsimp only at hs
      split at hs
      · obtain rfl := Option.some.inj hs
        exact hchange ⟨_, .yielding⟩ _ nofun ⟨hstate, nofun⟩
      · cases hs
  -- the callback is over, and `mainFunc` still has its `cur`
  | finish o =>
      unfold State.perform at hs
      dsimp only at hs
      split at hs
      · cases hs
      · obtain rfl := Option.some.inj hs
        apply hchange ⟨o.state, _⟩ _ hframes
        cases o with
        | returns => exact ⟨not_active_term, nofun⟩
        | throws =>
            refine ⟨fun ha ↦ ?_, nofun⟩
            rcases ha with ha | ha | ha <;> cases ha
  | getThis =>
      unfold State.perform at hs
      dsimp only at hs
      split at hs
      · cases hs
      · obtain rfl := Option.some.inj hs
        refine h.share _ _ _ (fun _ he _ ↦ mem_of_entry he) (fun _ ↦ mem_of_context) fun g hg ↦ ?_
        rcases List.mem_cons.mp hg with rfl | hg
        · exact howned
        · exact mem_of_user hg
  | addEvent fd event =>
      unfold State.perform at hs
      dsimp only at hs
      split at hs
      · cases hs
      · obtain rfl := Option.some.inj hs
        refine h.share _ _ _ (fun _ he _ ↦ mem_of_entry he) (fun c hc ↦ ?_) fun _ ↦ mem_of_user
        rcases List.mem_cons.mp hc with rfl | hc
        · exact howned
        · exact mem_of_context hc
  | work | newFiber | schedule _ | dropPointer _ | delEvent _ _ | trigger _ _ => cases hs

theorem Safe.newFiber (h : Safe s) :
    Good s { s.newFiber with users := s.nextFiber :: s.users } := by
  have hcopies : Copies s { s.newFiber with users := s.nextFiber :: s.users } := by
    refine newFiber_copies (s := s) rfl rfl fun g hg ↦ ?_
    rw [mem_pointers] at hg ⊢
    rcases hg with hg | hg | hg | hg | hg | hg | hg
    · exact .inl (.inl hg)
    · exact .inl (.inr (.inl hg))
    · exact .inl (.inr (.inr (.inl hg)))
    · exact .inl (.inr (.inr (.inr (.inl hg))))
    · exact .inl (.inr (.inr (.inr (.inr (.inl hg)))))
    · exact .inl (.inr (.inr (.inr (.inr (.inr (.inl hg))))))
    · rcases List.mem_cons.mp hg with rfl | hg
      · exact .inr rfl
      · exact .inl (.inr (.inr (.inr (.inr (.inr (.inr hg))))))
  have hold : ∀ f ∈ s.pointers, s.newFiber.fiber f = s.fiber f := fun f hf ↦
    Function.update_of_ne (Nat.ne_of_lt (h.allocated f hf)) _ _
  refine ⟨⟨?_, fun g hg ↦ ?_, h.allocated_of hcopies⟩, hcopies⟩
  · exact h.pc.of_same rfl (fun slot ↦ by cases slot <;> rfl) rfl rfl hold
  · by_cases hnew : g = s.nextFiber
    · have hfiber : s.newFiber.fiber g = ⟨.init, .empty⟩ := by
        rw [hnew]
        exact Function.update_self _ _ _
      have hg : Active (s.newFiber.fiber g).state := hg
      rw [hfiber] at hg
      exact absurd hg not_active_init
    · have hfiber : s.newFiber.fiber g = s.fiber g := Function.update_of_ne hnew _ _
      have hg : Active (s.newFiber.fiber g).state := hg
      show (s.newFiber.fiber g).frames ≠ .empty ∨ _
      rw [hfiber] at hg ⊢
      exact h.live g hg

theorem removeContext {p : Waiting → Bool} {c : Waiting} {rest : List Waiting}
    (htake : takeFirst p s.contexts = some (c, rest)) :
    c.fiber ∈ s.pointers ∧ ∀ d ∈ rest, d.fiber ∈ s.pointers := by
  obtain ⟨_, before, after, hcontexts, hrest⟩ := takeFirst_some htake
  refine ⟨mem_of_context (hcontexts ▸ List.mem_append_right _ List.mem_cons_self), fun d hd ↦ ?_⟩
  apply mem_of_context
  rw [hrest] at hd
  rw [hcontexts]
  rcases List.mem_append.mp hd with hd | hd
  · exact List.mem_append_left _ hd
  · exact List.mem_append_right _ (List.mem_cons_of_mem _ hd)

theorem Safe.step (h : Safe s) {thread : Int} (hs : s.step thread act = some s') : Good s s' := by
  have hfibers : ∀ e ∈ s.fibers, ∀ g, e.fiber = some g → g ∈ s.pointers :=
    fun _ he _ hg ↦ mem_of_entry he hg
  cases act with
  | work => exact h.work hs
  | newFiber =>
      obtain rfl := Option.some.inj hs
      exact h.newFiber
  | schedule ft =>
      unfold State.step at hs
      dsimp only at hs
      split at hs
      · rename_i husers
        obtain rfl := Option.some.inj hs
        refine h.share _ _ _ (fun e he g hg ↦ ?_) (fun _ ↦ mem_of_context) fun _ ↦ mem_of_user
        rcases mem_schedule he with he | rfl
        · exact hfibers e he g hg
        · rw [hg] at husers
          exact mem_of_user (List.contains_iff_mem.mp husers)
      · cases hs
  | dropPointer f =>
      unfold State.step at hs
      dsimp only at hs
      split at hs
      · obtain rfl := Option.some.inj hs
        exact h.share _ _ _ hfibers (fun _ ↦ mem_of_context)
          fun g hg ↦ mem_of_user (List.mem_of_mem_erase hg)
      · cases hs
  | delEvent fd event =>
      obtain ⟨⟨c, rest⟩, htake, rfl⟩ := Option.map_eq_some_iff.mp hs
      exact h.share _ _ _ hfibers (removeContext htake).2 fun _ ↦ mem_of_user
  | trigger fd event =>
      obtain ⟨⟨c, rest⟩, htake, rfl⟩ := Option.map_eq_some_iff.mp hs
      obtain ⟨hc, hrest⟩ := removeContext htake
      refine h.share _ _ _ (fun e he g hg ↦ ?_) hrest fun _ ↦ mem_of_user
      rcases mem_schedule he with he | rfl
      · exact hfibers e he g hg
      · exact Option.some.inj hg ▸ hc
  | pause _ | letGo | finish _ | getThis | addEvent _ _ =>
      unfold State.step at hs
      dsimp only at hs
      split at hs
      · rename_i hpc
        exact h.perform hpc hs
      · cases hs

/-! ## Runs -/

/-- The fiber whose function has dropped its own `cur`, or is about to. -/
def Leaves (s : State) (f : FiberId) : Prop :=
  (∃ stage slot, s.pc = .at stage slot f ∧ (stage = .ending ∨ stage = .switching)) ∨
    (s.pc = .rootEnding ∨ s.pc = .rootSwitching) ∧ s.rootFiber = some f

/-- Whoever runs, a fiber that leaves `mainFunc` or `callerMainFunc` has an owner besides itself, no
fiber is destroyed that is held, ready or executing, and none comes back. -/
theorem fibers_owned {useCaller : Bool} {thread : Int}
    (h : Run (Of (step thread)) (start useCaller) acts s) :
    (∀ f, Leaves s f → f ∈ s.pointers) ∧ (∀ f, Active (s.fiber f).state → 0 < s.count f) ∧
      ∀ acts' s', Run (Of (step thread)) s acts' s' →
        ∀ f < s.nextFiber, s.count f = 0 → s'.count f = 0 := by
  have hsafe : Safe s :=
    h.invariant (I := Safe) (fun _ _ _ hs hstep ↦ (hs.step hstep).1) (start_safe useCaller)
  refine ⟨fun f hf ↦ ?_, fun f hf ↦ ?_, fun acts' s' hrun f hf hzero ↦ ?_⟩
  · have hok := hsafe.pc
    unfold PcOk at hok
    rcases hf with ⟨stage, slot, hpc, _⟩ | ⟨_, hroot⟩
    · rw [hpc] at hok
      exact get_mem hok.1
    · exact mem_of_root hroot
  · apply count_pos_iff.mpr
    -- held by its own `cur`, or by whoever is about to switch to it
    rcases hsafe.live f hf with hframes | ⟨slot, hpc⟩ | ⟨_, hroot⟩
    · exact .inr hframes
    · have hok := hsafe.pc
      unfold PcOk at hok
      rw [hpc] at hok
      exact .inl (get_mem hok.1)
    · exact .inl (mem_of_root hroot)
  · have hcopies : Copies s s' := by
      apply hrun.relates (I := Safe) (P := Copies) _ _ _ _ hsafe
      · exact fun t ↦ ⟨Nat.le_refl _, fun _ hg ↦ .inl hg, fun _ _ hg ↦ count_pos_iff.mpr (.inr hg)⟩
      · exact fun _ _ _ ↦ Copies.trans
      · exact fun _ _ _ hs hstep ↦ (hs.step hstep).1
      · exact fun _ _ _ hs hstep ↦ (hs.step hstep).2
    exact hcopies.count_zero hf hzero

/-- A callback that returns in the root fiber's `run`, held by `cbFiber` alone. -/
theorem fibers_owned_callback : ∃ acts s, Run (Of (step 0)) (start true) acts s ∧ Leaves s 2 ∧
    s.count 2 = 2 ∧ 2 ∈ s.pointers := by
  obtain ⟨s, hrun, hs⟩ := exists_run (step 0) (fun _ _ ↦ true) (fun _ _ _ hstep _ ↦ hstep)
    (start true)
    [.schedule ⟨none, some 7, -1⟩, .work, .work, .work, .work, .work, .work, .work, .work,
      .finish .returns]
    (P := fun s ↦ decide (s.pc = .at .ending .cbFiber 2 ∧ s.count 2 = 2)) (by decide +kernel)
  obtain ⟨hpc, hcount⟩ := of_decide_eq_true hs
  have hleaves : Leaves s 2 := .inl ⟨_, _, hpc, .inl rfl⟩
  exact ⟨_, s, hrun, hleaves, hcount, (fibers_owned hrun).1 2 hleaves⟩

end State

end Server.References
