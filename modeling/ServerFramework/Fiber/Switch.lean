import ServerFramework.Scheduler.Tasks
import ServerFramework.Library.Runs
import Mathlib.Logic.Function.Basic

/-!
# Switching between the coroutines of a thread

The contexts that `swapIn` and `swapOut` save and resume on one thread.  `Fiber` keeps the running
coroutine and the thread's main coroutine in two thread-locals, `Scheduler` keeps a main fiber of its
own in a third, and the switches go by the last.
-/

namespace Server.Switch

open Runs

/-- `yieldToHold` or `yieldToReady`. -/
inductive Pause where
  | hold
  | ready
  deriving DecidableEq, Repr

def Pause.state : Pause → FiberState
  | .hold => .hold
  | .ready => .ready

inductive Outcome where
  | returns
  | throws
  deriving DecidableEq, Repr

def Outcome.state : Outcome → FiberState
  | .returns => .term
  | .throws => .except

/-- A callback, by the yields that split it and its end. -/
structure Body where
  pauses : List Pause
  outcome : Outcome
  deriving DecidableEq, Repr

/-- The state of a fiber after the part of its callback that follows the `n`-th yield. -/
def Body.after (b : Body) (n : Nat) : FiberState :=
  match b.pauses[n]? with
  | some p => p.state
  | none => b.outcome.state

/-- Where a coroutine goes on. -/
inductive Context where
  /-- `getcontext` in `Fiber()` -/
  | constructed
  /-- the code of the main coroutine, after the call that switched away -/
  | main
  /-- the start of `mainFunc` -/
  | mainFunc
  /-- the start of `callerMainFunc`, for `Scheduler::run` -/
  | callerMainFunc
  /-- in the callback of `cur`, after its `n`-th yield -/
  | callback (cur : FiberId) (n : Nat)
  /-- after the last `swapOut` of `mainFunc` -/
  | ended
  deriving DecidableEq, Repr

/-- What a fiber executes. -/
inductive Code where
  | main
  | body (b : Body)
  /-- `Scheduler::run` in `m_rootFiber` -/
  | root
  deriving DecidableEq, Repr

structure FiberObject where
  state : FiberState
  ctx : Context
  code : Code
  deriving DecidableEq, Repr

structure Thread where
  fiber : FiberId → FiberObject
  /-- the next fiber object -/
  next : FiberId
  /-- `t_fiber` of `Fiber` -/
  current : Option FiberId
  /-- `t_threadFiber` -/
  threadFiber : Option FiberId
  /-- `t_fiber` of `Scheduler`, which is `Scheduler::getMainFiber()` -/
  mainFiber : Option FiberId
  /-- whether `t_scheduler` is set -/
  hasScheduler : Bool
  /-- what the thread executes -/
  running : Context
  /-- the parts of callbacks that have been executed -/
  trace : List (FiberId × Nat)

inductive Fault where
  /-- `Scheduler::getMainFiber()->m_ctx` with a null pointer -/
  | nullMainFiber
  | assertion
  /-- a context that nothing here resumes -/
  | lost
  deriving DecidableEq, Repr

namespace Thread

variable {s s' s₁ s₂ : Thread} {f g m main : FiberId} {b : Body}

/-- A thread that has not used fibers yet. -/
def start : Thread :=
  ⟨fun _ ↦ ⟨.init, .constructed, .main⟩, 0, none, none, none, false, .main, []⟩

def setFiber (s : Thread) (f : FiberId) (v : FiberObject) : Thread :=
  { s with fiber := Function.update s.fiber f v }

def setState (s : Thread) (f : FiberId) (state : FiberState) : Thread :=
  s.setFiber f { s.fiber f with state := state }

/-- `setThis` -/
def setThis (s : Thread) (f : Option FiberId) : Thread := { s with current := f }

def newObject (s : Thread) (v : FiberObject) : Thread :=
  { s.setFiber s.next v with next := s.next + 1 }

/-- `Fiber::getThis()` -/
def getThis (s : Thread) : FiberId × Thread :=
  match s.current with
  | some f => (f, s)
  | none =>
    let main := s.next
    (main, { s.newObject ⟨.exec, .constructed, .main⟩ with
      current := some main, threadFiber := some main })

/-- `swapcontext(&save->m_ctx, &resume->m_ctx)`, which is to return to `here`. -/
def swapcontext (s : Thread) (save : FiberId) (here : Context) (resume : FiberId) : Thread :=
  let s := s.setFiber save { s.fiber save with ctx := here }
  { s with running := (s.fiber resume).ctx }

/-- `swapIn`, which the main coroutine calls -/
def swapIn (s : Thread) (f : FiberId) : Except Fault Thread :=
  let s := s.setThis (some f)
  -- the assertion comes after `setThis`, and fails before `m_state` is written
  if (s.fiber f).state = .exec then .error .assertion
  else
    let s := s.setState f .exec
    match s.mainFiber with
    | none => .error .nullMainFiber
    | some m => .ok (s.swapcontext m .main f)

def swapOut (s : Thread) (f : FiberId) (here : Context) : Except Fault Thread :=
  let s := s.setThis s.mainFiber
  match s.mainFiber with
  | none => .error .nullMainFiber
  | some m => .ok (s.swapcontext f here m)

/-- `yieldToHold` and `yieldToReady` -/
def yield (s : Thread) (p : Pause) (here : Context) : Except Fault Thread :=
  -- a thread that has no main coroutine yet has two null pointers here, and fails as well
  if s.current = s.threadFiber then .error .assertion
  else
    let (cur, s) := s.getThis
    (s.setState cur p.state).swapOut cur here

/-- The callback of `cur` in `mainFunc`, from its `n`-th yield to the next one or to its end. -/
def execute (s : Thread) (cur : FiberId) (n : Nat) : Except Fault Thread :=
  match (s.fiber cur).code with
  | .body b =>
    let s := { s with trace := s.trace ++ [(cur, n)] }
    match b.pauses[n]? with
    | some p => s.yield p (.callback cur (n + 1))
    -- the callback has returned or thrown; `mainFunc` switches away and is not to come back
    | none => (s.setState cur b.outcome.state).swapOut cur .ended
  | _ => .error .lost

/-- What the thread executes up to the next switch. -/
def advance (s : Thread) : Except Fault Thread :=
  match s.running with
  | .mainFunc =>
    let (cur, s) := s.getThis
    s.execute cur 0
  | .callback cur n => s.execute cur n
  -- "never reach fiber_id"
  | .ended => .error .assertion
  | .main | .constructed | .callerMainFunc => .error .lost

/-- `Scheduler::Scheduler` -/
def newScheduler (s : Thread) (useCaller : Bool) : Except Fault Thread :=
  if useCaller then
    let s := s.getThis.2
    -- the thread gets its main coroutine before the assertion that it has no `Scheduler`
    if s.hasScheduler then .error .assertion
    else
      let root := s.next
      .ok { s.newObject ⟨.init, .callerMainFunc, .root⟩ with
        hasScheduler := true, mainFiber := some root }
  else .ok s

/-- The start of `Scheduler::run` on a thread of the pool. -/
def run (s : Thread) : Thread :=
  let (main, s) := s.getThis
  { s with hasScheduler := true, mainFiber := some main }

end Thread

/-- What the main coroutine does, and what a fiber does. -/
inductive Act where
  | getThis
  /-- `Fiber(cb)` -/
  | newFiber (b : Body)
  | newScheduler (useCaller : Bool)
  /-- `~Scheduler`, which leaves the main fiber of the `Scheduler` -/
  | deleteScheduler
  | run
  | swapIn (f : FiberId)
  | advance
  deriving DecidableEq, Repr

namespace Thread

variable {s s' s₁ s₂ : Thread} {f g m main : FiberId} {b : Body} {acts : List Act}

def perform (s : Thread) : Act → Except Fault Thread
  | .getThis => .ok s.getThis.2
  | .newFiber b => .ok (s.newObject ⟨.init, .mainFunc, .body b⟩)
  | .newScheduler useCaller => s.newScheduler useCaller
  | .deleteScheduler => .ok { s with hasScheduler := false }
  | .run => .ok s.run
  | .swapIn f => s.swapIn f
  | .advance => s.advance

/-- The coroutine that is running acts. -/
def step (s : Thread) (act : Act) : Option Thread :=
  if s.running = .main ↔ act ≠ .advance then (s.perform act).toOption else none

/-- `swapIn` is called once the thread has a main coroutine, for fibers that have not ended. -/
def Legal (s : Thread) : Act → Prop
  | .swapIn f => s.threadFiber.isSome ∧ (∃ b, (s.fiber f).code = .body b) ∧
    (s.fiber f).state ≠ .term ∧ (s.fiber f).state ≠ .except
  | _ => True

/-- How often a fiber has been resumed. -/
def resumed (s : Thread) (f : FiberId) : Nat := s.trace.countP (·.1 == f)

/-- A `swapIn` of `f` switches to `s₁`, and from there the thread gets to `s₂`. -/
structure Resumes (s : Thread) (f main : FiberId) (b : Body) (s₁ s₂ : Thread) : Prop where
  swapIn : s.swapIn f = .ok s₁
  advance : s₁.advance = .ok s₂
  /-- the context of the caller is saved in its own fiber -/
  saved : (s₁.fiber main).ctx = .main
  /-- the callback is executed from where it stopped -/
  trace : s₂.trace = s.trace ++ [(f, s.resumed f)]
  state : (s₂.fiber f).state = b.after (s.resumed f)
  running : s₂.running = .main
  current : s₂.current = some main
  others : ∀ g, g ≠ f → g ≠ main → s₂.fiber g = s.fiber g

/-- The law of `swapIn`. -/
def Lawful (s : Thread) (f main : FiberId) (b : Body) : Prop := ∃ s₁ s₂, Resumes s f main b s₁ s₂

/-! ## Threads whose main coroutine is running -/

/-- A fiber that has been resumed `n` times. -/
def objectAt (b : Body) (f : FiberId) : Nat → FiberObject
  | 0 => ⟨.init, .mainFunc, .body b⟩
  | n + 1 => ⟨b.after n, if n < b.pauses.length then .callback f (n + 1) else .ended, .body b⟩

structure Idle (s : Thread) : Prop where
  running : s.running = .main
  threadFiber : ∀ f, s.threadFiber = some f → f < s.next ∧ (s.fiber f).code = .main
  current : ∀ f, s.current = some f → f < s.next ∧ ∀ b, (s.fiber f).code ≠ .body b
  mainFiber : ∀ f, s.mainFiber = some f → f < s.next ∧ ∀ b, (s.fiber f).code ≠ .body b
  bodies : ∀ f b, (s.fiber f).code = .body b →
    f < s.next ∧ s.resumed f ≤ b.pauses.length + 1 ∧ s.fiber f = objectAt b f (s.resumed f)
  unused : ∀ f, s.next ≤ f → s.resumed f = 0

theorem start_idle : Idle start :=
  ⟨rfl, nofun, nofun, nofun, nofun, fun _ _ ↦ rfl⟩

theorem after_ne_exec (b : Body) (n : Nat) : b.after n ≠ .exec := by
  unfold Body.after
  split
  · rename_i p _
    cases p <;> nofun
  · cases b.outcome <;> nofun

/-- The last part of a callback ends the fiber. -/
theorem after_length (b : Body) : b.after b.pauses.length = .term ∨ b.after b.pauses.length = .except := by
  unfold Body.after
  rw [List.getElem?_eq_none (Nat.le_refl _)]
  cases b.outcome with
  | returns => exact .inl rfl
  | throws => exact .inr rfl

theorem objectAt_code (b : Body) (f : FiberId) (n : Nat) : (objectAt b f n).code = .body b := by
  cases n <;> rfl

theorem objectAt_ctx_ne (b : Body) (f : FiberId) (n : Nat) : (objectAt b f n).ctx ≠ .main := by
  cases n with
  | zero => nofun
  | succ n =>
      show (if n < b.pauses.length then Context.callback f (n + 1) else .ended) ≠ .main
      split <;> nofun

theorem Idle.resumed_le (h : Idle s) (hf : (s.fiber f).code = .body b)
    (hterm : (s.fiber f).state ≠ .term) (hexcept : (s.fiber f).state ≠ .except) :
    s.resumed f ≤ b.pauses.length := by
  obtain ⟨_, hle, hobject⟩ := h.bodies f b hf
  by_contra hgt
  have heq : s.resumed f = b.pauses.length + 1 := by omega
  have hstate : (s.fiber f).state = b.after b.pauses.length := by rw [hobject, heq]; rfl
  rcases after_length b with hend | hend
  · exact hterm (hstate.trans hend)
  · exact hexcept (hstate.trans hend)

/-- A thread that has switched from its main coroutine to `f`. -/
structure Switched (s : Thread) (f m : FiberId) (s₁ : Thread) : Prop where
  fiber_main : s₁.fiber m = { s.fiber m with ctx := .main }
  fiber_code : (s₁.fiber f).code = (s.fiber f).code
  others : ∀ g, g ≠ f → g ≠ m → s₁.fiber g = s.fiber g
  running : s₁.running = (s.fiber f).ctx
  current : s₁.current = some f
  mainFiber : s₁.mainFiber = some m
  threadFiber : s₁.threadFiber = s.threadFiber
  next : s₁.next = s.next
  trace : s₁.trace = s.trace

theorem swapIn_spec (hexec : (s.fiber f).state ≠ .exec) (hm : s.mainFiber = some m) (hne : f ≠ m) :
    ∃ s₁, s.swapIn f = .ok s₁ ∧ Switched s f m s₁ := by
  unfold swapIn
  dsimp only [setThis]
  rw [if_neg hexec]
  dsimp only [setState, setFiber]
  rw [hm]
  refine ⟨_, rfl, ?_⟩
  constructor
  · show Function.update (Function.update s.fiber f _) m _ m = _
    rw [Function.update_self]
    dsimp only
    rw [Function.update_of_ne hne.symm]
  · show (Function.update (Function.update s.fiber f _) m _ f).code = _
    rw [Function.update_of_ne hne, Function.update_self]
  · intro g hgf hgm
    show Function.update (Function.update s.fiber f _) m _ g = _
    rw [Function.update_of_ne hgm, Function.update_of_ne hgf]
  · show (Function.update (Function.update s.fiber f _) m _ f).ctx = _
    rw [Function.update_of_ne hne, Function.update_self]
  · rfl
  · rfl
  · rfl
  · rfl
  · rfl

theorem swapIn_null (hexec : (s.fiber f).state ≠ .exec) (hm : s.mainFiber = none) :
    s.swapIn f = .error .nullMainFiber := by
  unfold swapIn
  dsimp only [setThis]
  rw [if_neg hexec]
  dsimp only [setState, setFiber]
  rw [hm]

/-- A thread that has switched away from `f`, which is left as `v`. -/
structure Returned (s₁ : Thread) (f m : FiberId) (v : FiberObject) (s₂ : Thread) : Prop where
  fiber_self : s₂.fiber f = v
  others : ∀ g ≠ f, s₂.fiber g = s₁.fiber g
  running : s₂.running = (s₁.fiber m).ctx
  current : s₂.current = some m
  mainFiber : s₂.mainFiber = some m
  threadFiber : s₂.threadFiber = s₁.threadFiber
  next : s₂.next = s₁.next
  trace : s₂.trace = s₁.trace

theorem setState_swapOut (hm : s.mainFiber = some m) (hne : f ≠ m) (state : FiberState)
    (here : Context) : ∃ s₂, (s.setState f state).swapOut f here = .ok s₂ ∧
      Returned s f m ⟨state, here, (s.fiber f).code⟩ s₂ := by
  unfold swapOut
  dsimp only [setThis, setState, setFiber]
  rw [hm]
  refine ⟨_, rfl, ?_, fun g hg ↦ ?_, ?_, rfl, rfl, rfl, rfl, rfl⟩
  · show Function.update (Function.update s.fiber f _) f _ f = _
    rw [Function.update_self]
    dsimp only
    rw [Function.update_self]
  · show Function.update (Function.update s.fiber f _) f _ g = _
    rw [Function.update_of_ne hg, Function.update_of_ne hg]
  · show (Function.update (Function.update s.fiber f _) f _ m).ctx = _
    rw [Function.update_of_ne hne.symm, Function.update_of_ne hne.symm]

theorem execute_spec (hcode : (s₁.fiber f).code = .body b) (hcur : s₁.current = some f)
    (hthread : s₁.threadFiber ≠ some f) (hm : s₁.mainFiber = some m) (hne : f ≠ m) (n : Nat) :
    ∃ s₂, s₁.execute f n = .ok s₂ ∧
      Returned { s₁ with trace := s₁.trace ++ [(f, n)] } f m (objectAt b f (n + 1)) s₂ := by
  unfold execute
  rw [hcode]
  dsimp only
  -- the part ends at a yield, which writes the state itself, or in `mainFunc`
  cases hpause : b.pauses[n]? with
  | some p =>
      have hlt : n < b.pauses.length := (List.getElem?_eq_some_iff.mp hpause).1
      have hleft : objectAt b f (n + 1) = ⟨p.state, .callback f (n + 1), (s₁.fiber f).code⟩ := by
        rw [objectAt, if_pos hlt, Body.after, hpause, hcode]
      obtain ⟨s₂, hs₂, hreturned⟩ := setState_swapOut
        (s := { s₁ with trace := s₁.trace ++ [(f, n)] }) hm hne p.state (.callback f (n + 1))
      refine ⟨s₂, ?_, hleft ▸ hreturned⟩
      unfold yield getThis
      dsimp only
      rw [hcur, if_neg hthread.symm]
      exact hs₂
  | none =>
      have hge : ¬ n < b.pauses.length := Nat.not_lt.mpr (List.getElem?_eq_none_iff.mp hpause)
      have hleft : objectAt b f (n + 1) = ⟨b.outcome.state, .ended, (s₁.fiber f).code⟩ := by
        rw [objectAt, if_neg hge, Body.after, hpause, hcode]
      obtain ⟨s₂, hs₂, hreturned⟩ := setState_swapOut
        (s := { s₁ with trace := s₁.trace ++ [(f, n)] }) hm hne b.outcome.state .ended
      exact ⟨s₂, hs₂, hleft ▸ hreturned⟩

/-- A fiber that is resumed goes on after its last yield, or begins. -/
theorem advance_eq {n : Nat} (hn : n ≤ b.pauses.length) (hcur : s₁.current = some f)
    (hrunning : s₁.running = (objectAt b f n).ctx) : s₁.advance = s₁.execute f n := by
  unfold advance
  cases n with
  | zero =>
      have hctx : s₁.running = .mainFunc := hrunning
      rw [hctx]
      unfold getThis
      rw [hcur]
  | succ k =>
      have hctx : s₁.running = .callback f (k + 1) := hrunning.trans (if_pos hn)
      rw [hctx]

/-- A legal `swapIn` of a thread with a main fiber, and what the fiber does then. -/
structure Segment (s : Thread) (f m : FiberId) (b : Body) (s₁ s₂ : Thread) : Prop where
  swapIn : s.swapIn f = .ok s₁
  advance : s₁.advance = .ok s₂
  switched : s₁.running ≠ .main
  saved : s₁.fiber m = { s.fiber m with ctx := .main }
  fiber_self : s₂.fiber f = objectAt b f (s.resumed f + 1)
  fiber_main : s₂.fiber m = { s.fiber m with ctx := .main }
  others : ∀ g, g ≠ f → g ≠ m → s₂.fiber g = s.fiber g
  running : s₂.running = .main
  current : s₂.current = some m
  mainFiber : s₂.mainFiber = some m
  threadFiber : s₂.threadFiber = s.threadFiber
  next : s₂.next = s.next
  trace : s₂.trace = s.trace ++ [(f, s.resumed f)]

theorem Idle.state_ne_exec (h : Idle s) (hf : (s.fiber f).code = .body b) :
    (s.fiber f).state ≠ .exec := by
  rw [(h.bodies f b hf).2.2]
  cases s.resumed f with
  | zero => nofun
  | succ n => exact after_ne_exec b n

theorem Idle.segment (h : Idle s) (hf : (s.fiber f).code = .body b)
    (hterm : (s.fiber f).state ≠ .term) (hexcept : (s.fiber f).state ≠ .except)
    (hm : s.mainFiber = some m) : ∃ s₁ s₂, Segment s f m b s₁ s₂ := by
  have hle := h.resumed_le hf hterm hexcept
  obtain ⟨_, _, hobject⟩ := h.bodies f b hf
  -- neither the main fiber nor the main coroutine has a callback, so `f` is none of them
  have hne : f ≠ m := fun heq ↦ (h.mainFiber m hm).2 b (heq ▸ hf)
  have hthread : s.threadFiber ≠ some f := fun heq ↦ by
    have hmain := (h.threadFiber f heq).2
    rw [hf] at hmain
    cases hmain
  have hexec := h.state_ne_exec hf
  obtain ⟨s₁, hs₁, hswitched⟩ := swapIn_spec hexec hm hne
  have hadvance := advance_eq hle hswitched.current (hswitched.running.trans (by rw [hobject]))
  obtain ⟨s₂, hs₂, hreturned⟩ := execute_spec (hswitched.fiber_code.trans hf) hswitched.current
    (hswitched.threadFiber ▸ hthread) hswitched.mainFiber hne (s.resumed f)
  have hrunning : s₁.running ≠ .main := by
    rw [hswitched.running, hobject]
    exact objectAt_ctx_ne b f _
  refine ⟨s₁, s₂, hs₁, hadvance.trans hs₂, hrunning, hswitched.fiber_main, hreturned.fiber_self, ?_, ?_, ?_,
    hreturned.current, hreturned.mainFiber, ?_, ?_, ?_⟩
  · rw [hreturned.others m hne.symm]
    exact hswitched.fiber_main
  · intro g hgf hgm
    rw [hreturned.others g hgf]
    exact hswitched.others g hgf hgm
  · rw [hreturned.running]
    dsimp only
    rw [hswitched.fiber_main]
  · exact hreturned.threadFiber.trans hswitched.threadFiber
  · exact hreturned.next.trans hswitched.next
  · rw [hreturned.trace]
    dsimp only
    rw [hswitched.trace]

theorem resumed_append (hs : s₂.trace = s.trace ++ [(f, s.resumed f)]) (g : FiberId) :
    s₂.resumed g = s.resumed g + if g = f then 1 else 0 := by
  unfold resumed at *
  rw [hs, List.countP_append, List.countP_singleton]
  by_cases hg : g = f
  · rw [if_pos hg, if_pos (beq_iff_eq.mpr hg.symm)]
  · rw [if_neg hg, if_neg fun heq ↦ hg (beq_iff_eq.mp heq).symm]

theorem Segment.code (h : Segment s f m b s₁ s₂) (hf : (s.fiber f).code = .body b) (g : FiberId) :
    (s₂.fiber g).code = (s.fiber g).code := by
  by_cases hgf : g = f
  · rw [hgf, h.fiber_self, objectAt_code, hf]
  · by_cases hgm : g = m
    · rw [hgm, h.fiber_main]
    · rw [h.others g hgf hgm]

/-- The main coroutine goes on when the fiber has yielded or ended. -/
theorem Idle.returned (h : Idle s) (hf : (s.fiber f).code = .body b)
    (hlive : s.resumed f ≤ b.pauses.length) (hm : s.mainFiber = some m)
    (hseg : Segment s f m b s₁ s₂) : Idle s₂ := by
  have hcode := hseg.code hf
  have hresumed := resumed_append hseg.trace
  have hmain : m < s₂.next ∧ ∀ b, (s₂.fiber m).code ≠ .body b := by
    rw [hseg.next, hcode]
    exact h.mainFiber m hm
  constructor
  · exact hseg.running
  · intro g hg
    rw [hseg.threadFiber] at hg
    rw [hcode, hseg.next]
    exact h.threadFiber g hg
  · intro g hg
    rw [hseg.current] at hg
    exact Option.some.inj hg ▸ hmain
  · intro g hg
    rw [hseg.mainFiber] at hg
    exact Option.some.inj hg ▸ hmain
  · intro g b' hg
    rw [hcode] at hg
    obtain ⟨hlt, hle, hobject⟩ := h.bodies g b' hg
    rw [hseg.next, hresumed]
    refine ⟨hlt, ?_⟩
    by_cases hgf : g = f
    · subst hgf
      have hb : b' = b := by
        rw [hf] at hg
        exact (Code.body.inj hg).symm
      rw [if_pos rfl, hb]
      exact ⟨Nat.succ_le_succ hlive, hseg.fiber_self⟩
    · have hgm : g ≠ m := fun heq ↦ (h.mainFiber m hm).2 b' (heq ▸ hg)
      rw [if_neg hgf, hseg.others g hgf hgm]
      exact ⟨hle, hobject⟩
  · intro g hg
    rw [hseg.next] at hg
    have hne : g ≠ f := fun heq ↦ absurd (h.bodies f b hf).1 (Nat.not_lt_of_le (heq ▸ hg))
    rw [hresumed, if_neg hne]
    exact h.unused g hg

theorem Idle.newObject (h : Idle s) {v : FiberObject}
    (hv : ∀ b, v.code = .body b → v = objectAt b s.next 0) : Idle (s.newObject v) := by
  have hold : ∀ g < s.next, (s.newObject v).fiber g = s.fiber g := fun g hg ↦
    Function.update_of_ne (Nat.ne_of_lt hg) _ _
  have hkeep : ∀ g, (g < s.next ∧ ∀ b, (s.fiber g).code ≠ .body b) →
      g < s.next + 1 ∧ ∀ b, ((s.newObject v).fiber g).code ≠ .body b := by
    intro g hg
    rw [hold g hg.1]
    exact ⟨Nat.lt_succ_of_lt hg.1, hg.2⟩
  constructor
  · exact h.running
  · intro g hg
    have hmain := h.threadFiber g hg
    rw [hold g hmain.1]
    exact ⟨Nat.lt_succ_of_lt hmain.1, hmain.2⟩
  · exact fun g hg ↦ hkeep g (h.current g hg)
  · exact fun g hg ↦ hkeep g (h.mainFiber g hg)
  · intro g b hg
    by_cases hnew : g = s.next
    · have hfiber : (s.newObject v).fiber g = v := by
        rw [hnew]
        exact Function.update_self _ _ _
      have hzero : (s.newObject v).resumed g = 0 := h.unused g (Nat.le_of_eq hnew.symm)
      rw [hfiber] at hg
      rw [hzero, hfiber, hnew]
      exact ⟨Nat.lt_succ_self _, Nat.zero_le _, hv b hg⟩
    · have hfiber : (s.newObject v).fiber g = s.fiber g := Function.update_of_ne hnew _ _
      rw [hfiber] at hg
      obtain ⟨hlt, hle, hobject⟩ := h.bodies g b hg
      rw [hfiber]
      exact ⟨Nat.lt_succ_of_lt hlt, hle, hobject⟩
  · exact fun g hg ↦ h.unused g (Nat.le_of_succ_le hg)

theorem Idle.getThis (h : Idle s) : Idle s.getThis.2 ∧ s.getThis.1 < s.getThis.2.next ∧
    ∀ b, (s.getThis.2.fiber s.getThis.1).code ≠ .body b := by
  unfold Thread.getThis
  cases hcur : s.current with
  | some f =>
      dsimp only
      exact ⟨h, h.current f hcur⟩
  | none =>
      dsimp only
      -- `Fiber()`, a main coroutine
      have hnew := h.newObject (v := ⟨.exec, .constructed, .main⟩) nofun
      have hfiber : (s.newObject ⟨.exec, .constructed, .main⟩).fiber s.next =
          ⟨.exec, .constructed, .main⟩ := Function.update_self _ _ _
      have hmain : s.next < s.next + 1 ∧
          ((s.newObject ⟨.exec, .constructed, .main⟩).fiber s.next).code = .main := by
        rw [hfiber]
        exact ⟨Nat.lt_succ_self _, rfl⟩
      have hnobody : ∀ b, ((s.newObject ⟨.exec, .constructed, .main⟩).fiber s.next).code ≠
          .body b := by
        intro b
        rw [hfiber]
        nofun
      refine ⟨⟨hnew.running, ?_, ?_, hnew.mainFiber, hnew.bodies, hnew.unused⟩, hmain.1, hnobody⟩
      · intro g hg
        exact Option.some.inj hg ▸ hmain
      · intro g hg
        exact Option.some.inj hg ▸ ⟨hmain.1, hnobody⟩

theorem Idle.setMainFiber (h : Idle s) (hm : m < s.next ∧ ∀ b, (s.fiber m).code ≠ .body b)
    (hasScheduler : Bool) :
    Idle { s with hasScheduler := hasScheduler, mainFiber := some m } :=
  ⟨h.running, h.threadFiber, h.current, fun _ hg ↦ Option.some.inj hg ▸ hm, h.bodies, h.unused⟩

theorem Idle.newScheduler (h : Idle s) {useCaller : Bool}
    (hs : s.newScheduler useCaller = .ok s') : Idle s' := by
  unfold Thread.newScheduler at hs
  cases useCaller with
  | false =>
      obtain rfl := Except.ok.inj hs
      exact h
  | true =>
      rw [if_pos rfl] at hs
      dsimp only at hs
      split at hs
      · cases hs
      · obtain rfl := Except.ok.inj hs
        -- the root fiber comes after the main coroutine, and has `run` instead of a callback
        have hthis := h.getThis.1
        have hnew := hthis.newObject (v := ⟨.init, .callerMainFunc, .root⟩) nofun
        apply hnew.setMainFiber
        refine ⟨Nat.lt_succ_self _, fun b ↦ ?_⟩
        have hfiber : (s.getThis.2.newObject ⟨.init, .callerMainFunc, .root⟩).fiber
            s.getThis.2.next = ⟨.init, .callerMainFunc, .root⟩ := Function.update_self _ _ _
        rw [hfiber]
        nofun

/-- A thread whose main coroutine is running, or that a legal `swapIn` has brought into a fiber. -/
def Steady (s : Thread) : Prop :=
  Idle s ∨ ∃ s₀ f m b s₂, Idle s₀ ∧ (s₀.fiber f).code = .body b ∧
    s₀.resumed f ≤ b.pauses.length ∧ s₀.mainFiber = some m ∧ Segment s₀ f m b s s₂

theorem Idle.perform (h : Idle s) {act : Act} (hact : act ≠ .advance) (hlegal : Legal s act)
    (hs : s.perform act = .ok s') : Steady s' := by
  cases act with
  | getThis => exact Except.ok.inj hs ▸ .inl h.getThis.1
  | newFiber b =>
      refine Except.ok.inj hs ▸ .inl (h.newObject fun b' hb ↦ ?_)
      obtain rfl := Code.body.inj hb
      rfl
  | newScheduler useCaller => exact .inl (h.newScheduler hs)
  | deleteScheduler =>
      exact Except.ok.inj hs ▸ .inl ⟨h.running, h.threadFiber, h.current, h.mainFiber, h.bodies, h.unused⟩
  | run => exact Except.ok.inj hs ▸ .inl (h.getThis.1.setMainFiber h.getThis.2 true)
  | swapIn f =>
      obtain ⟨_, ⟨b, hf⟩, hterm, hexcept⟩ := hlegal
      have hle := h.resumed_le hf hterm hexcept
      cases hm : s.mainFiber with
      | none =>
          -- a null pointer is dereferenced, so there is no next state
          have hnull := swapIn_null (h.state_ne_exec hf) hm
          have hs : s.swapIn f = .ok s' := hs
          rw [hs] at hnull
          cases hnull
      | some m =>
          obtain ⟨s₁, s₂, hseg⟩ := h.segment hf hterm hexcept hm
          obtain rfl := Except.ok.inj (hseg.swapIn.symm.trans hs)
          exact .inr ⟨s, f, m, b, s₂, h, hf, hle, hm, hseg⟩
  | advance => exact absurd rfl hact

theorem Steady.step (h : Steady s) {act : Act} (hlegal : Legal s act) (hs : s.step act = some s') :
    Steady s' := by
  unfold Thread.step at hs
  split at hs
  · rename_i hturn
    cases hperform : s.perform act with
    | error e =>
        rw [hperform] at hs
        cases hs
    | ok t =>
        rw [hperform] at hs
        obtain rfl := Option.some.inj hs
        rcases h with hidle | ⟨s₀, f, m, b, s₂, hidle, hf, hle, hm, hseg⟩
        · exact hidle.perform (hturn.mp hidle.running) hlegal hperform
        · -- only the fiber can act
          have hact : act = .advance := by
            by_contra hne
            exact hseg.switched (hturn.mpr hne)
          subst hact
          obtain rfl := Except.ok.inj (hseg.advance.symm.trans hperform)
          exact .inl (hidle.returned hf hle hm hseg)
  · cases hs

theorem Steady.idle (h : Steady s) (hs : s.running = .main) : Idle s := by
  rcases h with hidle | ⟨_, _, _, _, _, _, _, _, _, hseg⟩
  · exact hidle
  · exact absurd hs hseg.switched

/-- A `swapIn` of the main coroutine obeys the law exactly when the main fiber of the `Scheduler` is
that coroutine. -/
theorem lawful_iff (h : Run (Guarded (Of step) Legal) start acts s) (hs : s.running = .main)
    (hmain : s.threadFiber = some main) (hf : (s.fiber f).code = .body b)
    (hterm : (s.fiber f).state ≠ .term) (hexcept : (s.fiber f).state ≠ .except) :
    Lawful s f main b ↔ s.mainFiber = some main := by
  have hsteady : Steady s := h.invariant (I := Steady)
    (fun _ _ _ hsteady hstep ↦ hsteady.step hstep.2 hstep.1) (.inl start_idle)
  have hidle := hsteady.idle hs
  cases hm : s.mainFiber with
  | none =>
      apply iff_of_false _ nofun
      intro hlaw
      obtain ⟨s₁, s₂, hresumes⟩ := hlaw
      have hnull := swapIn_null (hidle.state_ne_exec hf) hm
      rw [hresumes.swapIn] at hnull
      cases hnull
  | some m =>
      obtain ⟨s₁, s₂, hseg⟩ := hidle.segment hf hterm hexcept hm
      constructor
      · intro hlaw
        obtain ⟨t₁, t₂, hresumes⟩ := hlaw
        obtain rfl := Except.ok.inj (hseg.swapIn.symm.trans hresumes.swapIn)
        obtain rfl := Except.ok.inj (hseg.advance.symm.trans hresumes.advance)
        -- what returns to the main coroutine is the context saved in the main fiber
        exact hseg.current.symm.trans hresumes.current
      · intro heq
        obtain rfl := Option.some.inj heq
        refine ⟨s₁, s₂, hseg.swapIn, hseg.advance, ?_, hseg.trace, ?_, hseg.running, hseg.current,
          hseg.others⟩
        · rw [hseg.saved]
        · rw [hseg.fiber_self]
          rfl

/-- The second `swapIn` of a thread of the pool, after the fiber has yielded once. -/
theorem lawful_pool : ∃ acts s, Run (Guarded (Of step) Legal) start acts s ∧
    Lawful s 1 0 ⟨[.hold, .ready], .throws⟩ := by
  have hrun : Run (Guarded (Of step) Legal) start
      [.run, .newFiber ⟨[.hold, .ready], .throws⟩, .swapIn 1, .advance] _ :=
    .cons ⟨rfl, trivial⟩ (.cons ⟨rfl, trivial⟩
      (.cons ⟨rfl, rfl, ⟨_, rfl⟩, nofun, nofun⟩ (.cons ⟨rfl, trivial⟩ (.nil _))))
  exact ⟨_, _, hrun, (lawful_iff hrun rfl rfl rfl (by decide) (by decide)).mpr rfl⟩

/-- A thread without a `Scheduler` cannot save its main coroutine anywhere. -/
theorem not_lawful_plain : ¬ ∀ acts s, Run (Guarded (Of step) Legal) start acts s →
    s.running = .main → ∀ f main b, s.threadFiber = some main → (s.fiber f).code = .body b →
      (s.fiber f).state ≠ .term → (s.fiber f).state ≠ .except → Lawful s f main b := by
  intro hall
  have hrun : Run (Guarded (Of step) Legal) start
      [.getThis, .newFiber ⟨[.hold, .hold], .returns⟩] _ :=
    .cons ⟨rfl, trivial⟩ (.cons ⟨rfl, trivial⟩ (.nil _))
  obtain ⟨s₁, s₂, hresumes⟩ := hall _ _ hrun rfl 1 0 ⟨[.hold, .hold], .returns⟩ rfl rfl nofun nofun
  cases hresumes.swapIn

end Thread

end Server.Switch
