import ServerFramework.Scheduler.Machine
import ServerFramework.Library.Counter
import ServerFramework.Library.Fallible

/-!
# Fiber objects

What the constructors and the destructor of `Fiber` share between threads: the counters behind the
ids and behind `totalFibers`, and the stacks.  A constructor takes its id, counts itself and takes
its stack in separate steps, and other threads construct, run and destroy fibers in between.
-/

namespace Server.Objects

open Runs Fallible

/-- Where a block of the heap begins. -/
abbrev Addr := Nat

/-- How far a constructor or the destructor has come. -/
inductive Phase where
  /-- in `Fiber()`, before `++s_fiber_count` -/
  | main
  /-- in `Fiber(cb, stackSize)`, before `++s_fiber_count` -/
  | identified (stackSize : BitVec 64)
  /-- before `StackAllocator::Alloc` -/
  | counted (stackSize : BitVec 64)
  | complete
  /-- in `~Fiber`, after `--s_fiber_count` -/
  | releasing
  deriving DecidableEq, Repr

structure Object where
  /-- `m_id` -/
  id : BitVec 64
  /-- `m_stackSize` -/
  stackSize : BitVec 32
  state : FiberState
  /-- `m_stack`, unless it is null -/
  stack : Option Addr
  /-- `m_cb` is not empty -/
  cb : Bool
  phase : Phase
  deriving DecidableEq, Repr

structure State (T : Type) where
  /-- `s_fiber_id` -/
  fiberId : BitVec 64
  /-- `s_fiber_count` -/
  fiberCount : BitVec 64
  /-- the objects in the order of their constructors, without those that have been destroyed -/
  objects : List (Option Object)
  /-- what `malloc` has given out, with the size -/
  blocks : Addr → Option (BitVec 32)
  /-- `t_fiber` of each thread -/
  current : T → Option FiberId

inductive Act (T : Type) where
  | getThis (t : T)
  /-- `Fiber(cb, stackSize)`: `m_id(++s_fiber_id)` -/
  | newFiber (cb : Bool) (stackSize : BitVec 64)
  /-- `++s_fiber_count` -/
  | count (p : FiberId)
  /-- the rest of `Fiber(cb, stackSize)`, with what the configuration and `malloc` return -/
  | alloc (p : FiberId) (gFiberStackSize : BitVec 32) (stack : Option Addr)
  /-- `swapIn` or `call` -/
  | swapIn (t : T) (p : FiberId)
  /-- a coroutine yields or ends, and `t_fiber` becomes `main` -/
  | leave (t : T) (p : FiberId) (y : Yield) (main : Option FiberId)
  /-- `Scheduler::run` writes `HOLD` -/
  | hold (p : FiberId)
  | reset (p : FiberId) (cb : Bool)
  /-- `~Fiber`: `--s_fiber_count` -/
  | delete (p : FiberId)
  /-- the rest of `~Fiber`, on the thread `t` -/
  | release (t : T) (p : FiberId)
  deriving DecidableEq, Repr

inductive Fault where
  | assertion
  /-- `makecontext` on a stack that is null -/
  | nullStack
  /-- `free` of what `malloc` has not given out -/
  | invalidFree
  /-- an object that does not exist, or not in this phase -/
  | lost
  deriving DecidableEq, Repr

namespace State

variable {T : Type} [DecidableEq T]

def start : State T := ⟨0#64, 0#64, [], fun _ ↦ none, fun _ ↦ none⟩

def object (s : State T) (p : FiberId) : Option Object := s.objects[p]?.join

def setObject (s : State T) (p : FiberId) (o : Option Object) : State T :=
  { s with objects := s.objects.set p o }

def setThis (s : State T) (t : T) (p : Option FiberId) : State T :=
  { s with current := Function.update s.current t p }

def add (s : State T) (o : Object) : State T := { s with objects := s.objects ++ [some o] }

/-- `getThis`, up to `++s_fiber_count` in `Fiber()` -/
def getThis (s : State T) (t : T) : State T :=
  match s.current t with
  | some _ => s
  | none => (s.add ⟨0#64, 0#32, .exec, none, false, .main⟩).setThis t (some s.objects.length)

def newFiber (s : State T) (cb : Bool) (stackSize : BitVec 64) : State T :=
  { s with fiberId := s.fiberId + 1#64 }.add
    ⟨s.fiberId + 1#64, 0#32, .init, none, cb, .identified stackSize⟩

def count (s : State T) (p : FiberId) (o : Object) : Except Fault (State T) :=
  let s := { s with fiberCount := s.fiberCount + 1#64 }
  match o.phase with
  | .main => .ok (s.setObject p (some { o with phase := .complete }))
  | .identified stackSize => .ok (s.setObject p (some { o with phase := .counted stackSize }))
  | _ => .error .lost

def alloc (s : State T) (p : FiberId) (o : Object) (gFiberStackSize : BitVec 32)
    (stack : Option Addr) : Except Fault (State T) :=
  match o.phase with
  | .counted stackSize =>
    -- a size is cut to the 32 bits of `m_stackSize`
    let size := if stackSize = 0#64 then gFiberStackSize else stackSize.setWidth 32
    match stack with
    | none => .error .nullStack
    | some a =>
      .ok ({ s with blocks := Function.update s.blocks a (some size) }.setObject p
        (some { o with stackSize := size, stack := some a, phase := .complete }))
  | _ => .error .lost

def reset (s : State T) (p : FiberId) (o : Object) (cb : Bool) : Except Fault (State T) :=
  if o.stack.isNone then .error .assertion
  else if !o.state.resettable then .error .assertion
  else .ok (s.setObject p (some { o with state := .init, cb := cb }))

/-- What `~Fiber` does after `--s_fiber_count`. -/
def release (s : State T) (t : T) (p : FiberId) (o : Object) : Except Fault (State T) :=
  match o.stack with
  | some a =>
    if !o.state.resettable then .error .assertion
    else if (s.blocks a).isNone then .error .invalidFree
    else .ok ({ s with blocks := Function.update s.blocks a none }.setObject p none)
  | none =>
    if o.cb then .error .assertion
    else if o.state ≠ .exec then .error .assertion
    -- only the thread that destroys the object has its `t_fiber` set
    else .ok ((if s.current t = some p then s.setThis t none else s).setObject p none)

def perform (s : State T) : Act T → Except Fault (State T)
  | .getThis t => .ok (s.getThis t)
  | .newFiber cb stackSize => .ok (s.newFiber cb stackSize)
  | .count p => (s.object p).elim (.error .lost) (s.count p)
  | .alloc p gFiberStackSize stack =>
    (s.object p).elim (.error .lost) fun o ↦ s.alloc p o gFiberStackSize stack
  | .swapIn t p =>
    (s.object p).elim (.error .lost) fun o ↦
      if o.state = .exec then .error .assertion
      else .ok ((s.setThis t (some p)).setObject p (some { o with state := .exec }))
  | .leave t p y main =>
    (s.object p).elim (.error .lost) fun o ↦
      -- `m_cb` is released when it returns
      .ok ((s.setThis t main).setObject p
        (some { o with state := y.state, cb := o.cb && y != .term }))
  | .hold p =>
    (s.object p).elim (.error .lost) fun o ↦ .ok (s.setObject p (some { o with state := .hold }))
  | .reset p cb => (s.object p).elim (.error .lost) fun o ↦ s.reset p o cb
  | .delete p =>
    (s.object p).elim (.error .lost) fun o ↦
      .ok ({ s with fiberCount := s.fiberCount - 1#64 }.setObject p
        (some { o with phase := .releasing }))
  | .release t p => (s.object p).elim (.error .lost) (s.release t p)

def step (s : State T) (a : Act T) : Option (State T) := (s.perform a).toOption

/-- A sub-coroutine that has been constructed. -/
def Sub (s : State T) (p : FiberId) : Prop :=
  ∃ o ∈ s.object p, o.phase = .complete ∧ o.stack.isSome = true

/-- `malloc` gives out what it has not given out, a coroutine that switches away is a sub-coroutine,
and an object is destroyed once, after it has been constructed. -/
def Legal (s : State T) : Act T → Prop
  | .alloc _ _ stack => ∀ a ∈ stack, s.blocks a = none
  | .swapIn _ p | .reset p _ => ∃ o ∈ s.object p, o.phase = .complete
  | .leave _ p _ _ | .hold p => s.Sub p
  | .delete p => ∃ o ∈ s.object p, o.phase = .complete
  | .release _ p => ∃ o ∈ s.object p, o.phase = .releasing
  | _ => True

/-- `Fiber::getFiberId()` returns all 64 bits of an id, and `Server::getFiberId()` the lower 32. -/
def getFiberId (w : Nat) (s : State T) (t : T) : Except Fault (BitVec w) :=
  match s.current t with
  | some p => (s.object p).elim (.error .lost) fun o ↦ .ok (o.id.setWidth w)
  | none => .ok 0#w

/-- `Fiber::totalFibers()` -/
def totalFibers (s : State T) : BitVec 64 := s.fiberCount

/-- The fibers that a step makes with `Fiber(cb, stackSize)`. -/
def makes (_ : State T) : Act T → Nat
  | .newFiber _ _ => 1
  | _ => 0

end State

/-! ## What a step does to the objects -/

/-- Made by `Fiber(cb, stackSize)`. -/
def Object.sub (o : Object) : Bool :=
  o.stack.isSome ||
    match o.phase with
    | .identified _ | .counted _ => true
    | _ => false

/-- The share of an object in `s_fiber_count`. -/
def Object.share (o : Object) : Nat :=
  match o.phase with
  | .counted _ | .complete => 1
  | _ => 0

/-- A constructor has no stack at first, and a main coroutine is as `Fiber()` made it. -/
structure Object.Sound (o : Object) : Prop where
  stackless : ∀ stackSize, o.phase = .identified stackSize ∨ o.phase = .counted stackSize →
    o.stack = none
  main : o.sub = false → o.id = 0#64 ∧ o.state = .exec ∧ o.cb = false

namespace State

variable {T : Type} {s s' : State T} {a : Act T} {as : List (Act T)} {t : T}
  {p q : FiberId} {o o' : Object} {addr : Addr} {n : Nat}

inductive Change (s : State T) (a : Act T) (s' : State T) : Prop where
  /-- a thread has its coroutine already -/
  | same : s' = s → s.makes a = 0 → Change s a s'
  | main (o : Object) : s'.objects = s.objects ++ [some o] → o.Sound → o.sub = false → o.stack = none →
      o.share = 0 → s'.blocks = s.blocks → s'.fiberId = s.fiberId → s'.fiberCount = s.fiberCount →
      s.makes a = 0 → Change s a s'
  | made (o : Object) : s'.objects = s.objects ++ [some o] → o.Sound → o.id = s.fiberId + 1#64 →
      o.stack = none → o.share = 0 → s'.blocks = s.blocks → s'.fiberId = s.fiberId + 1#64 →
      s'.fiberCount = s.fiberCount → s.makes a = 1 → Change s a s'
  | updated (p : FiberId) (o o' : Object) : s.object p = some o →
      s'.objects = s.objects.set p (some o') → (o.Sound → o'.Sound) → o'.id = o.id →
      o'.sub = o.sub → o'.stack = o.stack → o'.stackSize = o.stackSize → s'.blocks = s.blocks →
      s'.fiberId = s.fiberId →
      s'.fiberCount + BitVec.ofNat 64 o.share = s.fiberCount + BitVec.ofNat 64 o'.share →
      s.makes a = 0 → Change s a s'
  | allocated (p : FiberId) (o o' : Object) (addr : Addr) : s.object p = some o →
      s'.objects = s.objects.set p (some o') → o.sub = true → (o.Sound → o.stack = none) →
      o'.Sound → o'.id = o.id → o'.stack = some addr → s.blocks addr = none →
      s'.blocks = Function.update s.blocks addr (some o'.stackSize) → s'.fiberId = s.fiberId →
      s'.fiberCount = s.fiberCount → o.share = o'.share → s.makes a = 0 → Change s a s'
  | freed (p : FiberId) (o : Object) : s.object p = some o → s'.objects = s.objects.set p none →
      s'.blocks = o.stack.elim s.blocks (Function.update s.blocks · none) →
      s'.fiberId = s.fiberId → s'.fiberCount = s.fiberCount → o.share = 0 → s.makes a = 0 →
      Change s a s'

theorem object_eq (h : s.object p = some o) : s.objects[p]? = some (some o) :=
  Option.join_eq_some_iff.mp h

/-- An action on an object that exists. -/
theorem elim_ok {f : Object → Except Fault (State T)} {x : Option Object}
    (h : x.elim (.error .lost) f = .ok s') : ∃ o, x = some o ∧ f o = .ok s' := by
  cases x with
  | none => cases h
  | some o => exact ⟨o, rfl, h⟩

theorem count_change (ho : s.object p = some o) (h : s.count p o = .ok s') :
    Change s (.count p) s' := by
  unfold count at h
  split at h
  · rename_i hphase
    cases h
    refine .updated p o _ ho rfl (fun hsound ↦ ⟨fun n hn ↦ ?_, fun hsub ↦ hsound.main ?_⟩) rfl ?_ rfl
      rfl rfl rfl ?_ rfl
    · rcases hn with hn | hn <;> cases hn
    · simpa [Object.sub, hphase] using hsub
    · simp [Object.sub, hphase]
    · simp [Object.share, hphase, setObject]
  · rename_i stackSize hphase
    cases h
    refine .updated p o _ ho rfl (fun hsound ↦ ⟨fun n _ ↦ ?_, fun hsub ↦ ?_⟩) rfl ?_ rfl rfl rfl rfl
      ?_ rfl
    · exact hsound.stackless stackSize (.inl hphase)
    · simp [Object.sub] at hsub
    · simp [Object.sub, hphase]
    · simp [Object.share, hphase, setObject]
  · cases h

theorem alloc_change {gFiberStackSize : BitVec 32} {stack : Option Addr} (ho : s.object p = some o)
    (hfresh : ∀ a ∈ stack, s.blocks a = none) (h : s.alloc p o gFiberStackSize stack = .ok s') :
    Change s (.alloc p gFiberStackSize stack) s' := by
  unfold alloc at h
  split at h
  · rename_i stackSize hphase
    cases stack with
    | none => cases h
    | some addr =>
        cases h
        refine .allocated p o _ addr ho rfl ?_ (·.stackless stackSize (.inr hphase))
          ⟨fun n hn ↦ ?_, fun hsub ↦ ?_⟩ rfl rfl (hfresh addr rfl) rfl rfl rfl ?_ rfl
        · simp [Object.sub, hphase]
        · rcases hn with hn | hn <;> cases hn
        · simp [Object.sub] at hsub
        · simp [Object.share, hphase]
  · cases h

/-- A write to a complete sub-coroutine. -/
theorem write_change {o' : Object} (hcomplete : o.phase = .complete) (hsub : o.stack.isSome = true)
    (ho : s.object p = some o) (hobjects : s'.objects = s.objects.set p (some o'))
    (hid : o'.id = o.id) (hphase : o'.phase = o.phase) (hstack : o'.stack = o.stack)
    (hsize : o'.stackSize = o.stackSize) (hblocks : s'.blocks = s.blocks)
    (hfiberId : s'.fiberId = s.fiberId) (hcount : s'.fiberCount = s.fiberCount)
    (hmakes : s.makes a = 0) : Change s a s' := by
  have hsame : o'.sub = o.sub := by rw [Object.sub, Object.sub, hphase, hstack]
  refine .updated p o o' ho hobjects (fun _ ↦ ⟨fun n hn ↦ ?_, fun hmain ↦ ?_⟩) hid hsame hstack hsize
    hblocks hfiberId ?_ hmakes
  · rw [hphase, hcomplete] at hn
    rcases hn with hn | hn <;> cases hn
  · rw [Object.sub, hstack, hsub] at hmain
    cases hmain
  · rw [hcount, Object.share, Object.share, hphase]

section

variable [DecidableEq T]

theorem release_change (ho : s.object p = some o) (hphase : o.phase = .releasing)
    (h : s.release t p o = .ok s') : Change s (.release t p) s' := by
  have hshare : o.share = 0 := by rw [Object.share, hphase]
  unfold release at h
  split at h
  · rename_i addr hstack
    split at h
    · cases h
    · split at h
      · cases h
      · cases h
        exact .freed p o ho rfl (by rw [hstack]; rfl) rfl rfl hshare rfl
  · rename_i hstack
    split at h
    · cases h
    · split at h
      · cases h
      · cases h
        rw [setObject]
        split
        · exact .freed p o ho rfl (by rw [hstack]; rfl) rfl rfl hshare rfl
        · exact .freed p o ho rfl (by rw [hstack]; rfl) rfl rfl hshare rfl

theorem step_change (hlegal : s.Legal a) (h : s.perform a = .ok s') : Change s a s' := by
  cases a with
  | getThis t =>
      cases h
      rw [getThis]
      split
      · exact .same rfl rfl
      · refine .main _ rfl ⟨fun n hn ↦ rfl, fun _ ↦ ⟨rfl, rfl, rfl⟩⟩ rfl rfl rfl rfl rfl rfl rfl
  | newFiber cb stackSize =>
      cases h
      exact .made _ rfl ⟨fun n hn ↦ rfl, fun hsub ↦ by simp [Object.sub] at hsub⟩ rfl rfl rfl rfl rfl rfl
        rfl
  | count p =>
      obtain ⟨o, ho, h⟩ := elim_ok h
      exact count_change ho h
  | alloc p gFiberStackSize stack =>
      obtain ⟨o, ho, h⟩ := elim_ok h
      exact alloc_change ho hlegal h
  | swapIn t p =>
      obtain ⟨o, ho, h⟩ := elim_ok h
      obtain ⟨o', ho', hcomplete⟩ := hlegal
      cases ho.symm.trans ho'
      split at h
      · cases h
      · rename_i hstate
        cases h
        refine .updated p o _ ho rfl (fun hsound ↦ ⟨hsound.stackless, fun hmain ↦ ?_⟩) rfl rfl rfl rfl
          rfl
          rfl rfl rfl
        exact absurd (hsound.main hmain).2.1 hstate
  | leave t p y main =>
      obtain ⟨o, ho, h⟩ := elim_ok h
      obtain ⟨o', ho', hcomplete, hsub⟩ := hlegal
      cases ho.symm.trans ho'
      cases h
      exact write_change hcomplete hsub ho rfl rfl rfl rfl rfl rfl rfl rfl rfl
  | hold p =>
      obtain ⟨o, ho, h⟩ := elim_ok h
      obtain ⟨o', ho', hcomplete, hsub⟩ := hlegal
      cases ho.symm.trans ho'
      cases h
      exact write_change hcomplete hsub ho rfl rfl rfl rfl rfl rfl rfl rfl rfl
  | reset p cb =>
      obtain ⟨o, ho, h⟩ := elim_ok h
      obtain ⟨o', ho', hcomplete⟩ := hlegal
      cases ho.symm.trans ho'
      dsimp only [reset] at h
      split at h
      · cases h
      · rename_i hstack
        split at h
        · cases h
        · cases h
          have hsub : o.stack.isSome = true := by
            rw [Option.isSome_iff_ne_none]
            exact fun hnone ↦ hstack (by rw [hnone]; rfl)
          exact write_change hcomplete hsub ho rfl rfl rfl rfl rfl rfl rfl rfl rfl
  | delete p =>
      obtain ⟨o, ho, h⟩ := elim_ok h
      obtain ⟨o', ho', hcomplete⟩ := hlegal
      cases ho.symm.trans ho'
      cases h
      refine .updated p o _ ho rfl (fun hsound ↦ ⟨fun n hn ↦ ?_, fun hsub ↦ hsound.main ?_⟩) rfl ?_ rfl
        rfl rfl rfl ?_ rfl
      · rcases hn with hn | hn <;> cases hn
      · simpa [Object.sub, hcomplete] using hsub
      · simp [Object.sub, hcomplete]
      · simp [Object.share, hcomplete, setObject]
  | release t p =>
      obtain ⟨o, ho, h⟩ := elim_ok h
      obtain ⟨o', ho', hphase⟩ := hlegal
      cases ho.symm.trans ho'
      exact release_change ho hphase h

end

/-! ## Invariants -/

/-- Every stack is a block, and every block is the stack of one object. -/
structure Owned (s : State T) : Prop where
  block : ∀ p o addr, s.object p = some o → o.stack = some addr → s.blocks addr = some o.stackSize
  owner : ∀ addr size, s.blocks addr = some size → ∃ p o, s.object p = some o ∧ o.stack = some addr
  apart : ∀ p q o o' addr, s.object p = some o → s.object q = some o' → o.stack = some addr →
    o'.stack = some addr → p = q

/-- The objects are numbered in the order in which `++s_fiber_id` was executed for them. -/
def Numbered (s : State T) (n : Nat) : Prop :=
  s.fiberId = BitVec.ofNat 64 n ∧
    ∃ number : FiberId → Nat,
      (∀ p o, s.object p = some o → o.sub = true →
        o.id = BitVec.ofNat 64 (number p) ∧ 0 < number p ∧ number p ≤ n) ∧
      ∀ p q o o', s.object p = some o → s.object q = some o' → o.sub = true → o'.sub = true →
        number p = number q → p = q

/-- The objects that `s_fiber_count` counts. -/
def counted (s : State T) : Nat := (s.objects.map fun x ↦ x.elim 0 Object.share).sum

structure Accounts (s : State T) : Prop where
  sound : ∀ p o, s.object p = some o → o.Sound
  owned : s.Owned
  total : s.fiberCount = BitVec.ofNat 64 s.counted

theorem object_lt (h : s.object p = some o) : p < s.objects.length :=
  (List.getElem?_eq_some_iff.mp (object_eq h)).1

theorem object_append {x : Option Object} (h : s'.objects = s.objects ++ [x])
    (ho : s'.object p = some o) : s.object p = some o ∨ p = s.objects.length ∧ x = some o := by
  unfold object at ho
  rw [h] at ho
  rcases Nat.lt_trichotomy p s.objects.length with hp | hp | hp
  · rw [List.getElem?_append_left hp] at ho
    exact .inl ho
  · subst hp
    rw [List.getElem?_concat_length] at ho
    exact .inr ⟨rfl, ho⟩
  · rw [List.getElem?_eq_none (by simp; omega)] at ho
    cases ho

theorem object_set {x : Option Object} (h : s'.objects = s.objects.set q x)
    (ho : s'.object p = some o) : p = q ∧ x = some o ∨ p ≠ q ∧ s.object p = some o := by
  unfold object at ho
  rw [h, List.getElem?_set] at ho
  split at ho
  · rename_i hqp
    split at ho
    · exact .inl ⟨hqp.symm, ho⟩
    · cases ho
  · rename_i hqp
    exact .inr ⟨Ne.symm hqp, ho⟩

theorem object_append_left {x : Option Object} (h : s'.objects = s.objects ++ [x])
    (ho : s.object p = some o) : s'.object p = some o := by
  unfold object
  rw [h, List.getElem?_append_left (object_lt ho)]
  exact ho

theorem object_set_self {x : Option Object} (h : s'.objects = s.objects.set p x)
    (ho : s.object p = some o) : s'.object p = x := by
  unfold object
  rw [h, List.getElem?_set_self (object_lt ho)]
  rfl

theorem object_set_ne {x : Option Object} (h : s'.objects = s.objects.set q x) (hne : p ≠ q) :
    s'.object p = s.object p := by
  unfold object
  rw [h, List.getElem?_set_ne (Ne.symm hne)]

/-- A new object has no stack yet. -/
theorem Owned.append (h : s.Owned) (hobjects : s'.objects = s.objects ++ [some o])
    (hstack : o.stack = none) (hblocks : s'.blocks = s.blocks) : s'.Owned := by
  have hold : ∀ {p x addr}, s'.object p = some x → x.stack = some addr → s.object p = some x := by
    intro p x addr hx hxs
    rcases object_append hobjects hx with hx | ⟨-, hxo⟩
    · exact hx
    · cases hxo
      rw [hstack] at hxs
      cases hxs
  refine ⟨fun p x addr hx hxs ↦ ?_, fun addr size hb ↦ ?_, fun p q x y addr hx hy hxs hys ↦ ?_⟩
  · rw [hblocks]
    exact h.block p x addr (hold hx hxs) hxs
  · rw [hblocks] at hb
    obtain ⟨p, x, hx, hxs⟩ := h.owner addr size hb
    exact ⟨p, x, object_append_left hobjects hx, hxs⟩
  · exact h.apart p q x y addr (hold hx hxs) (hold hy hys) hxs hys

theorem Owned.update (h : s.Owned) (ho : s.object p = some o)
    (hobjects : s'.objects = s.objects.set p (some o')) (hstack : o'.stack = o.stack)
    (hsize : o'.stackSize = o.stackSize) (hblocks : s'.blocks = s.blocks) : s'.Owned := by
  have hold : ∀ {q x}, s'.object q = some x →
      ∃ y, s.object q = some y ∧ x.stack = y.stack ∧ x.stackSize = y.stackSize := by
    intro q x hx
    rcases object_set hobjects hx with ⟨rfl, hxo⟩ | ⟨-, hx⟩
    · cases hxo
      exact ⟨o, ho, hstack, hsize⟩
    · exact ⟨x, hx, rfl, rfl⟩
  refine ⟨fun q x addr hx hxs ↦ ?_, fun addr size hb ↦ ?_, fun q r x y addr hx hy hxs hys ↦ ?_⟩
  · obtain ⟨y, hy, hst, hsz⟩ := hold hx
    rw [hblocks, hsz]
    exact h.block q y addr hy (hst ▸ hxs)
  · rw [hblocks] at hb
    obtain ⟨q, x, hx, hxs⟩ := h.owner addr size hb
    by_cases hq : q = p
    · subst hq
      cases hx.symm.trans ho
      exact ⟨q, o', object_set_self hobjects ho, hstack.trans hxs⟩
    · exact ⟨q, x, (object_set_ne hobjects hq).trans hx, hxs⟩
  · obtain ⟨x', hx', hxs', -⟩ := hold hx
    obtain ⟨y', hy', hys', -⟩ := hold hy
    exact h.apart q r x' y' addr hx' hy' (hxs' ▸ hxs) (hys' ▸ hys)

theorem Owned.alloc (h : s.Owned) (ho : s.object p = some o) (hnone : o.stack = none)
    (hobjects : s'.objects = s.objects.set p (some o')) (hstack : o'.stack = some addr)
    (hfresh : s.blocks addr = none)
    (hblocks : s'.blocks = Function.update s.blocks addr (some o'.stackSize)) : s'.Owned := by
  -- no stack of another object begins at the new block
  have hother : ∀ {q x b}, s.object q = some x → x.stack = some b → b ≠ addr := by
    rintro q x b hx hxs rfl
    have hb := h.block q x b hx hxs
    rw [hfresh] at hb
    cases hb
  refine ⟨fun q x b hx hxs ↦ ?_, fun b size hb ↦ ?_, fun q r x y b hx hy hxs hys ↦ ?_⟩
  · rw [hblocks]
    rcases object_set hobjects hx with ⟨rfl, hxo⟩ | ⟨-, hx⟩
    · cases hxo
      cases hxs.symm.trans hstack
      rw [Function.update_self]
    · rw [Function.update_of_ne (hother hx hxs)]
      exact h.block q x b hx hxs
  · rw [hblocks] at hb
    by_cases hbaddr : b = addr
    · subst hbaddr
      exact ⟨p, o', object_set_self hobjects ho, hstack⟩
    · rw [Function.update_of_ne hbaddr] at hb
      obtain ⟨q, x, hx, hxs⟩ := h.owner b size hb
      refine ⟨q, x, ?_, hxs⟩
      rw [object_set_ne hobjects, hx]
      rintro rfl
      cases hx.symm.trans ho
      rw [hnone] at hxs
      cases hxs
  · rcases object_set hobjects hx with ⟨rfl, hxo⟩ | ⟨-, hx⟩
    · rcases object_set hobjects hy with ⟨rfl, -⟩ | ⟨-, hy⟩
      · rfl
      · cases hxo
        cases hxs.symm.trans hstack
        exact absurd rfl (hother hy hys)
    · rcases object_set hobjects hy with ⟨rfl, hyo⟩ | ⟨-, hy⟩
      · cases hyo
        cases hys.symm.trans hstack
        exact absurd rfl (hother hx hxs)
      · exact h.apart q r x y b hx hy hxs hys

theorem Owned.free (h : s.Owned) (ho : s.object p = some o)
    (hobjects : s'.objects = s.objects.set p none)
    (hblocks : s'.blocks = o.stack.elim s.blocks (Function.update s.blocks · none)) : s'.Owned := by
  have hold : ∀ {q x}, s'.object q = some x → q ≠ p ∧ s.object q = some x := by
    intro q x hx
    rcases object_set hobjects hx with ⟨-, hxo⟩ | hx
    · cases hxo
    · exact hx
  -- the blocks but the one of the object
  have hkept : ∀ b, o.stack ≠ some b → s'.blocks b = s.blocks b := by
    intro b hb
    rw [hblocks]
    cases hstack : o.stack with
    | none => rfl
    | some addr =>
        have hne : b ≠ addr := by
          rintro rfl
          exact hb hstack
        show Function.update s.blocks addr none b = _
        rw [Function.update_of_ne hne]
  refine ⟨fun q x b hx hxs ↦ ?_, fun b size hb ↦ ?_, fun q r x y b hx hy hxs hys ↦ ?_⟩
  · obtain ⟨hne, hx⟩ := hold hx
    rw [hkept b fun hob ↦ hne (h.apart q p x o b hx ho hxs hob)]
    exact h.block q x b hx hxs
  · have hnot : o.stack ≠ some b := by
      intro hob
      rw [hblocks, hob] at hb
      simp at hb
    rw [hkept b hnot] at hb
    obtain ⟨q, x, hx, hxs⟩ := h.owner b size hb
    refine ⟨q, x, ?_, hxs⟩
    rw [object_set_ne hobjects, hx]
    rintro rfl
    cases hx.symm.trans ho
    exact hnot hxs
  · exact h.apart q r x y b (hold hx).2 (hold hy).2 hxs hys

theorem counted_append {x : Object} (h : s'.objects = s.objects ++ [some x]) :
    s'.counted = s.counted + x.share := by
  unfold counted
  rw [h, List.map_append, List.sum_append]
  rfl

theorem counted_set {x : Option Object} (h : s'.objects = s.objects.set p x)
    (ho : s.object p = some o) : s'.counted + o.share = s.counted + x.elim 0 Object.share := by
  unfold counted
  rw [h]
  exact Counter.sum_map_set _ _ p (some o) x (object_eq ho)

theorem object_start : (start : State T).object p = none := rfl

theorem start_accounts : (start : State T).Accounts := by
  refine ⟨fun p o ho ↦ ?_, ⟨fun p o addr ho ↦ ?_, nofun, fun p q o o' addr ho ↦ ?_⟩, rfl⟩
  all_goals
    rw [object_start] at ho
    cases ho

theorem Accounts.step (h : s.Accounts) (hc : Change s a s') : s'.Accounts := by
  cases hc with
  | same heq _ => rwa [heq]
  | main o hobjects hsound hsub hstack hshare hblocks hid hcount _ =>
      refine ⟨fun p x hx ↦ ?_, h.owned.append hobjects hstack hblocks, ?_⟩
      · rcases object_append hobjects hx with hx | ⟨-, hxo⟩
        · exact h.sound p x hx
        · cases hxo
          exact hsound
      · rw [hcount, counted_append hobjects, hshare]
        exact h.total
  | made o hobjects hsound hid hstack hshare hblocks hfiberId hcount _ =>
      refine ⟨fun p x hx ↦ ?_, h.owned.append hobjects hstack hblocks, ?_⟩
      · rcases object_append hobjects hx with hx | ⟨-, hxo⟩
        · exact h.sound p x hx
        · cases hxo
          exact hsound
      · rw [hcount, counted_append hobjects, hshare]
        exact h.total
  | updated p o o' ho hobjects hsound hid hsub hstack hsize hblocks hfiberId hcount _ =>
      refine ⟨fun q x hx ↦ ?_, h.owned.update ho hobjects hstack hsize hblocks, ?_⟩
      · rcases object_set hobjects hx with ⟨-, hxo⟩ | ⟨-, hx⟩
        · cases hxo
          exact hsound (h.sound p o ho)
        · exact h.sound q x hx
      · have hset := congrArg (BitVec.ofNat 64) (counted_set hobjects ho)
        rw [BitVec.ofNat_add, BitVec.ofNat_add, ← h.total] at hset
        exact (BitVec.add_left_inj _).mp (hcount.trans hset.symm)
  | allocated p o o' addr ho hobjects hsub hnone hsound hid hstack hfresh hblocks hfiberId hcount
      hshare _ =>
      have hnone := hnone (h.sound p o ho)
      refine ⟨fun q x hx ↦ ?_, h.owned.alloc ho hnone hobjects hstack hfresh hblocks, ?_⟩
      · rcases object_set hobjects hx with ⟨-, hxo⟩ | ⟨-, hx⟩
        · cases hxo
          exact hsound
        · exact h.sound q x hx
      · have hset : s'.counted + o.share = s.counted + o'.share := counted_set hobjects ho
        rw [hcount, h.total]
        exact congrArg _ (by omega)
  | freed p o ho hobjects hblocks hfiberId hcount hshare _ =>
      refine ⟨fun q x hx ↦ ?_, h.owned.free ho hobjects hblocks, ?_⟩
      · rcases object_set hobjects hx with ⟨-, hxo⟩ | ⟨-, hx⟩
        · cases hxo
        · exact h.sound q x hx
      · have hset := counted_set hobjects ho
        rw [hshare] at hset
        rw [hcount, h.total]
        exact congrArg _ hset.symm

/-- What keeps the ids keeps the numbers. -/
theorem Numbered.keep (h : s.Numbered n) (hfiberId : s'.fiberId = s.fiberId)
    (hold : ∀ p o', s'.object p = some o' → o'.sub = true →
      ∃ o, s.object p = some o ∧ o.sub = true ∧ o'.id = o.id) : s'.Numbered n := by
  obtain ⟨hn, number, hid, hinj⟩ := h
  refine ⟨hfiberId.trans hn, number, fun p o' ho' hsub' ↦ ?_, fun p q x y hx hy hxs hys heq ↦ ?_⟩
  · obtain ⟨o, ho, hsub, heq⟩ := hold p o' ho' hsub'
    rw [heq]
    exact hid p o ho hsub
  · obtain ⟨x', hx', hxs', -⟩ := hold p x hx hxs
    obtain ⟨y', hy', hys', -⟩ := hold q y hy hys
    exact hinj p q x' y' hx' hy' hxs' hys' heq

/-- A new fiber has the next number. -/
theorem Numbered.next (h : s.Numbered n) (hobjects : s'.objects = s.objects ++ [some o])
    (hid : o.id = s.fiberId + 1#64) (hfiberId : s'.fiberId = s.fiberId + 1#64) :
    s'.Numbered (n + 1) := by
  obtain ⟨hn, number, hids, hinj⟩ := h
  have hnext : s.fiberId + 1#64 = BitVec.ofNat 64 (n + 1) := by rw [hn, BitVec.ofNat_add]
  have hne : ∀ {p x}, s.object p = some x → p ≠ s.objects.length :=
    fun hx ↦ Nat.ne_of_lt (object_lt hx)
  refine ⟨hfiberId.trans hnext, Function.update number s.objects.length (n + 1),
    fun p x hx hxs ↦ ?_, fun p q x y hx hy hxs hys heq ↦ ?_⟩
  · rcases object_append hobjects hx with hx | ⟨rfl, hxo⟩
    · rw [Function.update_of_ne (hne hx)]
      obtain ⟨hxid, hpos, hle⟩ := hids p x hx hxs
      exact ⟨hxid, hpos, Nat.le_succ_of_le hle⟩
    · cases hxo
      rw [Function.update_self]
      exact ⟨hid.trans hnext, Nat.succ_pos n, le_refl _⟩
  · rcases object_append hobjects hx with hx | ⟨rfl, -⟩
    · rw [Function.update_of_ne (hne hx)] at heq
      rcases object_append hobjects hy with hy | ⟨rfl, -⟩
      · rw [Function.update_of_ne (hne hy)] at heq
        exact hinj p q x y hx hy hxs hys heq
      · rw [Function.update_self] at heq
        have hle := (hids p x hx hxs).2.2
        omega
    · rw [Function.update_self] at heq
      rcases object_append hobjects hy with hy | ⟨rfl, -⟩
      · rw [Function.update_of_ne (hne hy)] at heq
        have hle := (hids q y hy hys).2.2
        omega
      · rfl

theorem start_numbered : (start : State T).Numbered 0 := by
  refine ⟨rfl, fun _ ↦ 0, fun p o ho ↦ ?_, fun p q o o' ho ↦ ?_⟩
  all_goals
    rw [object_start] at ho
    cases ho

theorem Numbered.step (h : s.Numbered n) (hc : Change s a s') : s'.Numbered (n + s.makes a) := by
  cases hc with
  | same heq hmakes => rwa [heq, hmakes]
  | main o hobjects _ hsub _ _ _ hfiberId _ hmakes =>
      rw [hmakes]
      refine h.keep hfiberId fun p x hx hxs ↦ ?_
      rcases object_append hobjects hx with hx | ⟨-, hxo⟩
      · exact ⟨x, hx, hxs, rfl⟩
      · cases hxo
        rw [hsub] at hxs
        cases hxs
  | made o hobjects _ hid _ _ _ hfiberId _ hmakes =>
      rw [hmakes]
      exact h.next hobjects hid hfiberId
  | updated p o o' ho hobjects _ hid hsub _ _ _ hfiberId _ hmakes =>
      rw [hmakes]
      refine h.keep hfiberId fun q x hx hxs ↦ ?_
      rcases object_set hobjects hx with ⟨rfl, hxo⟩ | ⟨-, hx⟩
      · cases hxo
        exact ⟨o, ho, hsub ▸ hxs, hid⟩
      · exact ⟨x, hx, hxs, rfl⟩
  | allocated p o o' addr ho hobjects hsub _ _ hid _ _ _ hfiberId _ _ hmakes =>
      rw [hmakes]
      refine h.keep hfiberId fun q x hx hxs ↦ ?_
      rcases object_set hobjects hx with ⟨rfl, hxo⟩ | ⟨-, hx⟩
      · cases hxo
        exact ⟨o, ho, hsub, hid⟩
      · exact ⟨x, hx, hxs, rfl⟩
  | freed p o ho hobjects _ hfiberId _ _ hmakes =>
      rw [hmakes]
      refine h.keep hfiberId fun q x hx hxs ↦ ?_
      rcases object_set hobjects hx with ⟨-, hxo⟩ | ⟨-, hx⟩
      · cases hxo
      · exact ⟨x, hx, hxs, rfl⟩

/-! ## Runs -/

variable [DecidableEq T]

abbrev Steps (s : State T) (a : Act T) (s' : State T) : Prop := Guarded (Of State.step) Legal s a s'

theorem run_numbered (h : Run Steps s as s') (hn : s.Numbered n) :
    s'.Numbered (n + tally step makes s as) := by
  induction h generalizing n with
  | nil => exact hn
  | @cons s s₁ s' a as hs hrest ih =>
      have hfirst := hn.step (step_change hs.2 (toOption_eq_some hs.1))
      rw [tally, show s.step a = some s₁ from hs.1, ← Nat.add_assoc]
      exact ih hfirst

theorem run_accounts (h : Run Steps (start : State T) as s) : s.Accounts :=
  h.invariant (fun _ _ _ hs hstep ↦ hs.step (step_change hstep.2 (toOption_eq_some hstep.1)))
    start_accounts

/-- The sub-coroutine that a thread executes. -/
def subFiber (s : State T) (t : T) : Option FiberId :=
  (s.current t).filter fun p ↦ (s.object p).any Object.sub

omit [DecidableEq T] in
/-- An id is 0, or the number of a sub-coroutine. -/
theorem getFiberId_cases {w : Nat} {i : BitVec w} {number : FiberId → Nat} (hw : w ≤ 64)
    (hsound : ∀ p o, s.object p = some o → o.Sound)
    (hids : ∀ p o, s.object p = some o → o.sub = true → o.id = BitVec.ofNat 64 (number p))
    (h : s.getFiberId w t = .ok i) :
    s.subFiber t = none ∧ i = 0#w ∨
      ∃ p o, s.subFiber t = some p ∧ s.object p = some o ∧ o.sub = true ∧
        i = BitVec.ofNat w (number p) := by
  unfold getFiberId at h
  unfold subFiber
  cases hcurrent : s.current t with
  | none =>
      rw [hcurrent] at h
      cases h
      exact .inl ⟨rfl, rfl⟩
  | some p =>
      rw [hcurrent] at h
      obtain ⟨o, ho, h⟩ : ∃ o, s.object p = some o ∧ _ = Except.ok i := by
        cases hobject : s.object p with
        | none =>
            simp only [hobject] at h
            cases h
        | some o =>
            simp only [hobject] at h
            exact ⟨o, rfl, h⟩
      cases h
      by_cases hsub : o.sub = true
      · refine .inr ⟨p, o, ?_, ho, hsub, ?_⟩
        · simp [Option.filter, ho, hsub]
        · rw [hids p o ho hsub, BitVec.setWidth_ofNat_of_le hw]
      · have hmain := (hsound p o ho).main (Bool.not_eq_true _ ▸ hsub)
        refine .inl ⟨?_, ?_⟩
        · simp [Option.filter, ho, hsub]
        · rw [hmain.1]
          exact BitVec.setWidth_zero _ _

/-- As long as the numbers of the fibers made fit into the bits, two threads are told the same id
exactly if they execute the same sub-coroutine, or none. -/
theorem same_fiberId_iff {w : Nat} (hw : w ≤ 64) (h : Run Steps (start : State T) as s)
    (hmade : tally step makes (start : State T) as < 2 ^ w) {t u : T} {i j : BitVec w}
    (hi : s.getFiberId w t = .ok i) (hj : s.getFiberId w u = .ok j) :
    i = j ↔ s.subFiber t = s.subFiber u := by
  obtain ⟨-, number, hids, hinj⟩ := run_numbered h start_numbered
  rw [Nat.zero_add] at hids
  have hsound := (run_accounts h).sound
  have hid : ∀ p o, s.object p = some o → o.sub = true → o.id = BitVec.ofNat 64 (number p) :=
    fun p o ho hsub ↦ (hids p o ho hsub).1
  -- a number that fits is not 0, and is its id
  have htoNat : ∀ p o, s.object p = some o → o.sub = true →
      (BitVec.ofNat w (number p)).toNat = number p ∧ number p ≠ 0 := by
    intro p o ho hsub
    obtain ⟨-, hpos, hle⟩ := hids p o ho hsub
    rw [BitVec.toNat_ofNat, Nat.mod_eq_of_lt (by omega)]
    exact ⟨rfl, by omega⟩
  rcases getFiberId_cases hw hsound hid hi with ⟨ht, rfl⟩ | ⟨p, o, ht, ho, hsub, rfl⟩
  · rcases getFiberId_cases hw hsound hid hj with ⟨hu, rfl⟩ | ⟨q, o', hu, ho', hsub', rfl⟩
    · simp [ht, hu]
    · obtain ⟨hq, hne⟩ := htoNat q o' ho' hsub'
      rw [ht, hu]
      refine ⟨fun heq ↦ absurd ?_ hne, nofun⟩
      rw [← hq, ← heq]
      rfl
  · obtain ⟨hp, hne⟩ := htoNat p o ho hsub
    rcases getFiberId_cases hw hsound hid hj with ⟨hu, rfl⟩ | ⟨q, o', hu, ho', hsub', rfl⟩
    · rw [ht, hu]
      refine ⟨fun heq ↦ absurd ?_ hne, nofun⟩
      rw [← hp, heq]
      rfl
    · obtain ⟨hq, -⟩ := htoNat q o' ho' hsub'
      rw [ht, hu, Option.some_inj]
      constructor
      · intro heq
        refine hinj p q o o' ho ho' hsub hsub' ?_
        rw [← hp, ← hq, heq]
      · rintro rfl
        rfl

omit [DecidableEq T] in
instance (s : State T) (p : FiberId) : Decidable (s.Sub p) :=
  inferInstanceAs (Decidable (∃ o ∈ s.object p, o.phase = .complete ∧ o.stack.isSome = true))

instance (s : State T) : (a : Act T) → Decidable (s.Legal a)
  | .alloc _ _ stack => inferInstanceAs (Decidable (∀ a ∈ stack, s.blocks a = none))
  | .swapIn _ p | .reset p _ | .delete p =>
    inferInstanceAs (Decidable (∃ o ∈ s.object p, o.phase = .complete))
  | .leave _ p _ _ | .hold p => inferInstanceAs (Decidable (s.Sub p))
  | .release _ p => inferInstanceAs (Decidable (∃ o ∈ s.object p, o.phase = .releasing))
  | .getThis _ | .newFiber _ _ | .count _ => .isTrue trivial

/-- Two threads construct a fiber each at the same time, and execute them. -/
def executing : List (Act Bool) :=
  [.getThis false, .newFiber true 0#64, .getThis true, .newFiber true 4096#64, .count 0, .count 3,
    .count 2, .alloc 3 0#32 (some 200), .count 1, .alloc 1 1048576#32 (some 100), .swapIn false 1, .swapIn true 3]

theorem exists_steps (as : List (Act Bool)) {P : State Bool → Bool}
    (h : (exec (checked State.step fun s a ↦ decide (s.Legal a)) State.start as).map P = some true) :
    ∃ s, Run Steps (start : State Bool) as s ∧ P s = true :=
  exists_run (R := Steps) State.step (fun s a ↦ decide (s.Legal a))
    (fun _ _ _ hs hok ↦ ⟨hs, of_decide_eq_true hok⟩) _ _ h

theorem same_fiberId_iff_executing : ∃ s, Run Steps (start : State Bool) executing s ∧
    s.getFiberId 32 false = .ok 1#32 ∧ s.getFiberId 32 true = .ok 2#32 ∧
      (1#32 = 2#32 ↔ s.subFiber false = s.subFiber true) := by
  obtain ⟨s, h, hids⟩ := exists_steps executing
    (P := fun s ↦ (s.getFiberId 32 false).toOption == some 1#32 &&
      (s.getFiberId 32 true).toOption == some 2#32) (by decide +kernel)
  obtain ⟨hi, hj⟩ := Bool.and_eq_true_iff.mp hids
  have hi := toOption_eq_some (beq_iff_eq.mp hi)
  have hj := toOption_eq_some (beq_iff_eq.mp hj)
  exact ⟨s, h, hi, hj, same_fiberId_iff (by decide) h (by decide +kernel) hi hj⟩

/-- `totalFibers` counts the objects between their constructors and their destructors, whatever the
threads do; every stack is freed with its object and no earlier, and a destructor fails exactly on a
sub-coroutine that has neither ended nor is new. -/
theorem objects_accounted (h : Run Steps (start : State T) as s) :
    s.totalFibers = BitVec.ofNat 64 s.counted ∧ s.Owned ∧
      ∀ t p o, s.object p = some o → o.phase = .releasing →
        ((∃ s', s.perform (.release t p) = .ok s') ↔
          (o.stack.isSome = true → o.state.resettable = true)) := by
  have haccounts := run_accounts h
  refine ⟨haccounts.total, haccounts.owned, fun t p o ho hphase ↦ ?_⟩
  have hperform : s.perform (.release t p) = s.release t p o := by rw [perform, ho]; rfl
  rw [hperform, release]
  cases hstack : o.stack with
  | some addr =>
      have hblock := haccounts.owned.block p o addr ho hstack
      cases hstate : o.state.resettable with
      | false => simp
      | true => simp [hblock]
  | none =>
      have hsub : o.sub = false := by rw [Object.sub, hstack, hphase]; rfl
      obtain ⟨-, hstate, hcb⟩ := (haccounts.sound p o ho).main hsub
      simp [hstate, hcb]

theorem objects_accounted_executing :
    ∃ s, Run Steps (start : State Bool)
        (executing ++ [.leave true 3 .term (some 2), .delete 3, .release false 3]) s ∧
      s.totalFibers = BitVec.ofNat 64 s.counted ∧ s.Owned ∧
        ∀ t p o, s.object p = some o → o.phase = .releasing →
          ((∃ s', s.perform (.release t p) = .ok s') ↔
            (o.stack.isSome = true → o.state.resettable = true)) := by
  obtain ⟨s, h, -⟩ := exists_steps
    (executing ++ [.leave true 3 .term (some 2), .delete 3, .release false 3]) (P := fun _ ↦ true)
    (by decide +kernel)
  exact ⟨s, h, objects_accounted h⟩

end State

end Server.Objects
