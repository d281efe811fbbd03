import ServerFramework.Fiber.Switch
import ServerFramework.Scheduler.Machine

/-!
# A fiber after `reset`

The constructor gives a fiber the entry function of its kind: `callerMainFunc`, which ends with `back`
to the main fiber of the thread, or `mainFunc`, which ends with `swapOut` to the main fiber of the
`Scheduler`.  `reset` knows only the second.  The course of a fiber is what the rest of the thread sees
of it while it is resumed again and again; here the course after `reset` is compared with that of a new
fiber in the same place.

While a fiber executes, `t_fiber` is the fiber itself, as `call` and `swapIn` set it, so that `getThis`
and the assertions of `yieldToHold` and `yieldToReady` need no state of their own.
-/

namespace Server.Reset

open Switch (Pause Outcome)

/-- How a part of a callback ends. -/
inductive Part where
  | yields (p : Pause)
  | ends (o : Outcome)
  deriving DecidableEq, Repr

/-- A callback, by the parts into which its yields split it; it need not end. -/
abbrev Parts := Nat → Part

/-- What `makecontext` is given. -/
inductive Entry where
  | mainFunc
  | callerMainFunc
  deriving DecidableEq, Repr

inductive Context where
  /-- the start of the entry function -/
  | entry (e : Entry)
  /-- in `m_cb`, called by the entry function, after the `i`-th yield -/
  | callback (e : Entry) (i : Nat)
  /-- after the last switch of the entry function -/
  | ended
  deriving DecidableEq, Repr

structure Coroutine where
  state : FiberState
  ctx : Context
  cb : Option Parts

structure FiberObject extends Coroutine where
  stackSize : BitVec 32

/-- `Fiber(cb, stackSize, useCaller)`; the default of the size is a configuration value. -/
def new (gFiberStackSize : BitVec 32) (cb : Option Parts) (stackSize : BitVec 64)
    (useCaller : Bool) : FiberObject where
  state := .init
  ctx := .entry (if useCaller then .callerMainFunc else .mainFunc)
  cb := cb
  stackSize := if stackSize = 0 then gFiberStackSize else stackSize.setWidth 32

inductive Fault where
  /-- `Scheduler::getMainFiber()->m_ctx` with a null pointer -/
  | nullMainFiber
  /-- an assertion on `m_state` -/
  | assertion
  /-- "never reach fiber_id" -/
  | neverReach
  deriving DecidableEq, Repr

def reset (fb : FiberObject) (cb : Option Parts) : Except Fault FiberObject :=
  if fb.state.resettable then
    .ok { fb with state := .init, ctx := .entry .mainFunc, cb := cb }
  else .error .assertion

/-! ## The switches -/

def call (c : Coroutine) : Except Fault Coroutine :=
  if c.state = .exec then .error .assertion else .ok { c with state := .exec }

def back (c : Coroutine) (threadFiber : FiberId) : Except Fault FiberId :=
  if c.state = .exec then .error .assertion else .ok threadFiber

def swapIn (c : Coroutine) (mainFiber : Option FiberId) : Except Fault Coroutine :=
  if c.state = .exec then .error .assertion
  else
    match mainFiber with
    | none => .error .nullMainFiber
    | some _ => .ok { c with state := .exec }

/-- To the main fiber of the `Scheduler`, whichever that is. -/
def swapOut (mainFiber : Option FiberId) : Except Fault FiberId :=
  match mainFiber with
  | none => .error .nullMainFiber
  | some m => .ok m

/-- Where a sub-fiber lives.  The main fiber of the `Scheduler` may change between two parts of its
callback. -/
structure Place where
  self : FiberId
  useCaller : Bool
  /-- `t_threadFiber` -/
  threadFiber : FiberId
  /-- `Scheduler::getMainFiber()` when the fiber is resumed after `n` parts -/
  resuming : Nat → Option FiberId
  /-- `Scheduler::getMainFiber()` at the end of the `n`-th part -/
  leaving : Nat → Option FiberId
  sub : self ≠ threadFiber
  /-- `m_rootFiber`, the only sub-fiber that a `Scheduler` takes for its main fiber, is a caller fiber. -/
  root : useCaller = false → ∀ n, leaving n ≠ some self

/-- By the operation of its kind. -/
def Place.resume (p : Place) (n : Nat) (c : Coroutine) : Except Fault Coroutine :=
  if p.useCaller then call c else swapIn c (p.resuming n)

/-- The part of `m_cb` that follows the `i`-th yield; an empty function throws. -/
def part (cb : Option Parts) (i : Nat) : Part :=
  match cb with
  | some parts => parts i
  | none => .ends .throws

/-- `m_cb` is released when it returns, and kept when it throws. -/
def released (cb : Option Parts) : Outcome → Option Parts
  | .returns => none
  | .throws => cb

/-- A switch away from the fiber: after which part of `m_cb`, what is left, and to whom. -/
structure Leave where
  index : Nat
  coroutine : Coroutine
  target : FiberId

/-- The entry function `e`, from the `i`-th yield of `m_cb` to the next switch. -/
def Place.execute (p : Place) (n : Nat) (c : Coroutine) (e : Entry) (i : Nat) : Except Fault Leave :=
  match part c.cb i with
  | .yields pause =>
    (swapOut (p.leaving n)).map (Leave.mk i { c with state := pause.state, ctx := .callback e (i + 1) })
  | .ends o =>
    let c : Coroutine := ⟨o.state, .ended, released c.cb o⟩
    -- the one place where the two entry functions differ
    match e with
    | .mainFunc => (swapOut (p.leaving n)).map (Leave.mk i c)
    | .callerMainFunc => (back c p.threadFiber).map (Leave.mk i c)

/-- What a fiber executes up to its next switch, which is the `n`-th. -/
def Place.advance (p : Place) (n : Nat) (c : Coroutine) : Except Fault Leave :=
  match c.ctx with
  | .entry e => p.execute n c e 0
  | .callback e i => p.execute n c e i
  | .ended => .error .neverReach

/-! ## The course -/

inductive Event where
  /-- the `i`-th part of the callback, in the state `during`, then a switch to `target` in the state
  `left` -/
  | part (i : Nat) (during left : FiberState) (target : FiberId)
  | fault (x : Fault)
  deriving DecidableEq, Repr

/-- The first `k` parts from the `n`-th on.  A fiber that switches to itself goes on at once; any other
goes on when it is resumed, until it has ended. -/
def Place.course (p : Place) : Nat → Nat → Bool → Coroutine → List Event
  | 0, _, _, _ => []
  | k + 1, n, inside, c =>
    if inside = false ∧ c.state.finished = true then []
    else
      match if inside then .ok c else p.resume n c with
      | .error x => [.fault x]
      | .ok c =>
        match p.advance n c with
        | .error x => [.fault x]
        | .ok l =>
          .part l.index c.state l.coroutine.state l.target ::
            p.course k (n + 1) (l.target = p.self) l.coroutine

/-- The coroutine that a fiber of this kind is to switch to. -/
def Place.home (p : Place) (n : Nat) : Option FiberId :=
  if p.useCaller then some p.threadFiber else p.leaving n

/-- The `n`-th event of a course goes where it should. -/
def Place.Proper (p : Place) (n : Nat) : Event → Prop
  | .part _ _ _ target => p.home n = some target
  | .fault x => x ≠ .neverReach

/-- `reset` succeeds, and the fiber has the course of a new one. -/
def Place.LikeNew (p : Place) (gFiberStackSize : BitVec 32) (fb : FiberObject) (cb : Option Parts) :
    Prop :=
  ∃ fb', reset fb cb = .ok fb' ∧
    (∀ k, p.course k 0 false fb'.toCoroutine =
      p.course k 0 false
        (new gFiberStackSize cb (fb.stackSize.setWidth 64) p.useCaller).toCoroutine) ∧
    ∀ k n e, (p.course k 0 false fb'.toCoroutine)[n]? = some e → p.Proper n e

/-! ## A fiber that has yielded so far -/

variable {p : Place} {cb : Option Parts} {e : Entry} {n k : Nat}

/-- The first `n` parts end with a yield. -/
def Yields (cb : Option Parts) (n : Nat) : Prop := ∀ i < n, ∃ pause, part cb i = .yields pause

/-- What `n` parts leave of a fiber. -/
def stopped (cb : Option Parts) (e : Entry) : Nat → Coroutine
  | 0 => ⟨.init, .entry e, cb⟩
  | n + 1 =>
    match part cb n with
    | .yields pause => ⟨pause.state, .callback e (n + 1), cb⟩
    | .ends o => ⟨o.state, .ended, released cb o⟩

theorem Yields.succ (h : Yields cb n) {pause : Pause} (hpart : part cb n = .yields pause) :
    Yields cb (n + 1) := by
  intro i hi
  by_cases heq : i = n
  · exact ⟨pause, heq ▸ hpart⟩
  · exact h i (by omega)

theorem stopped_yields {pause : Pause} (hpart : part cb n = .yields pause) :
    stopped cb e (n + 1) = ⟨pause.state, .callback e (n + 1), cb⟩ := by
  rw [stopped, hpart]

theorem stopped_ends {o : Outcome} (hpart : part cb n = .ends o) :
    stopped cb e (n + 1) = ⟨o.state, .ended, released cb o⟩ := by
  rw [stopped, hpart]

/-- The entry function is of no account until the callback ends. -/
theorem stopped_state (e e' : Entry) (n : Nat) : (stopped cb e n).state = (stopped cb e' n).state := by
  cases n with
  | zero => rfl
  | succ n =>
      cases hpart : part cb n with
      | yields pause => rw [stopped_yields hpart, stopped_yields hpart]
      | ends o => rw [stopped_ends hpart, stopped_ends hpart]

theorem Yields.state (h : Yields cb n) :
    (stopped cb e n).state ≠ .exec ∧ (stopped cb e n).state.finished = false := by
  cases n with
  | zero => exact ⟨nofun, rfl⟩
  | succ n =>
      rcases h n (Nat.lt_succ_self n) with ⟨pause, hpart⟩
      rw [stopped_yields hpart]
      cases pause
      all_goals exact ⟨nofun, rfl⟩

/-- The switch at the end of the `n`-th part. -/
def Place.leave (p : Place) (cb : Option Parts) (e : Entry) (n : Nat) : Except Fault FiberId :=
  match part cb n, e with
  | .ends _, .callerMainFunc => .ok p.threadFiber
  | _, _ => swapOut (p.leaving n)

theorem execute_stopped {c : Coroutine} (hcb : c.cb = cb) :
    p.execute n c e n = (p.leave cb e n).map (Leave.mk n (stopped cb e (n + 1))) := by
  unfold Place.execute Place.leave
  rw [hcb]
  cases hpart : part cb n with
  | yields pause =>
      rw [stopped_yields hpart]
  | ends o =>
      rw [stopped_ends hpart]
      cases e with
      | mainFunc => rfl
      | callerMainFunc =>
          -- `back` wants the state that the end of the callback wrote
          unfold back
          dsimp only
          rw [if_neg (by cases o <;> nofun)]

theorem advance_stopped (h : Yields cb n) :
    p.advance n { stopped cb e n with state := .exec } =
      (p.leave cb e n).map (Leave.mk n (stopped cb e (n + 1))) := by
  cases n with
  | zero => exact execute_stopped rfl
  | succ n =>
      rcases h n (Nat.lt_succ_self n) with ⟨pause, hpart⟩
      rw [stopped_yields hpart]
      exact execute_stopped rfl

theorem course_resumed (h : Yields cb n)
    (hresume : p.resume n (stopped cb e n) = .ok { stopped cb e n with state := .exec }) :
    (∀ x, p.leave cb e n = .error x →
      p.course (k + 1) n false (stopped cb e n) = [.fault x]) ∧
      ∀ t, p.leave cb e n = .ok t →
        p.course (k + 1) n false (stopped cb e n) =
          .part n .exec (stopped cb e (n + 1)).state t ::
            p.course k (n + 1) (t = p.self) (stopped cb e (n + 1)) := by
  have hlive : ¬ (false = false ∧ (stopped cb e n).state.finished = true) := by
    rw [h.state.2]
    decide
  have hadvance := advance_stopped (p := p) (e := e) h
  constructor
  · intro x hx
    rw [Place.course, if_neg hlive, if_neg Bool.false_ne_true, hresume]
    dsimp only
    rw [hadvance, hx]
    rfl
  · intro t ht
    rw [Place.course, if_neg hlive, if_neg Bool.false_ne_true, hresume]
    dsimp only
    rw [hadvance, ht]
    rfl

/-- A fiber that has ended is not resumed. -/
theorem course_ended {o : Outcome} (hpart : part cb n = .ends o) :
    p.course k (n + 1) false (stopped cb e (n + 1)) = [] := by
  cases k with
  | zero => rfl
  | succ k =>
      rw [stopped_ends hpart, Place.course, if_pos]
      cases o
      all_goals exact ⟨rfl, rfl⟩

theorem resume_caller (hkind : p.useCaller = true) (h : Yields cb n) :
    p.resume n (stopped cb e n) = .ok { stopped cb e n with state := .exec } := by
  unfold Place.resume call
  rw [if_pos hkind, if_neg h.state.1]

/-- From the `n`-th event on, the events of a course go where they should. -/
def Place.AllProper (p : Place) (n : Nat) (l : List Event) : Prop :=
  ∀ j e, l[j]? = some e → p.Proper (n + j) e

theorem allProper_nil : p.AllProper n [] := nofun

theorem allProper_cons {ev : Event} {l : List Event} :
    p.AllProper n (ev :: l) ↔ p.Proper n ev ∧ p.AllProper (n + 1) l := by
  constructor
  · intro h
    refine ⟨h 0 ev rfl, fun j e hj ↦ ?_⟩
    have hnext := h (j + 1) e hj
    rwa [show n + (j + 1) = n + 1 + j by omega] at hnext
  · rintro ⟨hhead, htail⟩ j e hj
    cases j with
    | zero =>
        cases hj
        exact hhead
    | succ j =>
        have hnext := htail j e hj
        rwa [show n + 1 + j = n + (j + 1) by omega] at hnext

theorem leave_mainFunc : p.leave cb .mainFunc n = swapOut (p.leaving n) := by
  unfold Place.leave
  cases part cb n <;> rfl

theorem leave_yields {pause : Pause} (hpart : part cb n = .yields pause) :
    p.leave cb e n = swapOut (p.leaving n) := by
  unfold Place.leave
  rw [hpart]

theorem leave_ends {o : Outcome} (hpart : part cb n = .ends o) :
    p.leave cb .callerMainFunc n = .ok p.threadFiber := by
  unfold Place.leave
  rw [hpart]

/-! ## Both kinds -/

/-- A fiber that is no caller fiber switches to the main fiber of the `Scheduler`, and is not there. -/
theorem allProper_worker (hkind : p.useCaller = false) (h : Yields cb n) :
    p.AllProper n (p.course k n false (stopped cb .mainFunc n)) := by
  induction k generalizing n with
  | zero => exact allProper_nil
  | succ k ih =>
      have hresume : p.resume n (stopped cb .mainFunc n) =
          swapIn (stopped cb .mainFunc n) (p.resuming n) := by
        unfold Place.resume
        rw [hkind, if_neg Bool.false_ne_true]
      unfold swapIn at hresume
      rw [if_neg h.state.1] at hresume
      cases hin : p.resuming n with
      | none =>
          -- a thread without a `Scheduler` gets no further
          rw [hin] at hresume
          have hcourse : p.course (k + 1) n false (stopped cb .mainFunc n) =
              [.fault .nullMainFiber] := by
            rw [Place.course, if_neg (by rw [h.state.2]; decide), if_neg Bool.false_ne_true, hresume]
          rw [hcourse, allProper_cons]
          exact ⟨nofun, allProper_nil⟩
      | some m =>
          rw [hin] at hresume
          have hcourse := course_resumed (k := k) h hresume
          rw [leave_mainFunc] at hcourse
          cases hout : p.leaving n with
          | none =>
              rw [hcourse.1 .nullMainFiber (by rw [hout]; rfl), allProper_cons]
              exact ⟨nofun, allProper_nil⟩
          | some t =>
              -- somebody else goes on, so the next part waits for `swapIn`
              have hself : t ≠ p.self := fun heq ↦ p.root hkind n (heq ▸ hout)
              rw [hcourse.2 t (by rw [hout]; rfl), allProper_cons]
              constructor
              · show (if p.useCaller then _ else p.leaving n) = some t
                rw [hkind, if_neg Bool.false_ne_true]
                exact hout
              · rw [decide_eq_false hself]
                cases hpart : part cb n with
                | yields pause => exact ih (h.succ hpart)
                | ends o =>
                    rw [course_ended hpart]
                    exact allProper_nil

/-- Both entry functions have the same course from the `n`-th part on, and a proper one. -/
structure Place.LikeFrom (p : Place) (cb : Option Parts) (n : Nat) : Prop where
  same : ∀ k, p.course k n false (stopped cb .mainFunc n) =
    p.course k n false (stopped cb .callerMainFunc n)
  proper : ∀ k, p.AllProper n (p.course k n false (stopped cb .mainFunc n))

theorem home_caller (hkind : p.useCaller = true) : p.home n = some p.threadFiber := by
  unfold Place.home
  rw [if_pos hkind]

/-- After a switch to the main fiber of the thread the comparison goes on. -/
theorem course_home (hkind : p.useCaller = true) (h : Yields cb n)
    (hleave : p.leave cb e n = .ok p.threadFiber) :
    p.course (k + 1) n false (stopped cb e n) =
      .part n .exec (stopped cb e (n + 1)).state p.threadFiber ::
        p.course k (n + 1) false (stopped cb e (n + 1)) := by
  rw [(course_resumed h (resume_caller hkind h)).2 p.threadFiber hleave,
    decide_eq_false p.sub.symm]

theorem Place.LikeFrom.next (hlike : p.LikeFrom cb n) (hkind : p.useCaller = true)
    (h : Yields cb n) (hleaving : p.leaving n = some p.threadFiber) {pause : Pause}
    (hpart : part cb n = .yields pause) : p.LikeFrom cb (n + 1) := by
  have hleave : ∀ e, p.leave cb e n = .ok p.threadFiber := by
    intro e
    rw [leave_yields hpart, hleaving]
    rfl
  constructor
  · intro k
    have hsame := hlike.same (k + 1)
    rw [course_home hkind h (hleave _), course_home hkind h (hleave _)] at hsame
    exact (List.cons.inj hsame).2
  · intro k
    have hproper := hlike.proper (k + 1)
    rw [course_home hkind h (hleave _), allProper_cons] at hproper
    exact hproper.2

/-- Where the main fiber of the `Scheduler` has to be at the end of the `n`-th part. -/
def Place.Home (p : Place) (cb : Option Parts) (n : Nat) : Prop :=
  p.leaving n = some p.threadFiber ∨ p.leaving n = none ∧ ∃ pause, part cb n = .yields pause

theorem Place.LikeFrom.home (hlike : p.LikeFrom cb n) (hkind : p.useCaller = true)
    (h : Yields cb n) : p.Home cb n := by
  have hmain := course_resumed (e := .mainFunc) (k := 0) h (resume_caller hkind h)
  have hcaller := course_resumed (e := .callerMainFunc) (k := 0) h (resume_caller hkind h)
  rw [leave_mainFunc] at hmain
  cases hout : p.leaving n with
  | none =>
      right
      refine ⟨hout, ?_⟩
      cases hpart : part cb n with
      | yields pause => exact ⟨pause, rfl⟩
      | ends o =>
          -- a new fiber goes back, a reset one has no main fiber to switch to
          have hsame := hlike.same 1
          rw [hmain.1 .nullMainFiber (by rw [hout]; rfl), hcaller.2 _ (leave_ends hpart)] at hsame
          cases hsame
  | some t =>
      left
      have hproper := hlike.proper 1
      rw [hmain.2 t (by rw [hout]; rfl), allProper_cons] at hproper
      exact hout.trans (hproper.1.symm.trans (home_caller hkind))

/-- The first `n` parts yield, and the main fiber of the thread goes on each time. -/
def Place.Returned (p : Place) (cb : Option Parts) (n : Nat) : Prop :=
  Yields cb n ∧ ∀ i < n, p.leaving i = some p.threadFiber

theorem Place.Returned.succ (h : p.Returned cb n) {pause : Pause}
    (hpart : part cb n = .yields pause) (hleaving : p.leaving n = some p.threadFiber) :
    p.Returned cb (n + 1) := by
  refine ⟨h.1.succ hpart, fun i hi ↦ ?_⟩
  by_cases heq : i = n
  · exact heq ▸ hleaving
  · exact h.2 i (by omega)

theorem Place.LikeFrom.returned (hlike : p.LikeFrom cb 0) (hkind : p.useCaller = true)
    (h : p.Returned cb n) : p.LikeFrom cb n := by
  induction n with
  | zero => exact hlike
  | succ n ih =>
      have hyields : Yields cb n := fun i hi ↦ h.1 i (by omega)
      rcases h.1 n (Nat.lt_succ_self n) with ⟨pause, hpart⟩
      have hn := ih ⟨hyields, fun i hi ↦ h.2 i (by omega)⟩
      exact hn.next hkind hyields (h.2 n (Nat.lt_succ_self n)) hpart

/-- With the main fiber of the `Scheduler` where it has to be, the two entry functions agree. -/
theorem same_caller (hkind : p.useCaller = true) (hhome : ∀ n, p.Returned cb n → p.Home cb n)
    (h : p.Returned cb n) :
    p.course k n false (stopped cb .mainFunc n) = p.course k n false (stopped cb .callerMainFunc n) ∧
      p.AllProper n (p.course k n false (stopped cb .mainFunc n)) := by
  induction k generalizing n with
  | zero => exact ⟨rfl, allProper_nil⟩
  | succ k ih =>
      rcases hhome n h with hleaving | ⟨hnone, pause, hpart⟩
      · have hmain : p.leave cb .mainFunc n = .ok p.threadFiber := by
          rw [leave_mainFunc, hleaving]
          rfl
        cases hpart : part cb n with
        | yields pause =>
            have hcaller : p.leave cb .callerMainFunc n = .ok p.threadFiber := by
              rw [leave_yields hpart, hleaving]
              rfl
            have hrest := ih (h.succ hpart hleaving)
            rw [course_home hkind h.1 hmain, course_home hkind h.1 hcaller, hrest.1, allProper_cons,
              ← hrest.1, stopped_state .mainFunc .callerMainFunc]
            exact ⟨rfl, home_caller hkind, hrest.2⟩
        | ends o =>
            rw [course_home hkind h.1 hmain, course_home hkind h.1 (leave_ends hpart),
              course_ended hpart, course_ended hpart, allProper_cons,
              stopped_state .mainFunc .callerMainFunc]
            exact ⟨rfl, home_caller hkind, allProper_nil⟩
      -- a yield needs the main fiber of the `Scheduler`, whatever the entry function
      · have hleave : ∀ e, p.leave cb e n = .error .nullMainFiber := by
          intro e
          rw [leave_yields hpart, hnone]
          rfl
        rw [(course_resumed h.1 (resume_caller hkind h.1)).1 _ (hleave _),
          (course_resumed h.1 (resume_caller hkind h.1)).1 _ (hleave _), allProper_cons]
        exact ⟨rfl, nofun, allProper_nil⟩

/-- A caller fiber has to find the main fiber of the thread where `reset` makes it look for the main
fiber of the `Scheduler`. -/
theorem likeNew_iff {gFiberStackSize : BitVec 32} {fb : FiberObject}
    (hstate : fb.state.resettable = true) :
    p.LikeNew gFiberStackSize fb cb ↔
      p.useCaller = false ∨ ∀ n, p.Returned cb n → p.Home cb n := by
  have hreset : reset fb cb = .ok { fb with state := .init, ctx := .entry .mainFunc, cb := cb } :=
    if_pos hstate
  have hzero : Yields cb 0 := fun i hi ↦ absurd hi (Nat.not_lt_zero i)
  have hindex : ∀ l, p.AllProper 0 l ↔ ∀ n e, l[n]? = some e → p.Proper n e := by
    intro l
    unfold Place.AllProper
    simp only [Nat.zero_add]
  cases hkind : p.useCaller with
  | false =>
      refine ⟨fun _ ↦ .inl rfl, fun _ ↦ ⟨_, hreset, fun k ↦ ?_, fun k ↦ ?_⟩⟩
      · rw [hkind]
        rfl
      · exact (hindex _).mp (allProper_worker hkind hzero)
  | true =>
      constructor
      · rintro ⟨fb', hok, hsame, hproper⟩
        rw [hreset] at hok
        cases hok
        rw [hkind] at hsame
        right
        intro n hn
        have hlike : p.LikeFrom cb 0 := ⟨hsame, fun k ↦ (hindex _).mpr (hproper k)⟩
        exact (hlike.returned hkind hn).home hkind hn.1
      · intro hhome
        have hall := hhome.resolve_left (by decide)
        have hboth : ∀ k, _ := fun k ↦ same_caller (k := k) hkind hall ⟨hzero, fun i hi ↦ by omega⟩
        refine ⟨_, hreset, fun k ↦ ?_, fun k ↦ (hindex _).mp (hboth k).2⟩
        rw [hkind]
        exact (hboth k).1

/-- A fiber that ran to its end. -/
def ended : FiberObject := ⟨⟨.term, .ended, none⟩, 1024⟩

/-- A fiber that a worker of a `Scheduler` resumes; the worker's main fiber is that of its thread. -/
def onWorker : Place where
  self := 1
  useCaller := false
  threadFiber := 0
  resuming := fun _ ↦ some 0
  leaving := fun _ ↦ some 0
  sub := by decide
  root := fun _ _ ↦ by decide

theorem likeNew_iff_worker : onWorker.LikeNew 0 ended (some fun i ↦
    if i = 0 then .yields .hold else .ends .returns) :=
  (likeNew_iff (by decide)).mpr (.inl rfl)

/-- The root fiber of a `Scheduler`, which is the main fiber of the `Scheduler` itself. -/
def rootFiber : Place where
  self := 1
  useCaller := true
  threadFiber := 0
  resuming := fun _ ↦ some 1
  leaving := fun _ ↦ some 1
  sub := by decide
  root := nofun

/-- After `reset` the root fiber switches to itself at the end, and comes back to `mainFunc`. -/
theorem not_likeNew :
    (reset ended (some fun _ ↦ .ends .returns)).toOption.map
        (fun fb ↦ rootFiber.course 2 0 false fb.toCoroutine) =
      some [.part 0 .exec .term 1, .fault .neverReach] ∧
      rootFiber.course 2 0 false (new 0 (some fun _ ↦ .ends .returns) 1024 true).toCoroutine =
        [.part 0 .exec .term 0] ∧
      ¬ rootFiber.LikeNew 0 ended (some fun _ ↦ .ends .returns) := by
  refine ⟨by decide, by decide, ?_⟩
  rintro ⟨fb', hok, hsame, -⟩
  cases hok
  exact absurd (hsame 1) (by decide)

end Server.Reset
