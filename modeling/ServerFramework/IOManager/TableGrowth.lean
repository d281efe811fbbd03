import ServerFramework.IOManager.Delivery

/-!
# Growth of the table under concurrent calls

`addEvent` looks for its context under the read lock and, when the table is too small, resizes it
under the write lock to a size computed from its own fd alone.  Between the two sections other calls
can grow the table further; the resize then shrinks it again and drops their contexts.
-/

namespace Server.IOManager

open Fallible Runs

/-! ## What a step can do to the table and to the kernel -/

/-- Every object is in the table, at the index in its `fd`. -/
def Homed (io : IOManager) : Prop :=
  ∀ p (ctx : FdContext), io.heap[p]? = some ctx → io.fdContexts[ctx.fd]? = some (some p)

/-- The pointer in the kernel is the one in the table. -/
def KernelPointers (io : IOManager) : Prop :=
  ∀ fd ev p, io.epoll fd = some ev → ev.data = .ptr p → io.fdContexts[fd]? = some (some p)

/-- One context is rewritten in place, and one call to the kernel names it. -/
structure Touches (io io' : IOManager) : Prop where
  table : io'.fdContexts = io.fdContexts
  context : ∃ p ctx ctx', io.heap[p]? = some ctx ∧ ctx'.fd = ctx.fd ∧ ctx'.WellFormed ∧
    io'.heap = io.heap.set p ctx'
  kernel : ∃ op fd w p ok, io.fdContexts[fd]? = some (some p) ∧
    epollCtl io.epoll op fd ⟨w, .ptr p⟩ ok = some io'.epoll

theorem Touches.homed {io io' : IOManager} (h : Touches io io') (hh : io.Homed) : io'.Homed := by
  obtain ⟨p, ctx, ctx', hctx, hfd, -, hheap⟩ := h.context
  intro q c hq
  rw [h.table]
  by_cases hpq : p = q
  · subst hpq
    rw [hheap, List.getElem?_set_self (List.getElem?_eq_some_iff.mp hctx).1] at hq
    rw [← Option.some.inj hq, hfd]
    exact hh p ctx hctx
  · rw [hheap, List.getElem?_set_ne hpq] at hq
    exact hh q c hq

theorem Touches.kernelPointers {io io' : IOManager} (h : Touches io io') (hk : io.KernelPointers) :
    io'.KernelPointers := by
  obtain ⟨op, fd, w, p, ok, hp, hepoll⟩ := h.kernel
  intro fd' ev q hev hdata
  rw [h.table]
  by_cases hfd : fd' = fd
  · subst hfd
    rw [epollCtl_self hepoll] at hev
    split at hev
    · cases hev
    · cases hev
      cases hdata
      exact hp
  · rw [epollCtl_other hepoll hfd] at hev
    exact hk fd' ev q hev hdata

theorem Touches.sound {io io' : IOManager} (h : Touches io io') (hs : io.Sound) : io'.Sound := by
  obtain ⟨p, ctx, ctx', hctx, hfd, hwf, hheap⟩ := h.context
  exact hs.set hctx hwf hfd h.table hheap

theorem touches_delivered {io : IOManager} (hs : io.Sound) {fd : Nat} {p : FdPtr} {ctx : FdContext}
    {es : List Event} {op : EpollOp} {w : Word} {ok : Bool} {epoll : Interest}
    (hctx : io.heap[p]? = some ctx) (hp : io.fdContexts[fd]? = some (some p))
    (hepoll : epollCtl io.epoll op fd ⟨w, .ptr p⟩ ok = some epoll) :
    Touches io (io.delivered p ctx es epoll) where
  table := rfl
  context := ⟨p, ctx, ctx.clearAll es, hctx, FdContext.clearAll_fd _ _,
    (hs.wellFormed.at hctx).clearAll _, rfl⟩
  kernel := ⟨op, fd, w, p, ok, hp, hepoll⟩

/-- A call other than `addEvent` changes nothing, or touches one context. -/
theorem touches_of_change {io io' : IOManager} (hsound : io.Sound) (hh : io.Homed) {op : Op}
    (hc : Change io op io') (hadd : ∀ fd event caller cb ok, op ≠ .addEvent fd event caller cb ok) :
    io' = io ∨ Touches io io' := by
  cases hc with
  | same => exact .inl rfl
  | grown => exact absurd rfl (hadd _ _ _ _ _)
  | registered => exact absurd rfl (hadd _ _ _ _ _)
  | discarded hat hepoll =>
      exact .inr ⟨rfl, ⟨_, _, _, hat.2, FdContext.clear_fd _ _,
        (hsound.wellFormed.at hat.2).clear _, rfl⟩, ⟨_, _, _, _, _, hat.1, hepoll⟩⟩
  | cancelled hat htr hepoll | cancelledAll hat htr hepoll =>
      exact .inr (touches_delivered hsound hat.2 hat.1 hepoll)
  | reported hdata hctx htr hepoll =>
      -- `idle` gets its pointer from the kernel, and names the descriptor that the context carries
      exact .inr (touches_delivered hsound hctx (hh _ _ hctx) hepoll)

/-- The locked section changes nothing, or touches the context it was given. -/
theorem touches_of_addEventLocked {io io' : IOManager} (hsound : io.Sound) {p : FdPtr} {fd : Fd}
    (hp : io.fdContexts[fd.val]? = some (some p)) {event : Event} {caller : Caller}
    {cb : Option Callback} {ok : Bool} {r : Int}
    (h : io.addEventLocked p fd event caller cb ok = .ok (r, io')) : io' = io ∨ Touches io io' := by
  rcases addEventLocked_ok h with ⟨-, rfl⟩ | ⟨-, ctx, epoll, ec, hctx, -, -, hec, hepoll, rfl⟩
  · exact .inl rfl
  · exact .inr ⟨rfl, ⟨_, _, _, hctx, FdContext.register_fd _ _ _,
      (hsound.wellFormed.at hctx).register _ (newHandler_loaded hec).1, rfl⟩,
      ⟨_, _, _, _, _, hp, hepoll⟩⟩

theorem contextResize_homed {io : IOManager} (hh : io.Homed) {size : Nat}
    (hsize : io.fdContexts.length ≤ size) : (io.contextResize size).Homed := by
  intro q ctx hq
  -- an object that was there keeps its place, and a new one is entered where it is allocated
  by_cases hold : q < io.heap.length
  · have hctx := List.getElem?_eq_getElem hold
    rw [contextResize_getElem?_heap hctx] at hq
    rw [← Option.some.inj hq]
    have hin := hh q _ hctx
    exact contextResize_keeps hin
      (Nat.lt_of_lt_of_le (List.getElem?_eq_some_iff.mp hin).1 hsize)
  · obtain ⟨k, rfl, hk⟩ := fillNulls_new io.heap 0 _ (Nat.le_of_not_lt hold) hq
    rw [Nat.zero_add]
    exact hk

/-! ## The sections of concurrent calls -/

/-- The arguments of a call to `addEvent`, and what it reads from its thread. -/
structure AddArgs where
  fd : Fd
  event : Event
  caller : Caller
  cb : Option Callback
  deriving DecidableEq, Repr

/-- Where a thread is in a call to `addEvent`. -/
inductive Call where
  | none
  /-- between `lock.unlock()` and the write lock -/
  | toGrow (args : AddArgs)
  /-- with its `fdCtx`, before the lock of the context -/
  | toLock (p : FdPtr) (args : AddArgs)
  /-- `m_fdContexts[fd]` was read out of bounds -/
  | faulted
  deriving DecidableEq, Repr

/-- The manager and the threads `T` that are calling it. -/
structure Calls (T : Type) where
  io : IOManager
  calls : T → Call

inductive CallStep (T : Type) where
  | find (t : T) (args : AddArgs)
  | grow (t : T)
  | lock (t : T) (ok : Bool)
  /-- any other call, or a report, at once -/
  | other (op : Op)

namespace Calls

variable {T : Type}

/-- What the calls of `addEvent` rely on. -/
structure Stable (s : Calls T) : Prop where
  sound : s.io.Sound
  homed : s.io.Homed
  kernel : s.io.KernelPointers
  found : ∀ t p args, s.calls t = .toLock p args → s.io.fdContexts[args.fd.val]? = some (some p)

theorem Stable.touches {s : Calls T} (h : Stable s) {io' : IOManager} (ht : Touches s.io io') :
    Stable { s with io := io' } where
  sound := ht.sound h.sound
  homed := ht.homed h.homed
  kernel := ht.kernelPointers h.kernel
  found := by
    intro t p args hc
    show io'.fdContexts[args.fd.val]? = some (some p)
    rw [ht.table]
    exact h.found t p args hc

theorem Stable.resized {s : Calls T} (h : Stable s) {size : Nat}
    (hsize : s.io.fdContexts.length ≤ size) : Stable { s with io := s.io.contextResize size } where
  sound := ⟨h.sound.wellFormed.contextResize _, contextResize_filled h.sound.filled _⟩
  homed := contextResize_homed h.homed hsize
  kernel := by
    intro fd ev p hev hdata
    have hp := h.kernel fd ev p hev hdata
    exact contextResize_keeps hp (Nat.lt_of_lt_of_le (List.getElem?_eq_some_iff.mp hp).1 hsize)
  found := by
    intro t p args hc
    have hp := h.found t p args hc
    exact contextResize_keeps hp (Nat.lt_of_lt_of_le (List.getElem?_eq_some_iff.mp hp).1 hsize)

theorem Stable.other {s : Calls T} (h : Stable s) {io' : IOManager}
    (ht : io' = s.io ∨ Touches s.io io') :
    Stable { s with io := io' } ∧ s.io.fdContexts <+: io'.fdContexts := by
  rcases ht with rfl | ht
  · exact ⟨h, List.prefix_refl _⟩
  · refine ⟨h.touches ht, ?_⟩
    rw [ht.table]

variable [DecidableEq T]

/-- The write-locked section. -/
def grow (s : Calls T) (t : T) (args : AddArgs) : Calls T :=
  let io := s.io.contextResize (growSize args.fd)
  match io.contextPtr args.fd with
  | .ok p => ⟨io, Function.update s.calls t (.toLock p args)⟩
  | .error _ => ⟨io, Function.update s.calls t .faulted⟩

def step (s : Calls T) : CallStep T → Option (Calls T)
  | .find t args =>
    match s.calls t, s.io.addEventFind args.fd with
    -- `static_cast<int>(m_fdContexts.size()) > fd`
    | .none, .ok (some p) => some { s with calls := Function.update s.calls t (.toLock p args) }
    | .none, .ok none => some { s with calls := Function.update s.calls t (.toGrow args) }
    | _, _ => none
  | .grow t =>
    match s.calls t with
    | .toGrow args => some (s.grow t args)
    | _ => none
  | .lock t ok =>
    match s.calls t with
    | .toLock p args =>
      match s.io.addEventLocked p args.fd args.event args.caller args.cb ok with
      | .ok (_, io) => some ⟨io, Function.update s.calls t .none⟩
      | .error _ => none
    | _ => none
  | .other op =>
    match op with
    | .addEvent .. => none
    | op => (s.io.step op).toOption.map fun io ↦ { s with io := io }

def start (notifyFd : Fd) : Calls T := ⟨construct notifyFd, fun _ ↦ .none⟩

/-- A thread that enters the write-locked section finds the table no larger than it will make it. -/
def growsTable (s : Calls T) : CallStep T → Bool
  | .grow t =>
    match s.calls t with
    | .toGrow args => decide (s.io.fdContexts.length ≤ growSize args.fd)
    | _ => true
  | _ => true

/-- The sections of one call, run without interruption, are the call. -/
theorem addEvent_sections {s : Calls T} {t : T} {args : AddArgs} {ok : Bool} {r : Int}
    {io' : IOManager} (ht : s.calls t = .none)
    (h : s.io.addEvent args.fd args.event args.caller args.cb ok = .ok (r, io')) :
    ∃ as, Run (Of step) s as { s with io := io' } := by
  -- the thread ends up outside the call again
  have hback : ∀ c, Function.update (Function.update s.calls t c) t .none = s.calls := by
    intro c
    rw [Function.update_idem, ← ht, Function.update_eq_self]
  unfold addEvent at h
  obtain ⟨found, hfind, h⟩ := bind_ok h
  cases found with
  | some p =>
      have h₁ : Of step s (.find t args) ⟨s.io, Function.update s.calls t (.toLock p args)⟩ := by
        simp only [Of, step, ht, hfind]
      have h₂ : Of step ⟨s.io, Function.update s.calls t (.toLock p args)⟩ (.lock t ok)
          { s with io := io' } := by
        simp only [Of, step, Function.update_self, h, hback]
      exact ⟨_, .cons h₁ (.cons h₂ (.nil _))⟩
  | none =>
      obtain ⟨⟨p, io₁⟩, hgrow, h⟩ := bind_ok h
      obtain ⟨p', hp, heq⟩ := map_ok hgrow
      obtain ⟨rfl, rfl⟩ := Prod.mk.inj heq
      have h₁ : Of step s (.find t args) ⟨s.io, Function.update s.calls t (.toGrow args)⟩ := by
        simp only [Of, step, ht, hfind]
      have h₂ : Of step ⟨s.io, Function.update s.calls t (.toGrow args)⟩ (.grow t)
          ⟨s.io.contextResize (growSize args.fd), Function.update s.calls t (.toLock p' args)⟩ := by
        simp only [Of, step, grow, Function.update_self, hp, Function.update_idem]
      have h₃ : Of step
          ⟨s.io.contextResize (growSize args.fd), Function.update s.calls t (.toLock p' args)⟩
          (.lock t ok) { s with io := io' } := by
        simp only [Of, step, Function.update_self, h, hback]
      exact ⟨_, .cons h₁ (.cons h₂ (.cons h₃ (.nil _)))⟩

theorem Stable.update {s : Calls T} (h : Stable s) (t : T) (c : Call)
    (hc : ∀ p args, c = .toLock p args → s.io.fdContexts[args.fd.val]? = some (some p)) :
    Stable { s with calls := Function.update s.calls t c } where
  sound := h.sound
  homed := h.homed
  kernel := h.kernel
  found := by
    intro t' p args ht'
    by_cases heq : t' = t
    · subst heq
      exact hc p args ((Function.update_self t' c s.calls).symm.trans ht')
    · exact h.found t' p args ((Function.update_of_ne heq c s.calls).symm.trans ht')

theorem find_ok {io : IOManager} {fd : Fd} {p : FdPtr} (h : io.addEventFind fd = .ok (some p)) :
    io.fdContexts[fd.val]? = some (some p) := by
  unfold addEventFind at h
  split at h
  · obtain ⟨q, hq, heq⟩ := map_ok h
    cases heq
    exact contextPtr_ok hq
  · cases h

/-- The write-locked section keeps the table exactly when it does not shrink it. -/
theorem grow_prefix_iff {s : Calls T} (h : Stable s) (t : T) (args : AddArgs) :
    s.io.fdContexts <+: (s.grow t args).io.fdContexts ↔
      s.io.fdContexts.length ≤ growSize args.fd := by
  have hio : (s.grow t args).io = s.io.contextResize (growSize args.fd) := by
    unfold grow
    dsimp only
    split <;> rfl
  rw [hio]
  exact contextResize_prefix_iff h.sound.filled _

theorem Stable.grow {s : Calls T} (h : Stable s) {t : T} {args : AddArgs}
    (hsize : s.io.fdContexts.length ≤ growSize args.fd) : Stable (s.grow t args) := by
  have hres := h.resized hsize
  unfold Calls.grow
  dsimp only
  split
  · rename_i p hp
    apply hres.update t _
    intro q args' heq
    cases heq
    exact contextPtr_ok hp
  · exact hres.update t _ nofun

/-- One section of one call, or any other call, keeps the table. -/
theorem Stable.step {s s' : Calls T} (h : Stable s) {a : CallStep T} (hok : s.growsTable a = true)
    (hs : Of step s a s') : Stable s' ∧ s.io.fdContexts <+: s'.io.fdContexts := by
  unfold Of at hs
  cases a with
  | find t args =>
      simp only [Calls.step] at hs
      split at hs
      · rename_i p hcall hfind
        cases hs
        refine ⟨h.update t _ fun q args' heq ↦ ?_, List.prefix_refl _⟩
        cases heq
        exact find_ok hfind
      · cases hs
        exact ⟨h.update t _ nofun, List.prefix_refl _⟩
      · cases hs
  | grow t =>
      simp only [Calls.step] at hs
      split at hs
      · rename_i args hcall
        cases hs
        simp only [growsTable, hcall, decide_eq_true_eq] at hok
        exact ⟨h.grow hok, (grow_prefix_iff h t args).mpr hok⟩
      · cases hs
  | lock t ok =>
      -- the pointer was read before the lock, and is still the one in the table
      simp only [Calls.step] at hs
      split at hs
      · rename_i p args hcall
        split at hs
        · rename_i r io' hlocked
          cases hs
          have hp := h.found t p args hcall
          have hother := h.other (touches_of_addEventLocked h.sound hp hlocked)
          exact ⟨hother.1.update t .none nofun, hother.2⟩
        · cases hs
      · cases hs
  | other op =>
      have hstep : (∀ fd event caller cb ok, op ≠ .addEvent fd event caller cb ok) ∧
          ∃ io', Step s.io op io' ∧ s' = { s with io := io' } := by
        cases op with
        | addEvent => cases hs
        | _ =>
            obtain ⟨io', hio, rfl⟩ := Option.map_eq_some_iff.mp hs
            exact ⟨nofun, io', toOption_eq_some hio, rfl⟩
      obtain ⟨hadd, io', hio, rfl⟩ := hstep
      exact h.other (touches_of_change h.sound h.homed
        (step_cases h.sound.wellFormed hio) hadd)

omit [DecidableEq T] in
theorem start_stable (notifyFd : Fd) : Stable (start notifyFd : Calls T) where
  sound := construct_sound notifyFd
  homed := by
    refine contextResize_homed ?_ (Nat.zero_le _)
    intro p ctx hp
    cases hp
  kernel := by
    intro fd ev p hev hdata
    rw [construct_epoll hev] at hdata
    cases hdata
  found := nofun

/-- Calls in which every write-locked section finds the table no larger than it will make it. -/
def Growing : Calls T → CallStep T → Calls T → Prop :=
  Guarded (Of step) fun s a ↦ s.growsTable a = true

theorem run_stable {notifyFd : Fd} {as : List (CallStep T)} {s : Calls T}
    (h : Run Growing (start notifyFd) as s) : Stable s :=
  h.invariant (fun _ _ _ hs hstep ↦ (hs.step hstep.2 hstep.1).1) (start_stable notifyFd)

/-- Whatever was in the table stays at its index, and the pointers in the kernel are those in the
table. -/
theorem table_stable {notifyFd : Fd} {as bs : List (CallStep T)} {s s' : Calls T}
    (h : Run Growing (start notifyFd) as s) (h' : Run Growing s bs s') :
    s.io.fdContexts <+: s'.io.fdContexts ∧
      ∀ fd ev p, s'.io.epoll fd = some ev → ev.data = .ptr p →
        s'.io.fdContexts[fd]? = some (some p) := by
  refine ⟨?_, (run_stable (h.append h')).kernel⟩
  exact h'.relates (P := fun s s' ↦ s.io.fdContexts <+: s'.io.fdContexts)
    (fun _ ↦ List.prefix_refl _) (fun _ _ _ ↦ List.IsPrefix.trans)
    (fun _ _ _ hs hstep ↦ (hs.step hstep.2 hstep.1).1)
    (fun _ _ _ hs hstep ↦ (hs.step hstep.2 hstep.1).2) (run_stable h)

/-- An `addEvent` of `READ` with a callback. -/
def someAdd (fd : Fd) : AddArgs := ⟨fd, .read, someCaller, some 7⟩

/-- Two calls that both find the table too small, and grow it in the order of their fds. -/
theorem table_stable_pair : ∃ s s' : Calls Nat,
    Run Growing (start 4) [.find 0 (someAdd 40), .find 1 (someAdd 100), .grow 0, .lock 0 true] s ∧
      Run Growing s [.grow 1, .lock 1 true, .other (.delEvent 40 .read true)] s' ∧
      s.io.fdContexts <+: s'.io.fdContexts ∧
      ∀ fd ev p, s'.io.epoll fd = some ev → ev.data = .ptr p →
        s'.io.fdContexts[fd]? = some (some p) := by
  obtain ⟨s, s', h, h', -⟩ := exists_run_pair (R := Growing) step growsTable
    (fun s a s' hs hok ↦ ⟨hs, hok⟩) (start 4)
    [.find 0 (someAdd 40), .find 1 (someAdd 100), .grow 0, .lock 0 true]
    [.grow 1, .lock 1 true, .other (.delEvent 40 .read true)] (P := fun _ _ ↦ true)
    (by decide +kernel)
  exact ⟨s, s', h, h', table_stable h h'⟩

/-- In the other order, the call for the smaller fd drops the context of the larger one. -/
theorem table_not_stable : ∃ s s' : Calls Nat,
    Run (Of step) (start 4) [.find 0 (someAdd 40), .find 1 (someAdd 100), .grow 1, .lock 1 true] s ∧
      Run (Of step) s [.grow 0] s' ∧
      s.io.fdContexts[100]? = some (some 100) ∧ s'.io.fdContexts[100]? = none ∧
      (s'.io.epoll 100).map (·.data) = some (.ptr 100) := by
  obtain ⟨s, s', h, h', hP⟩ := exists_run_pair (R := Of step) step (fun _ _ ↦ true)
    (fun s a s' hs _ ↦ hs) (start 4)
    [.find 0 (someAdd 40), .find 1 (someAdd 100), .grow 1, .lock 1 true] [.grow 0]
    (P := fun s s' ↦ decide (s.io.fdContexts[100]? = some (some 100) ∧
      s'.io.fdContexts[100]? = none ∧ (s'.io.epoll 100).map (·.data) = some (.ptr 100)))
    (by decide +kernel)
  exact ⟨s, s', h, h', of_decide_eq_true hP⟩

end Calls

end Server.IOManager
