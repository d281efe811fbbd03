import ServerFramework.IOManager.TableGrowth

/-!
# The kernel's copy of the registrations

Every operation tells the kernel first, and changes the mask of the `FdContext` once `epoll_ctl` has
succeeded.  The two copies agree in every reachable state, except for the descriptor of the notify
pipe, which the constructor registers without a context.
-/

namespace Server.IOManager

open Fallible Runs

/-- The context of a descriptor.  Without one, nothing is registered. -/
def context (io : IOManager) (fd : Nat) : FdContext :=
  match io.fdContexts[fd]? with
  | some (some p) => (io.heap[p]?).getD (.new fd)
  | _ => .new fd

/-- The interest mask that the events of a descriptor call for. -/
def interest (io : IOManager) (fd : Nat) : Option Word :=
  if (io.context fd).events.word = NONE then none
  else some (EPOLLET ||| (io.context fd).events.word)

/-! ## The calls to `epoll_ctl` -/

structure CtlCall where
  op : EpollOp
  fd : Nat
  event : EpollEvent
  ok : Bool
  deriving DecidableEq, Repr

def CtlCall.result (c : CtlCall) (epoll : Interest) : Option Interest :=
  epollCtl epoll c.op c.fd c.event c.ok

def removalCall (p : FdPtr) (fd : Nat) (left : EventSet) (ok : Bool) : CtlCall :=
  ⟨removalOp left, fd, ⟨EPOLLET ||| left.word, .ptr p⟩, ok⟩

/-- `m_fdContexts[fd]` and what it points to. -/
def located (io : IOManager) (fd : Fd) : Option (FdPtr × FdContext) := do
  let p ← (io.contextPtr fd).toOption
  let ctx ← (io.deref p).toOption
  return (p, ctx)

/-- The state in which `addEvent` enters the lock of the context. -/
def entering (io : IOManager) (fd : Fd) : IOManager :=
  if (fd : Int) < io.tableSize then io else io.contextResize (growSize fd)

/-- The call that a step makes, unless it returns before it. -/
def ctlCall (io : IOManager) : Op → Option CtlCall
  | .addEvent fd event _ _ ok => do
    let (p, ctx) ← (io.entering fd).located fd
    if ctx.events.has event then none
    else some ⟨if ctx.events.word ≠ 0#32 then .mod else .add, fd,
      ⟨EPOLLET ||| ctx.events.word ||| event.word, .ptr p⟩, ok⟩
  | .delEvent fd event ok =>
    if io.tableSize ≤ fd then none else do
    let (p, ctx) ← io.located fd
    some (removalCall p fd (ctx.events.erase event) ok)
  | .cancelEvent fd event ok =>
    if io.tableSize ≤ fd then none else do
    let (p, ctx) ← io.located fd
    if ctx.events.has event then some (removalCall p fd (ctx.events.erase event) ok) else none
  | .cancelAll fd ok =>
    if io.tableSize < fd then none else do
    let (p, ctx) ← io.located fd
    if ctx.events.word = 0#32 then none else some ⟨.del, fd, ⟨0#32, .ptr p⟩, ok⟩
  | .idle event ok =>
    match event.data with
    | .fd _ => none
    | .ptr p => do
      let ctx ← (io.deref p).toOption
      let real := realEvents event.events
      if ctx.events.word &&& real.word = NONE then none
      else some (removalCall p ctx.fd (ctx.events.diff real) ok)

/-- The kernel's map after that call, unless there is none or it fails. -/
def called (io : IOManager) (op : Op) : Option Interest :=
  (io.ctlCall op).bind fun c ↦ c.result io.epoll

/-- What a step returns; an `addEvent` returns `0` or `-1`. -/
def answer (io : IOManager) : Op → Option Bool
  | .addEvent fd event caller cb ok => (io.addEvent fd event caller cb ok).toOption.map fun x ↦ x.1 == 0
  | .delEvent fd event ok => (io.delEvent fd event ok).toOption.map Prod.fst
  | .cancelEvent fd event ok => (io.cancelEvent fd event ok).toOption.map Prod.fst
  | .cancelAll fd ok => (io.cancelAll fd ok).toOption.map Prod.fst
  | .idle _ _ => none

/-- A `delEvent` names an event that is registered. -/
def Wanted (io : IOManager) : Op → Prop
  | .delEvent fd event _ => (io.context fd).events.has event = true
  | _ => True

/-- An `addEvent` that grows the table grows it to a size that fits an `int`. -/
def Fits (io : IOManager) : Op → Prop
  | .addEvent fd _ _ _ _ => fd.val < io.fdContexts.length ∨ growSize fd < 2 ^ 31
  | _ => True

/-- `ADD` needs an absent descriptor, `MOD` and `DEL` a present one. -/
theorem epollCtl_isSome_iff {epoll : Interest} {op : EpollOp} {fd : Nat} {event : EpollEvent} :
    (epollCtl epoll op fd event true).isSome = true ↔ (op = .add ↔ epoll fd = none) := by
  unfold epollCtl
  rw [if_pos rfl]
  cases op <;> cases epoll fd <;> simp

theorem removalOp_ne_add {left : EventSet} : removalOp left ≠ .add := by
  unfold removalOp
  split <;> nofun

/-! ## The context of a descriptor -/

section

variable {io io' : IOManager} {fd : Nat} {p : FdPtr} {ctx ctx' : FdContext}

theorem context_eq (hp : io.fdContexts[fd]? = some (some p)) (hctx : io.heap[p]? = some ctx) :
    io.context fd = ctx := by
  unfold context
  simp only [hp, hctx, Option.getD_some]

theorem TableFilled.fd_eq (hf : io.TableFilled) (hp : io.fdContexts[fd]? = some (some p))
    (hctx : io.heap[p]? = some ctx) : ctx.fd = fd := by
  obtain ⟨q, c, hq, hc, hfd⟩ := hf fd (List.getElem?_eq_some_iff.mp hp).1
  cases hp.symm.trans hq
  cases hctx.symm.trans hc
  exact hfd

/-- Rewriting the context of one descriptor leaves those of the others. -/
theorem context_rewritten (hf : io.TableFilled) (hp : io.fdContexts[fd]? = some (some p))
    (hctx : io.heap[p]? = some ctx) (htable : io'.fdContexts = io.fdContexts)
    (hheap : io'.heap = io.heap.set p ctx') (k : Nat) :
    io'.context k = if k = fd then ctx' else io.context k := by
  by_cases hk : k = fd
  · subst hk
    rw [if_pos rfl]
    apply context_eq (p := p)
    · rw [htable, hp]
    · rw [hheap, List.getElem?_set_self (List.getElem?_eq_some_iff.mp hctx).1]
  · rw [if_neg hk]
    unfold context
    rw [htable]
    split
    · rename_i q hq
      -- two descriptors do not share a context
      have hpq : p ≠ q := by
        rintro rfl
        exact hk ((hf.fd_eq hq hctx).symm.trans (hf.fd_eq hp hctx))
      rw [hheap, List.getElem?_set_ne hpq]
    · rfl

theorem context_outside (hfd : io.fdContexts.length ≤ fd) : io.context fd = .new fd := by
  unfold context
  rw [List.getElem?_eq_none hfd]

/-- A resize that keeps the entry of a descriptor gives it no other context. -/
theorem context_contextResize (hf : io.TableFilled) {size : Nat}
    (hsize : fd < io.fdContexts.length → fd < size) :
    (io.contextResize size).context fd = io.context fd := by
  by_cases hfd : fd < io.fdContexts.length
  · obtain ⟨p, ctx, hp, hctx, -⟩ := hf fd hfd
    rw [context_eq hp hctx]
    exact context_eq (contextResize_keeps hp (hsize hfd)) (contextResize_getElem?_heap hctx size)
  · rw [context_outside (Nat.le_of_not_lt hfd)]
    rcases fillNulls_getElem? io.heap 0 (resizeTable io.fdContexts size) fd with
      ⟨hn, -⟩ | ⟨p, hp, hsome | ⟨-, hnew⟩⟩
    · apply context_outside
      exact List.getElem?_eq_none_iff.mp hn
    · -- what is behind the end of the old table is null
      rw [resizeTable_getElem?, if_neg hfd] at hsome
      split at hsome <;> cases hsome
    · rw [Nat.zero_add] at hnew
      exact context_eq hp hnew

end

/-! ## The two copies agree -/

structure Mirrored (notifyFd : Fd) (io : IOManager) : Prop where
  sound : io.Sound
  homed : io.Homed
  small : io.fdContexts.length < 2 ^ 31
  notify : io.notifyFd = notifyFd
  kernel : ∀ fd, fd ≠ notifyFd.val → (io.epoll fd).map (·.events) = io.interest fd

section

variable {notifyFd : Fd} {io io' : IOManager} {p : FdPtr} {ctx ctx' : FdContext}

theorem Entered.eq_entering {fd : Fd} (h : Entered io fd io') : io' = io.entering fd := by
  unfold entering
  rcases h with ⟨rfl, hlt⟩ | ⟨rfl, hge⟩
  · rw [if_pos hlt]
  · rw [if_neg (Int.not_lt.mpr hge)]

/-- Where the table has to grow, it does grow. -/
theorem Mirrored.length_le (h : io.Mirrored notifyFd) {fd : Fd} (hge : ¬ (fd : Int) < io.tableSize) :
    io.fdContexts.length ≤ growSize fd := by
  rw [tableSize_eq h.small] at hge
  have hgrow := lt_growSize_succ fd
  omega

theorem Mirrored.context_entering (h : io.Mirrored notifyFd) (fd : Fd) (k : Nat) :
    (io.entering fd).context k = io.context k := by
  unfold entering
  split
  · rfl
  · rename_i hge
    exact context_contextResize h.sound.filled fun hk ↦ Nat.lt_of_lt_of_le hk (h.length_le hge)

theorem Mirrored.entered (h : io.Mirrored notifyFd) {fd : Fd}
    (hfits : fd.val < io.fdContexts.length ∨ growSize fd < 2 ^ 31) :
    (io.entering fd).Mirrored notifyFd := by
  unfold entering
  split
  · exact h
  · rename_i hge
    have hlen := h.length_le hge
    have hsmall := h.small
    refine ⟨⟨h.sound.wellFormed.contextResize _, contextResize_filled h.sound.filled _⟩,
      contextResize_homed h.homed hlen, ?_, h.notify, fun k hk ↦ ?_⟩
    · rw [contextResize_length]
      rw [tableSize_eq hsmall] at hge
      omega
    · unfold interest
      rw [context_contextResize h.sound.filled fun hk ↦ Nat.lt_of_lt_of_le hk hlen]
      exact h.kernel k hk

theorem Mirrored.rewritten (h : io.Mirrored notifyFd) {fd : Nat} {op : EpollOp} {w : Word} {ok : Bool}
    (hp : io.fdContexts[fd]? = some (some p)) (hctx : io.heap[p]? = some ctx)
    (hfd : ctx'.fd = ctx.fd) (hwf : ctx'.WellFormed) (htable : io'.fdContexts = io.fdContexts)
    (hheap : io'.heap = io.heap.set p ctx') (hnotify : io'.notifyFd = io.notifyFd)
    (hepoll : epollCtl io.epoll op fd ⟨w, .ptr p⟩ ok = some io'.epoll)
    (hdel : op = .del ↔ ctx'.events.word = NONE)
    (hmask : op ≠ .del → w = EPOLLET ||| ctx'.events.word) : io'.Mirrored notifyFd := by
  have ht : Touches io io' :=
    ⟨htable, ⟨p, ctx, ctx', hctx, hfd, hwf, hheap⟩, ⟨op, fd, w, p, ok, hp, hepoll⟩⟩
  refine ⟨ht.sound h.sound, ht.homed h.homed, htable ▸ h.small, hnotify.trans h.notify,
    fun k hk ↦ ?_⟩
  -- both sides change at this descriptor only, and there in the same way
  unfold interest
  rw [epollCtl_eq_update hepoll, context_rewritten h.sound.filled hp hctx htable hheap]
  by_cases hkfd : k = fd
  · subst hkfd
    rw [Function.update_self, if_pos rfl]
    by_cases hop : op = .del
    · rw [if_pos hop, if_pos (hdel.mp hop)]
      rfl
    · rw [if_neg hop, if_neg (mt hdel.mpr hop), ← hmask hop]
      rfl
  · rw [Function.update_of_ne hkfd, if_neg hkfd]
    exact h.kernel k hk

theorem Mirrored.removed (h : io.Mirrored notifyFd) {fd : Nat} {left : EventSet} {ok : Bool}
    (hp : io.fdContexts[fd]? = some (some p)) (hctx : io.heap[p]? = some ctx)
    (hfd : ctx'.fd = ctx.fd) (hwf : ctx'.WellFormed) (hevents : ctx'.events = left)
    (htable : io'.fdContexts = io.fdContexts) (hheap : io'.heap = io.heap.set p ctx')
    (hnotify : io'.notifyFd = io.notifyFd)
    (hepoll : epollCtl io.epoll (removalOp left) fd ⟨EPOLLET ||| left.word, .ptr p⟩ ok =
      some io'.epoll) : io'.Mirrored notifyFd := by
  subst hevents
  exact h.rewritten hp hctx hfd hwf htable hheap hnotify hepoll removalOp_eq_del_iff fun _ ↦ rfl

theorem Mirrored.change (h : io.Mirrored notifyFd) {op : Op} (hfits : io.Fits op)
    (hc : Change io op io') : io'.Mirrored notifyFd := by
  cases hc with
  | same => exact h
  | grown he => exact he.eq_entering ▸ h.entered hfits
  | @registered _ _ event _ _ _ _ ctx _ _ he hat hhas hempty hec hepoll =>
      obtain rfl := he.eq_entering
      have h₁ := h.entered hfits
      -- an addition is never a `DEL`, and it leaves something registered
      have hne : (ctx.events.insert event).word ≠ NONE := by
        rw [EventSet.word_ne_none_iff]
        refine ⟨event, ?_⟩
        rw [EventSet.has_insert, decide_eq_true rfl, Bool.or_true]
      refine h₁.rewritten hat.1 hat.2 (FdContext.register_fd _ _ _)
        ((h₁.sound.wellFormed.at hat.2).register _ (newHandler_loaded hec).1) rfl rfl rfl hepoll
        ?_ ?_
      · rw [FdContext.register_events]
        refine ⟨fun hop ↦ ?_, fun hnone ↦ absurd hnone hne⟩
        split at hop <;> cases hop
      · intro _
        rw [FdContext.register_events]
        exact BitVec.or_assoc _ _ _
  | @discarded _ event _ p ctx _ hat hepoll =>
      exact h.removed hat.1 hat.2 (FdContext.clear_fd _ _)
        ((h.sound.wellFormed.at hat.2).clear _) (FdContext.clear_events _ _) rfl rfl rfl hepoll
  | cancelled hat htr hepoll =>
      exact h.removed hat.1 hat.2 (FdContext.clearAll_fd _ _)
        ((h.sound.wellFormed.at hat.2).clearAll [_]) (FdContext.clear_events _ _) rfl rfl rfl hepoll
  | @cancelledAll _ _ _ ctx _ hat htr hepoll =>
      -- nothing is left
      have hnone : (ctx.clearAll ctx.events.toList).events = .none := by
        rw [FdContext.clearAll_toList]
        apply EventSet.eq_of_has
        intro e
        rw [EventSet.has_diff, EventSet.has_none, Bool.and_not_self]
      refine h.rewritten hat.1 hat.2 (FdContext.clearAll_fd _ _)
        ((h.sound.wellFormed.at hat.2).clearAll _) rfl rfl rfl hepoll ?_ ?_
      · rw [hnone]
        exact ⟨fun _ ↦ rfl, fun _ ↦ rfl⟩
      · exact fun hop ↦ absurd rfl hop
  | reported hdata hctx htr hepoll =>
      exact h.removed (h.homed _ _ hctx) hctx (FdContext.clearAll_fd _ _)
        ((h.sound.wellFormed.at hctx).clearAll _) (FdContext.clearAll_toList _ _) rfl rfl rfl hepoll

theorem construct_mirrored (notifyFd : Fd) : (construct notifyFd).Mirrored notifyFd := by
  have hcontext : ∀ k, (construct notifyFd).context k = .new k := by
    intro k
    unfold construct
    rw [context_contextResize _ fun hk ↦ absurd hk (Nat.not_lt_zero k)]
    · rfl
    · exact fun k hk ↦ absurd hk (Nat.not_lt_zero k)
  refine ⟨construct_sound notifyFd, ?_, ?_, rfl, fun fd hfd ↦ ?_⟩
  · refine contextResize_homed ?_ (Nat.zero_le _)
    intro p ctx hp
    cases hp
  · unfold construct
    rw [contextResize_length]
    decide
  · unfold interest
    rw [hcontext, if_pos (show (FdContext.new fd).events.word = NONE from rfl)]
    show (Function.update (fun _ ↦ none) notifyFd.val _ fd).map _ = none
    rw [Function.update_of_ne hfd]
    rfl

/-! ## What a call is answered -/

theorem located_eq_some_iff {fd : Fd} {x : FdPtr × FdContext} :
    io.located fd = some x ↔ io.At fd x.1 x.2 := by
  unfold located
  constructor
  · intro h
    obtain ⟨q, hq, h⟩ := Option.bind_eq_some_iff.mp h
    obtain ⟨c, hc, h⟩ := Option.bind_eq_some_iff.mp h
    cases h
    exact ⟨contextPtr_ok (toOption_eq_some hq), deref_ok (toOption_eq_some hc)⟩
  · intro h
    rw [h.contextPtr, Except.toOption]
    show ((io.deref x.1).toOption.bind fun ctx ↦ some (x.1, ctx)) = some x
    rw [deref_eq h.2]
    rfl

/-! ## The calls that the operations make -/

theorem located_eq {fd : Fd} (hp : io.contextPtr fd = .ok p) (hctx : io.deref p = .ok ctx) :
    io.located fd = some (p, ctx) :=
  located_eq_some_iff.mpr ⟨contextPtr_ok hp, deref_ok hctx⟩

theorem addEvent_called {fd : Fd} {event : Event} {caller : Caller} {cb : Option Callback} {ok : Bool}
    {r : Int} (h : io.addEvent fd event caller cb ok = .ok (r, io')) :
    io'.epoll = (io.called (.addEvent fd event caller cb ok)).getD io.epoll ∧
      (r == 0) = (io.called (.addEvent fd event caller cb ok)).isSome := by
  obtain ⟨p, io₁, henter, hp, h⟩ := addEvent_ok h
  have hepoll₁ : io₁.epoll = io.epoll := Entered.epoll henter
  obtain rfl := Entered.eq_entering henter
  unfold addEventLocked at h
  obtain ⟨ctx, hctx, h⟩ := bind_ok h
  have hloc : (io.entering fd).located fd = some (p, ctx) :=
    located_eq_some_iff.mpr ⟨hp, deref_ok hctx⟩
  unfold called
  simp only [ctlCall, hloc, Option.bind_eq_bind, Option.bind_some, CtlCall.result]
  -- the assertion on a repeated event comes before the call
  cases hhas : ctx.events.has event with
  | true => simp only [hhas, if_true, reduceCtorEq] at h
  | false =>
      simp only [hhas, Bool.false_eq_true, if_false, hepoll₁] at h
      simp only [Bool.false_eq_true, if_false, Option.bind_some]
      split at h
      · rename_i hctl
        rw [hctl]
        cases h
        exact ⟨hepoll₁, rfl⟩
      · rename_i epoll hctl
        rw [hctl]
        split at h
        · obtain ⟨ec, -, h⟩ := bind_ok h
          cases h
          exact ⟨rfl, rfl⟩
        · cases h

theorem delEvent_called {fd : Fd} {event : Event} {ok r : Bool}
    (h : io.delEvent fd event ok = .ok (r, io')) :
    io'.epoll = (io.called (.delEvent fd event ok)).getD io.epoll ∧
      r = (io.called (.delEvent fd event ok)).isSome := by
  unfold delEvent at h
  unfold called
  split at h
  · rename_i hge
    simp only [ctlCall, if_pos hge]
    cases h
    exact ⟨rfl, rfl⟩
  · rename_i hlt
    obtain ⟨p, hp, h⟩ := bind_ok h
    obtain ⟨ctx, hctx, h⟩ := bind_ok h
    rw [if_neg (ctx.events.or_word_ne_zero event)] at h
    dsimp only at h
    simp only [ctlCall, if_neg hlt, located_eq hp hctx, Option.bind_eq_bind, Option.bind_some,
      CtlCall.result, removalCall]
    split at h
    all_goals
      rename_i hctl
      rw [hctl]
      cases h
      exact ⟨rfl, rfl⟩

theorem cancelEvent_called {fd : Fd} {event : Event} {ok r : Bool}
    (h : io.cancelEvent fd event ok = .ok (r, io')) :
    io'.epoll = (io.called (.cancelEvent fd event ok)).getD io.epoll ∧
      r = (io.called (.cancelEvent fd event ok)).isSome := by
  unfold cancelEvent at h
  unfold called
  split at h
  · rename_i hge
    simp only [ctlCall, if_pos hge]
    cases h
    exact ⟨rfl, rfl⟩
  · rename_i hlt
    obtain ⟨p, hp, h⟩ := bind_ok h
    obtain ⟨ctx, hctx, h⟩ := bind_ok h
    simp only [ctlCall, if_neg hlt, located_eq hp hctx, Option.bind_eq_bind, Option.bind_some,
      CtlCall.result, removalCall]
    split at h
    · rename_i hhas
      rw [if_pos hhas, Option.bind_some]
      dsimp only at h
      split at h
      · rename_i hctl
        rw [hctl]
        cases h
        exact ⟨rfl, rfl⟩
      · rename_i epoll hctl
        rw [hctl]
        obtain ⟨⟨ctx', queues⟩, -, h⟩ := bind_ok h
        split at h <;> cases h
        exact ⟨rfl, rfl⟩
    · rename_i hhas
      rw [if_neg hhas]
      cases h
      exact ⟨rfl, rfl⟩

theorem cancelAll_called {fd : Fd} {ok r : Bool} (h : io.cancelAll fd ok = .ok (r, io')) :
    io'.epoll = (io.called (.cancelAll fd ok)).getD io.epoll ∧
      r = (io.called (.cancelAll fd ok)).isSome := by
  unfold cancelAll at h
  unfold called
  split at h
  · rename_i hge
    simp only [ctlCall, if_pos hge]
    cases h
    exact ⟨rfl, rfl⟩
  · rename_i hlt
    obtain ⟨p, hp, h⟩ := bind_ok h
    obtain ⟨ctx, hctx, h⟩ := bind_ok h
    simp only [ctlCall, if_neg hlt, located_eq hp hctx, Option.bind_eq_bind, Option.bind_some,
      CtlCall.result]
    split at h
    · rename_i hzero
      rw [if_pos hzero]
      cases h
      exact ⟨rfl, rfl⟩
    · rename_i hne
      rw [if_neg hne, Option.bind_some]
      split at h
      · rename_i hctl
        rw [hctl]
        cases h
        exact ⟨rfl, rfl⟩
      · rename_i epoll hctl
        rw [hctl]
        obtain ⟨st, -, h⟩ := bind_ok h
        obtain ⟨st', -, h⟩ := bind_ok h
        dsimp only at h
        split at h <;> cases h
        exact ⟨rfl, rfl⟩

theorem handleReport_called {event : EpollEvent} {ok : Bool} (h : io.handleReport event ok = .ok io') :
    io'.epoll = (io.called (.idle event ok)).getD io.epoll := by
  obtain ⟨events, fd | p⟩ := event
  · simp only [handleReport] at h
    -- a report of the notify pipe makes no call
    split at h <;> cases h
    rfl
  · simp only [handleReport] at h
    obtain ⟨ctx, hctx, h⟩ := bind_ok h
    simp only [called, ctlCall, hctx, Except.toOption, Option.bind_eq_bind, Option.bind_some]
    split at h
    · rename_i hmiss
      rw [if_pos hmiss]
      cases h
      rfl
    · rename_i hhit
      rw [if_neg hhit, Option.bind_some]
      show io'.epoll = (io.reportCtl p ctx ⟨events, .ptr p⟩ ok).getD io.epoll
      unfold reportCtl
      split at h
      · rename_i hctl
        rw [hctl]
        cases h
        rfl
      · rename_i epoll hctl
        rw [hctl]
        obtain ⟨st, -, h⟩ := bind_ok h
        obtain ⟨st', -, h⟩ := bind_ok h
        cases h
        rfl

theorem answered {α : Type} {call : Except Fault (α × IOManager)} {f : α → Bool}
    {made : Option Interest} (h : call.map Prod.snd = .ok io')
    (hcall : ∀ r io', call = .ok (r, io') → io'.epoll = made.getD io.epoll ∧ f r = made.isSome) :
    io'.epoll = made.getD io.epoll ∧
      ∀ r, (call.toOption.map fun x ↦ f x.1) = some r → r = made.isSome := by
  obtain ⟨⟨r, io''⟩, hr, rfl⟩ := map_ok h
  obtain ⟨hepoll, hmade⟩ := hcall r io'' hr
  refine ⟨hepoll, fun r' hr' ↦ ?_⟩
  rw [hr] at hr'
  exact (Option.some.inj hr').symm.trans hmade

/-- A step makes that call and no other, and its answer is whether the call went through. -/
theorem step_called {op : Op} (h : Step io op io') :
    io'.epoll = (io.called op).getD io.epoll ∧
      ∀ r, io.answer op = some r → r = (io.called op).isSome := by
  cases op with
  | addEvent fd event caller cb ok => exact answered h fun r io' hr ↦ addEvent_called hr
  | delEvent fd event ok => exact answered h fun r io' hr ↦ delEvent_called hr
  | cancelEvent fd event ok => exact answered h fun r io' hr ↦ cancelEvent_called hr
  | cancelAll fd ok => exact answered h fun r io' hr ↦ cancelAll_called hr
  | idle event ok =>
      refine ⟨handleReport_called h, fun r hr ↦ ?_⟩
      cases hr

/-- The kernel accepts a call whose choice of operation fits what is registered. -/
theorem Mirrored.accepted (h : io.Mirrored notifyFd) {op : EpollOp} {fd : Nat} {event : EpollEvent}
    (hfd : fd ≠ notifyFd.val) (hop : op = .add ↔ (io.context fd).events.word = NONE) :
    (epollCtl io.epoll op fd event true).isSome = true := by
  -- the kernel's side of the choice is that of the context
  rw [epollCtl_isSome_iff, hop]
  have hk := h.kernel fd hfd
  unfold interest at hk
  split at hk
  · rename_i hnone
    exact ⟨fun _ ↦ Option.map_eq_none_iff.mp hk, fun _ ↦ hnone⟩
  · rename_i hne
    refine ⟨fun h' ↦ absurd h' hne, fun h' ↦ ?_⟩
    rw [h'] at hk
    cases hk

theorem Mirrored.removal_accepted (h : io.Mirrored notifyFd) {op : EpollOp} {fd : Nat}
    {event : EpollEvent} (hfd : fd ≠ notifyFd.val) (hop : op ≠ .add) (hctx : io.context fd = ctx)
    (hne : ctx.events.word ≠ NONE) : (epollCtl io.epoll op fd event true).isSome = true := by
  apply h.accepted hfd
  rw [hctx]
  exact ⟨fun h' ↦ absurd h' hop, fun h' ↦ absurd h' hne⟩

theorem At.context_eq {fd : Fd} (h : io.At fd p ctx) : io.context fd = ctx :=
  IOManager.context_eq h.1 h.2

theorem At.unique {fd : Fd} {q : FdPtr} (h : io.At fd p ctx) (h' : io.At fd q ctx') :
    p = q ∧ ctx = ctx' := by
  cases h.1.symm.trans h'.1
  cases h.2.symm.trans h'.2
  exact ⟨rfl, rfl⟩

/-- What a call to the kernel says about the state in which it is made. -/
inductive Asks (io : IOManager) : Op → CtlCall → Prop where
  | addEvent {fd : Fd} {event : Event} {caller : Caller} {cb : Option Callback} {ok : Bool}
      {p : FdPtr} {ctx : FdContext} :
      (io.entering fd).At fd p ctx →
      Asks io (.addEvent fd event caller cb ok)
        ⟨if ctx.events.word ≠ 0#32 then .mod else .add, fd,
          ⟨EPOLLET ||| ctx.events.word ||| event.word, .ptr p⟩, ok⟩
  | delEvent {fd : Fd} {event : Event} {ok : Bool} {p : FdPtr} {ctx : FdContext} :
      io.At fd p ctx →
      Asks io (.delEvent fd event ok) (removalCall p fd (ctx.events.erase event) ok)
  | cancelEvent {fd : Fd} {event : Event} {ok : Bool} {p : FdPtr} {ctx : FdContext} :
      io.At fd p ctx → ctx.events.has event = true →
      Asks io (.cancelEvent fd event ok) (removalCall p fd (ctx.events.erase event) ok)
  | cancelAll {fd : Fd} {ok : Bool} {p : FdPtr} {ctx : FdContext} :
      io.At fd p ctx → ctx.events.word ≠ NONE →
      Asks io (.cancelAll fd ok) ⟨.del, fd, ⟨0#32, .ptr p⟩, ok⟩
  | idle {event : EpollEvent} {ok : Bool} {p : FdPtr} {ctx : FdContext} :
      event.data = .ptr p → io.heap[p]? = some ctx →
      ctx.events.word &&& (realEvents event.events).word ≠ NONE →
      Asks io (.idle event ok)
        (removalCall p ctx.fd (ctx.events.diff (realEvents event.events)) ok)

theorem ctlCall_asks {op : Op} {c : CtlCall} (hc : io.ctlCall op = some c) : io.Asks op c := by
  cases op with
  | addEvent fd event caller cb ok =>
      obtain ⟨⟨p, ctx⟩, hat, hc⟩ := Option.bind_eq_some_iff.mp hc
      dsimp only at hc
      split at hc
      · cases hc
      · cases hc
        exact .addEvent (located_eq_some_iff.mp hat)
  | delEvent fd event ok =>
      simp only [ctlCall] at hc
      split at hc
      · cases hc
      · obtain ⟨⟨p, ctx⟩, hat, hc⟩ := Option.bind_eq_some_iff.mp hc
        cases hc
        exact .delEvent (located_eq_some_iff.mp hat)
  | cancelEvent fd event ok =>
      simp only [ctlCall] at hc
      split at hc
      · cases hc
      · obtain ⟨⟨p, ctx⟩, hat, hc⟩ := Option.bind_eq_some_iff.mp hc
        dsimp only at hc
        split at hc
        · rename_i hhas
          cases hc
          exact .cancelEvent (located_eq_some_iff.mp hat) hhas
        · cases hc
  | cancelAll fd ok =>
      simp only [ctlCall] at hc
      split at hc
      · cases hc
      · obtain ⟨⟨p, ctx⟩, hat, hc⟩ := Option.bind_eq_some_iff.mp hc
        dsimp only at hc
        split at hc
        · cases hc
        · rename_i hne
          cases hc
          exact .cancelAll (located_eq_some_iff.mp hat) hne
  | idle event ok =>
      simp only [ctlCall] at hc
      split at hc
      · cases hc
      · rename_i p hdata
        obtain ⟨ctx, hctx, hc⟩ := Option.bind_eq_some_iff.mp hc
        split at hc
        · cases hc
        · rename_i hcommon
          cases hc
          exact .idle hdata (deref_ok (toOption_eq_some hctx)) hcommon

theorem Mirrored.asks_accepted (h : io.Mirrored notifyFd) {op : Op} {c : CtlCall}
    (hc : io.Asks op c) (hfd : c.fd ≠ notifyFd.val) (hwanted : io.Wanted op) :
    (epollCtl io.epoll c.op c.fd c.event true).isSome = true := by
  cases hc with
  | @addEvent fd _ _ _ _ _ ctx hat =>
      -- the choice reads the context in the table that has grown already
      have hctx := hat.context_eq
      rw [h.context_entering] at hctx
      apply h.accepted hfd
      rw [hctx]
      show (if ctx.events.word ≠ 0#32 then EpollOp.mod else .add) = .add ↔ ctx.events.word = 0#32
      by_cases hz : ctx.events.word = 0#32
      · rw [if_neg (not_not.mpr hz)]
        exact ⟨fun _ ↦ hz, fun _ ↦ rfl⟩
      · rw [if_pos hz]
        exact ⟨nofun, fun h' ↦ absurd h' hz⟩
  | @delEvent _ event _ _ ctx hat =>
      apply h.removal_accepted hfd removalOp_ne_add hat.context_eq
      rw [EventSet.word_ne_none_iff, ← hat.context_eq]
      exact ⟨event, hwanted⟩
  | @cancelEvent _ event _ _ ctx hat hhas =>
      apply h.removal_accepted hfd removalOp_ne_add hat.context_eq
      exact ctx.events.word_ne_none_iff.mpr ⟨event, hhas⟩
  | cancelAll hat hne => exact h.removal_accepted hfd nofun hat.context_eq hne
  | idle hdata hheap hcommon =>
      -- the report names a context, which is the one of its descriptor
      apply h.removal_accepted hfd removalOp_ne_add
        (IOManager.context_eq (h.homed _ _ hheap) hheap)
      intro hz
      apply hcommon
      rw [hz]
      exact BitVec.zero_and

theorem Mirrored.unchanged (h : io.Mirrored notifyFd) {op : Op} {c : CtlCall} (hc : io.Asks op c)
    (hfail : c.result io.epoll = none) (hch : Change io op io') :
    io'.pendingEventCount = io.pendingEventCount ∧ io'.queues = io.queues ∧
      ∀ fd, io'.context fd = io.context fd := by
  cases hch with
  | same => exact ⟨rfl, rfl, fun _ ↦ rfl⟩
  | grown he =>
      obtain rfl := he.eq_entering
      refine ⟨?_, ?_, h.context_entering _⟩ <;> unfold entering <;> split <;> rfl
  -- every other change comes after a call that succeeded, and a step makes only one
  | registered he hat hhas hempty hec hepoll =>
      rw [he.epoll] at hepoll
      obtain rfl := he.eq_entering
      cases hc with
      | addEvent hat' =>
          obtain ⟨rfl, rfl⟩ := hat.unique hat'
          cases hepoll.symm.trans hfail
  | discarded hat hepoll =>
      cases hc with
      | delEvent hat' =>
          obtain ⟨rfl, rfl⟩ := hat.unique hat'
          cases hepoll.symm.trans hfail
  | cancelled hat htr hepoll =>
      cases hc with
      | cancelEvent hat' =>
          obtain ⟨rfl, rfl⟩ := hat.unique hat'
          cases hepoll.symm.trans hfail
  | cancelledAll hat htr hepoll =>
      cases hc with
      | cancelAll hat' =>
          obtain ⟨rfl, rfl⟩ := hat.unique hat'
          cases hepoll.symm.trans hfail
  | reported hdata hctx htr hepoll =>
      cases hc with
      | idle hdata' hctx' =>
          cases hdata.symm.trans hdata'
          cases hctx.symm.trans hctx'
          cases hepoll.symm.trans hfail

/-- The steps that keep the size of the table within an `int`. -/
def Fitting : IOManager → Op → IOManager → Prop := Guarded Step Fits

theorem run_mirrored {ops : List Op} (h : Run Fitting (construct notifyFd) ops io) :
    io.Mirrored notifyFd :=
  h.invariant (fun _ _ _ hs hstep ↦ hs.change hstep.2 (step_cases hs.sound.wellFormed hstep.1))
    (construct_mirrored notifyFd)

/-- Away from the notify pipe the kernel holds the mask of every descriptor on which something is
registered, and no other descriptor.  So it accepts the calls that an addition or a removal of a
registered event makes, which are those of `ctlCall`, and a call that fails leaves everything as it
was. -/
theorem kernel_mirrors {ops : List Op} (h : Run Fitting (construct notifyFd) ops io) :
    (∀ fd, fd ≠ notifyFd.val →
      (io.epoll fd).map (·.events) =
        if (io.context fd).events.word = NONE then none
        else some (EPOLLET ||| (io.context fd).events.word)) ∧
    (∀ op io', Step io op io' → io'.epoll = (io.called op).getD io.epoll ∧
      ∀ r, io.answer op = some r → r = (io.called op).isSome) ∧
    (∀ op c, io.ctlCall op = some c → c.fd ≠ notifyFd.val → io.Wanted op →
      (epollCtl io.epoll c.op c.fd c.event true).isSome = true) ∧
    ∀ op c io', io.ctlCall op = some c → c.result io.epoll = none → Step io op io' →
      io'.epoll = io.epoll ∧ io'.pendingEventCount = io.pendingEventCount ∧
        io'.queues = io.queues ∧ ∀ fd, io'.context fd = io.context fd := by
  have hm := run_mirrored h
  refine ⟨hm.kernel, fun op io' ↦ step_called, fun op c hc ↦ hm.asks_accepted (ctlCall_asks hc),
    fun op c io' hc hfail hs ↦ ⟨?_, ?_⟩⟩
  · have hepoll := (step_called hs).1
    rwa [called, hc, Option.bind_some, hfail] at hepoll
  · exact hm.unchanged (ctlCall_asks hc) hfail (step_cases hm.sound.wellFormed hs)

end

/-! ## Runs on fixed inputs -/

instance (io : IOManager) (op : Op) : Decidable (io.Fits op) := by
  cases op <;> unfold Fits <;> infer_instance

/-- Two directions added and one cut off, a stray removal, a refused call, and the table grown. -/
theorem kernel_mirrors_mixed : ∃ io,
    Run Fitting (construct 4)
      [.addEvent 5 .read someCaller (some 7) true, .addEvent 5 .write someCaller none true,
        .addEvent 40 .read someCaller (some 8) true, .delEvent 6 .write true,
        .delEvent 5 .write false, .idle ⟨EPOLLIN, .ptr 5⟩ true] io ∧
      (∀ fd, fd ≠ 4 →
        (io.epoll fd).map (·.events) =
          if (io.context fd).events.word = NONE then none
          else some (EPOLLET ||| (io.context fd).events.word)) ∧
      (∀ op io', Step io op io' → io'.epoll = (io.called op).getD io.epoll ∧
        ∀ r, io.answer op = some r → r = (io.called op).isSome) ∧
      (∀ op c, io.ctlCall op = some c → c.fd ≠ 4 → io.Wanted op →
        (epollCtl io.epoll c.op c.fd c.event true).isSome = true) ∧
      ∀ op c io', io.ctlCall op = some c → c.result io.epoll = none → Step io op io' →
        io'.epoll = io.epoll ∧ io'.pendingEventCount = io.pendingEventCount ∧
          io'.queues = io.queues ∧ ∀ fd, io'.context fd = io.context fd := by
  obtain ⟨io, hrun, -⟩ := exists_checked_run (R := Fitting) (fun io op ↦ decide (io.Fits op))
    (fun s a s' hs hok ↦ ⟨hs, of_decide_eq_true hok⟩) (construct 4)
    [.addEvent 5 .read someCaller (some 7) true, .addEvent 5 .write someCaller none true,
      .addEvent 40 .read someCaller (some 8) true, .delEvent 6 .write true,
      .delEvent 5 .write false, .idle ⟨EPOLLIN, .ptr 5⟩ true]
    (P := fun _ ↦ true) (by decide +kernel)
  exact ⟨io, hrun, kernel_mirrors hrun⟩

/-- An `addEvent` that the kernel refuses has resized the table all the same. -/
theorem addEvent_refused {io : IOManager} (hf : io.TableFilled) {fd : Fd} {event : Event}
    {caller : Caller} {cb : Option Callback} (hlt : fd.val < growSize fd)
    (hge : io.tableSize ≤ fd) (hhas : (io.context fd).events.has event = false) :
    Step io (.addEvent fd event caller cb false) (io.contextResize (growSize fd)) := by
  obtain ⟨p, ctx, hp, hctx, -⟩ := contextResize_filled hf (growSize fd) fd
    (by rw [contextResize_length]; exact hlt)
  rw [← context_contextResize hf fun _ ↦ hlt, IOManager.context_eq hp hctx] at hhas
  have hat : At (io.contextResize (growSize fd)) fd p ctx := ⟨hp, hctx⟩
  have hfind : io.addEventFind fd = .ok none := by
    unfold addEventFind
    rw [if_neg (Int.not_lt.mpr hge)]
  have hgrow : io.addEventGrow fd = .ok (p, io.contextResize (growSize fd)) := by
    unfold addEventGrow
    dsimp only
    rw [hat.contextPtr]
    rfl
  have hlocked : (io.contextResize (growSize fd)).addEventLocked p fd event caller cb false =
      .ok (-1, io.contextResize (growSize fd)) := by
    unfold addEventLocked
    rw [deref_eq hctx]
    simp only [bind, Except.bind, hhas]
    rfl
  show (·.2) <$> io.addEvent fd event caller cb false = _
  unfold addEvent
  simp only [hfind, hgrow, hlocked, bind, Except.bind]
  rfl

/-- The notify pipe is registered although its context has no event.  And once the table is larger
than an `int` can tell, an `addEvent` cuts it down, and the context of a registered event is lost. -/
theorem kernel_not_mirrored :
    ((construct 4).epoll 4 ≠ none ∧ ((construct 4).context 4).events.word = NONE) ∧
    ∃ io, Run Step (construct 4)
      [.addEvent 8 .read someCaller (some 7) true, .addEvent 1431655766 .read someCaller none false,
        .addEvent 5 .read someCaller none false, .addEvent 20 .read someCaller none false] io ∧
      io.epoll 8 ≠ none ∧ (io.context 8).events.word = NONE := by
  refine ⟨by decide +kernel, ?_⟩
  obtain ⟨io, hrun, hP⟩ := exists_checked_run (R := Step) (fun _ _ ↦ true) (fun _ _ _ hs _ ↦ hs)
    (construct 4) [.addEvent 8 .read someCaller (some 7) true]
    (P := fun io ↦ decide (io.fdContexts.length = 32 ∧ io.epoll 8 ≠ none ∧
      (io.context 5).events.has .read = false)) (by decide +kernel)
  obtain ⟨hlen, hepoll, hfive⟩ := of_decide_eq_true hP
  have hfilled := (run_sound hrun).filled
  have hsize : io.tableSize = 32 := by
    rw [tableSize_eq (by omega), hlen]
    rfl
  -- the cast of 2147483649 to an `int` is negative
  have h₁ : Step io (.addEvent 1431655766 .read someCaller none false)
      (io.contextResize 2147483649) := by
    apply addEvent_refused hfilled (by decide) (by rw [hsize]; decide)
    rw [context_outside (by rw [hlen]; decide)]
    rfl
  have hfilled₁ := contextResize_filled hfilled 2147483649
  have h₂ : Step (io.contextResize 2147483649) (.addEvent 5 .read someCaller none false)
      ((io.contextResize 2147483649).contextResize 7) := by
    apply addEvent_refused hfilled₁ (by decide)
    · unfold tableSize
      rw [contextResize_length]
      decide
    · rw [context_contextResize hfilled fun _ ↦ by decide]
      exact hfive
  have hfilled₂ := contextResize_filled hfilled₁ 7
  have h₃ : Step ((io.contextResize 2147483649).contextResize 7)
      (.addEvent 20 .read someCaller none false)
      (((io.contextResize 2147483649).contextResize 7).contextResize 30) := by
    apply addEvent_refused hfilled₂ (by decide)
    · unfold tableSize
      rw [contextResize_length]
      decide
    · rw [context_outside (by rw [contextResize_length]; decide)]
      rfl
  refine ⟨_, hrun.append (.cons h₁ (.cons h₂ (.cons h₃ (.nil _)))), hepoll, ?_⟩
  rw [context_contextResize hfilled₂ fun _ ↦ by decide,
    context_outside (by rw [contextResize_length]; decide)]
  rfl

end Server.IOManager
