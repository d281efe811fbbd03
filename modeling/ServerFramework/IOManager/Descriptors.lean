import ServerFramework.IOManager.Bounds
import ServerFramework.IOManager.Cancel
import ServerFramework.IOManager.Delivery
import ServerFramework.Library.Family

/-!
# A machine for each descriptor

What an `IOManager` is for, without its table, its heap and the kernel: every descriptor has a
handler for each event that is registered on it, and a request for one descriptor concerns no other.
The manager refines these machines, as long as nobody touches the descriptor of its own pipe.
-/

namespace Server.IOManager

open Fallible Runs

/-- The handlers that are registered on a descriptor. -/
abbrev Descriptor := Event → Option Handler

inductive Request where
  | add (event : Event) (caller : Caller) (cb : Option Callback) (ok : Bool)
  | remove (event : Event) (ok : Bool)
  | cancel (event : Event) (ok : Bool)
  | cancelAll (ok : Bool)
  /-- these events have happened -/
  | report (events : EventSet) (ok : Bool)
  deriving DecidableEq

structure Effect where
  /-- what goes to the schedulers -/
  handed : List Handler
  /-- what `m_pendingEventCount` gains -/
  count : Int
  /-- whether a call says that it was successful -/
  answer : Option Bool
  deriving DecidableEq, Repr

def Effect.nothing (answer : Option Bool) : Effect := ⟨[], 0, answer⟩

namespace Descriptor

def empty : Descriptor := fun _ ↦ none

def has (d : Descriptor) (e : Event) : Bool := (d e).isSome

/-- The events that are registered. -/
def events (d : Descriptor) : List Event := chosen (d.has .read) (d.has .write)

/-- Whether the handler of an event can go to a scheduler. -/
def deliverable (d : Descriptor) (e : Event) : Bool := (d e).any fun h ↦ h.scheduler.isSome

/-- The handlers of the events go to their schedulers. -/
def hand (d : Descriptor) (es : List Event) (answer : Option Bool) : Option (Descriptor × Effect) :=
  if es.all d.deliverable then
    some (fun e ↦ if e ∈ es then none else d e, ⟨es.filterMap d, -es.length, answer⟩)
  else none

/-- What a request does; a failed assertion is `none`. -/
def step (d : Descriptor) : Request → Option (Descriptor × Effect)
  | .add event caller cb ok =>
    if d.has event then none
    else if ok then
      (newHandler caller cb).toOption.map fun ec ↦
        (Function.update d event (some ec.handler), ⟨[], 1, some true⟩)
    else some (d, .nothing (some false))
  -- the event need not be one that is registered
  | .remove event ok =>
    if ok && !d.events.isEmpty then some (Function.update d event none, ⟨[], -1, some true⟩)
    else some (d, .nothing (some false))
  | .cancel event ok =>
    if ok && d.has event then
      -- and it has to be the only one
      if d.events = [event] then d.hand [event] (some true) else none
    else some (d, .nothing (some false))
  | .cancelAll ok =>
    if ok && !d.events.isEmpty then d.hand d.events (some true) else some (d, .nothing (some false))
  | .report events ok =>
    if ok && events.toList.any d.has then d.hand events.toList none else some (d, .nothing none)

end Descriptor

/-- What is registered on a descriptor, according to its context. -/
def FdContext.descriptor (ctx : FdContext) : Descriptor :=
  fun e ↦ if ctx.events.has e then some (ctx.getContext e).handler else none

def descriptor (io : IOManager) (fd : Nat) : Descriptor := (io.context fd).descriptor

/-- Whom a step is about, and what it asks for. -/
def address (io : IOManager) : Op → List (Nat × Request)
  | .addEvent fd event caller cb ok => [(fd.val, .add event caller cb ok)]
  | .delEvent fd event ok => [(fd.val, .remove event ok)]
  | .cancelEvent fd event ok => [(fd.val, .cancel event ok)]
  | .cancelAll fd ok => [(fd.val, .cancelAll ok)]
  | .idle event ok =>
    match event.data with
    | .fd _ => []
    | .ptr p => (io.heap[p]?).toList.map fun ctx ↦ (ctx.fd, .report (realEvents event.events) ok)

/-! ## Contexts and descriptors -/

section

variable {ctx : FdContext} {e : Event} {es : List Event}

@[simp] theorem has_descriptor : ctx.descriptor.has e = ctx.events.has e := by
  unfold Descriptor.has FdContext.descriptor
  cases ctx.events.has e <;> rfl

@[simp] theorem events_descriptor : ctx.descriptor.events = ctx.events.toList := by
  unfold Descriptor.events EventSet.toList
  rw [has_descriptor, has_descriptor]

theorem descriptor_new (fd : Nat) : (FdContext.new fd).descriptor = .empty := by
  funext e
  exact if_neg (by simp [FdContext.new])

theorem deliverable_descriptor : ctx.descriptor.deliverable e = true ↔ ctx.Triggerable e := by
  unfold Descriptor.deliverable FdContext.descriptor FdContext.Triggerable
  cases ctx.events.has e <;> simp [EventContext.handler]

theorem descriptor_register {ec : EventContext} :
    (ctx.register e ec).descriptor = Function.update ctx.descriptor e (some ec.handler) := by
  funext e'
  unfold FdContext.descriptor
  rw [FdContext.register_events, FdContext.getContext_register, EventSet.has_insert]
  by_cases he : e = e'
  · subst he
    simp
  · rw [Function.update_of_ne (Ne.symm he)]
    simp [he]

theorem descriptor_clear : (ctx.clear e).descriptor = Function.update ctx.descriptor e none := by
  funext e'
  unfold FdContext.descriptor
  rw [FdContext.clear_events, FdContext.getContext_clear, EventSet.has_erase]
  by_cases he : e = e'
  · subst he
    simp
  · rw [Function.update_of_ne (Ne.symm he)]
    simp [he]

theorem descriptor_clearAll :
    (ctx.clearAll es).descriptor = fun e ↦ if e ∈ es then none else ctx.descriptor e := by
  funext e
  unfold FdContext.descriptor
  rw [FdContext.has_clearAll, FdContext.getContext_clearAll]
  by_cases he : e ∈ es <;> simp [he]

/-- Handing over what can be triggered. -/
theorem hand_descriptor (htr : ∀ e ∈ es, ctx.Triggerable e) (answer : Option Bool) :
    ctx.descriptor.hand es answer = some ((ctx.clearAll es).descriptor,
      ⟨es.map fun e ↦ (ctx.getContext e).handler, -es.length, answer⟩) := by
  have hall : es.all ctx.descriptor.deliverable = true :=
    List.all_eq_true.mpr fun e he ↦ deliverable_descriptor.mpr (htr e he)
  have hhandlers : es.filterMap ctx.descriptor = es.map fun e ↦ (ctx.getContext e).handler := by
    rw [← List.filterMap_eq_map]
    apply List.filterMap_congr
    intro e he
    exact if_pos (htr e he).1
  unfold Descriptor.hand
  rw [if_pos hall, hhandlers, descriptor_clearAll]

end

/-! ## One step -/

/-- What a request does to the manager, if it turns its descriptor into `d` and has the effect
`x`. -/
structure Serves (io io' : IOManager) (fd : Nat) (d : Descriptor) (x : Effect) : Prop where
  descriptor : io'.descriptor = Function.update io.descriptor fd d
  queues : io'.queues = FdContext.pushAll io.queues x.handed
  count : io'.pendingEventCount = io.pendingEventCount + BitVec.ofInt 64 x.count

section

variable {notifyFd : Fd} {io io' : IOManager} {p : FdPtr} {ctx ctx' : FdContext} {fd : Nat}

theorem serves_same (h : io'.descriptor = io.descriptor) (hqueues : io'.queues = io.queues)
    (hcount : io'.pendingEventCount = io.pendingEventCount) (answer : Option Bool) :
    Serves io io' fd (io.descriptor fd) (.nothing answer) := by
  refine ⟨?_, hqueues, ?_⟩
  · rw [h, Function.update_eq_self]
  · rw [hcount]
    exact (BitVec.add_zero _).symm

theorem descriptor_rewritten (hf : io.TableFilled) (hp : io.fdContexts[fd]? = some (some p))
    (hctx : io.heap[p]? = some ctx) (htable : io'.fdContexts = io.fdContexts)
    (hheap : io'.heap = io.heap.set p ctx') :
    io'.descriptor = Function.update io.descriptor fd ctx'.descriptor := by
  funext k
  unfold descriptor
  rw [context_rewritten hf hp hctx htable hheap]
  by_cases hk : k = fd
  · subst hk
    rw [if_pos rfl, Function.update_self]
  · rw [if_neg hk, Function.update_of_ne hk]

/-- Events that can be triggered are handed over. -/
theorem serves_delivered (hf : io.TableFilled) (hp : io.fdContexts[fd]? = some (some p))
    (hctx : io.heap[p]? = some ctx) {es : List Event} (htr : ∀ e ∈ es, ctx.Triggerable e)
    (epoll : Interest) (answer : Option Bool) :
    ∃ d x, (io.descriptor fd).hand es answer = some (d, x) ∧ x.answer = answer ∧
      Serves io (io.delivered p ctx es epoll) fd d x := by
  refine ⟨(ctx.clearAll es).descriptor,
    ⟨es.map fun e ↦ (ctx.getContext e).handler, -es.length, answer⟩, ?_,
    rfl, descriptor_rewritten hf hp hctx rfl rfl, rfl, ?_⟩
  · unfold descriptor
    rw [context_eq hp hctx]
    exact hand_descriptor htr answer
  · show io.pendingEventCount - BitVec.ofNat 64 es.length = _
    rw [BitVec.ofInt_neg, BitVec.ofInt_natCast]
    exact BitVec.sub_eq_add_neg _ _

theorem descriptor_at {fd : Fd} (hat : io.At fd p ctx) : io.descriptor fd = ctx.descriptor := by
  unfold descriptor
  rw [hat.context_eq]

theorem ok_of_epollCtl {epoll epoll' : Interest} {op : EpollOp} {event : EpollEvent} {ok : Bool}
    (h : epollCtl epoll op fd event ok = some epoll') : ok = true := by
  cases ok with
  | false => cases h
  | true => rfl

/-- A removal from a descriptor with something registered goes through. -/
theorem Mirrored.removal (h : io.Mirrored notifyFd) {op : EpollOp} {event : EpollEvent}
    (hfd : fd ≠ notifyFd.val) (hop : op ≠ .add) (hctx : io.context fd = ctx)
    (hne : ctx.events.word ≠ NONE) : ∃ epoll, epollCtl io.epoll op fd event true = some epoll :=
  Option.isSome_iff_exists.mp (h.removal_accepted hfd hop hctx hne)

/-- Outside the table nothing is registered. -/
theorem Mirrored.at_of_ne (h : io.Mirrored notifyFd) {fd : Fd}
    (hne : (io.context fd).events.word ≠ NONE) :
    (fd : Int) < io.tableSize ∧ ∃ p ctx, io.At fd p ctx ∧ ctx.events.word ≠ NONE := by
  have hlt : (fd : Int) < io.tableSize := by
    by_contra hge
    rw [tableSize_eq h.small] at hge
    rw [context_outside (by omega)] at hne
    exact hne rfl
  obtain ⟨p, ctx, hat⟩ := At.of_lt h.sound.filled hlt
  exact ⟨hlt, p, ctx, hat, hat.context_eq ▸ hne⟩

theorem addEventLocked_refused {fd : Fd} {event : Event} {caller : Caller} {cb : Option Callback}
    {ok : Bool} (hctx : io.heap[p]? = some ctx)
    (h : io.addEventLocked p fd event caller cb ok = .ok (-1, io')) :
    ctx.events.has event = false ∧
      epollCtl io.epoll (if ctx.events.word ≠ 0#32 then .mod else .add) fd
        ⟨EPOLLET ||| ctx.events.word ||| event.word, .ptr p⟩ ok = none := by
  unfold addEventLocked at h
  simp only [bind, Except.bind, deref_eq hctx] at h
  cases hhas : ctx.events.has event with
  | true => simp only [hhas, if_true, reduceCtorEq] at h
  | false =>
      simp only [hhas, Bool.false_eq_true, if_false] at h
      refine ⟨rfl, ?_⟩
      split at h
      · assumption
      · split at h
        · cases hnew : newHandler caller cb with
          | error => rw [hnew] at h; cases h
          | ok ec => rw [hnew] at h; cases h
        · cases h

theorem addEvent_serves (h : io.Mirrored notifyFd) {fd : Fd} (hfd : fd.val ≠ notifyFd.val)
    {event : Event} {caller : Caller} {cb : Option Callback} {ok : Bool}
    (hfits : fd.val < io.fdContexts.length ∨ growSize fd < 2 ^ 31)
    (hs : io.step (.addEvent fd event caller cb ok) = .ok io') :
    ∃ d x, (io.descriptor fd).step (.add event caller cb ok) = some (d, x) ∧ Serves io io' fd d x ∧
      io.answer (.addEvent fd event caller cb ok) = x.answer := by
  obtain ⟨⟨r, io''⟩, hadd, rfl⟩ := map_ok hs
  have hanswer : io.answer (.addEvent fd event caller cb ok) = some (r == 0) := by
    rw [answer, hadd]
    rfl
  obtain ⟨p, io₁, henter, hp, hlocked⟩ := addEvent_ok hadd
  obtain rfl := Entered.eq_entering henter
  have h₁ := h.entered hfits
  -- growing the table changes no descriptor
  have hsame : (io.entering fd).descriptor = io.descriptor := by
    funext k
    unfold descriptor
    rw [h.context_entering]
  have hqueues : (io.entering fd).queues = io.queues := by
    unfold entering
    split <;> rfl
  have hcount : (io.entering fd).pendingEventCount = io.pendingEventCount := by
    unfold entering
    split <;> rfl
  rcases addEventLocked_ok hlocked with
    ⟨rfl, rfl⟩ | ⟨rfl, ctx, epoll, ec, hctx, hhas, hempty, hec, hepoll, rfl⟩
  · obtain ⟨q, ctx, hq, hctx, -⟩ := h₁.sound.filled fd (List.getElem?_eq_some_iff.mp hp).1
    cases hp.symm.trans hq
    obtain ⟨hhas, hnone⟩ := addEventLocked_refused hctx hlocked
    have hcontext := IOManager.context_eq hp hctx
    -- the kernel would have accepted the call
    have hok : ok = false := by
      by_contra hok
      rw [Bool.not_eq_false] at hok
      subst hok
      have hop : (if ctx.events.word ≠ 0#32 then EpollOp.mod else .add) = .add ↔
          ((io.entering fd).context fd).events.word = NONE := by
        rw [hcontext]
        by_cases hz : ctx.events.word = 0#32 <;> simp [hz, NONE]
      have hsome : (epollCtl (io.entering fd).epoll _ fd
        ⟨EPOLLET ||| ctx.events.word ||| event.word, .ptr p⟩ true).isSome = true := h₁.accepted hfd hop
      rw [hnone] at hsome
      cases hsome
    refine ⟨io.descriptor fd, .nothing (some false), ?_, serves_same hsame hqueues hcount _, hanswer⟩
    have hd : (io.descriptor fd).has event = false := by
      rw [← hsame, descriptor_at ⟨hp, hctx⟩, has_descriptor, hhas]
    simp only [Descriptor.step, hd, hok, Bool.false_eq_true, if_false]
  · have hat : (io.entering fd).At fd p ctx := ⟨hp, hctx⟩
    have hd : io.descriptor fd = ctx.descriptor := by
      rw [← hsame, descriptor_at hat]
    refine ⟨(ctx.register event ec).descriptor, ⟨[], 1, some true⟩, ?_, ⟨?_, hqueues, ?_⟩, hanswer⟩
    · have hnew : ctx.descriptor.has event = false := by rw [has_descriptor, hhas]
      rw [hd]
      simp only [Descriptor.step, hnew, Bool.false_eq_true, if_false, ok_of_epollCtl hepoll, if_true, hec,
        Except.toOption, Option.map_some, descriptor_register]
    · rw [← hsame]
      exact descriptor_rewritten h₁.sound.filled hp hctx rfl rfl
    · rw [← hcount]
      rfl

/-- The kernel accepts no removal where nothing is registered. -/
theorem Mirrored.ne_of_removal (h : io.Mirrored notifyFd) {op : EpollOp} {event : EpollEvent} {ok : Bool}
    {epoll : Interest} (hfd : fd ≠ notifyFd.val) (hop : op ≠ .add)
    (hepoll : epollCtl io.epoll op fd event ok = some epoll) : (io.context fd).events.word ≠ NONE := by
  intro hnone
  obtain rfl := ok_of_epollCtl hepoll
  have hsome := epollCtl_isSome_iff.mp (Option.isSome_of_mem hepoll)
  have hkernel := h.kernel fd hfd
  rw [interest, if_pos hnone] at hkernel
  exact hop (hsome.mpr (Option.map_eq_none_iff.mp hkernel))

theorem descriptor_isEmpty_iff :
    (io.descriptor fd).events.isEmpty = true ↔ (io.context fd).events.word = NONE := by
  rw [descriptor, events_descriptor, List.isEmpty_iff, toList_eq_nil_iff]

theorem delEvent_serves (h : io.Mirrored notifyFd) {fd : Fd} (hfd : fd.val ≠ notifyFd.val)
    {event : Event} {ok : Bool} (hs : io.step (.delEvent fd event ok) = .ok io') :
    ∃ d x, (io.descriptor fd).step (.remove event ok) = some (d, x) ∧ Serves io io' fd d x ∧
      io.answer (.delEvent fd event ok) = x.answer := by
  obtain ⟨⟨r, io''⟩, hdel, rfl⟩ := map_ok hs
  have hanswer : io.answer (.delEvent fd event ok) = some r := by
    rw [answer, hdel]
    rfl
  rcases delEvent_ok hdel with ⟨rfl, rfl⟩ | ⟨rfl, p, ctx, epoll, hat, hepoll, rfl⟩
  · refine ⟨io''.descriptor fd, .nothing (some false), ?_, serves_same rfl rfl rfl _, hanswer⟩
    -- a call with something to remove would have been accepted
    simp only [Descriptor.step]
    rw [if_neg]
    intro hguard
    obtain ⟨rfl, hne⟩ := Bool.and_eq_true_iff.mp hguard
    rw [Bool.not_eq_true', ← Bool.not_eq_true, descriptor_isEmpty_iff] at hne
    obtain ⟨hlt, p, ctx, hat, hne⟩ := h.at_of_ne hne
    obtain ⟨epoll, hepoll⟩ := h.removal hfd removalOp_ne_add hat.context_eq hne
    rw [delEvent_eq hlt hat hepoll] at hdel
    cases hdel
  · refine ⟨Function.update (io.descriptor fd) event none, ⟨[], -1, some true⟩, ?_, ⟨?_, rfl, ?_⟩,
      hanswer⟩
    · have hne := h.ne_of_removal hfd removalOp_ne_add hepoll
      rw [ne_eq, ← descriptor_isEmpty_iff, Bool.not_eq_true] at hne
      simp only [Descriptor.step, ok_of_epollCtl hepoll, hne, Bool.not_false, Bool.and_self, if_true]
    · rw [descriptor_at hat, ← descriptor_clear]
      exact descriptor_rewritten h.sound.filled hat.1 hat.2 rfl rfl
    · exact BitVec.sub_eq_add_neg _ _

/-- An accepted cancellation returns `true`. -/
theorem cancelEvent_ne_false {fd : Fd} {event : Event} {ok : Bool}
    (hacc : io.Accepted (.cancelEvent fd event ok)) :
    io.cancelEvent fd event ok ≠ .ok (false, io') := by
  intro h
  obtain ⟨hlt, p, ctx, epoll, hat, hhas, hepoll⟩ := accepted_cancelEvent_iff.mp hacc
  unfold cancelEvent at h
  rw [if_neg (Int.not_le.mpr hlt), hat.contextPtr] at h
  simp only [bind, Except.bind, deref_eq hat.2, hhas, if_true, hepoll] at h
  split at h
  · cases h
  · split at h <;> cases h

theorem cancelEvent_serves (h : io.Mirrored notifyFd) {fd : Fd} (hfd : fd.val ≠ notifyFd.val)
    {event : Event} {ok : Bool} (hs : io.step (.cancelEvent fd event ok) = .ok io') :
    ∃ d x, (io.descriptor fd).step (.cancel event ok) = some (d, x) ∧ Serves io io' fd d x ∧
      io.answer (.cancelEvent fd event ok) = x.answer := by
  obtain ⟨⟨r, io''⟩, hcancel, rfl⟩ := map_ok hs
  have hanswer : io.answer (.cancelEvent fd event ok) = some r := by
    rw [answer, hcancel]
    rfl
  rcases cancelEvent_ok h.sound.wellFormed hcancel with
    ⟨rfl, rfl⟩ | ⟨rfl, p, ctx, epoll, hat, htr, hepoll, rfl⟩
  · refine ⟨io''.descriptor fd, .nothing (some false), ?_, serves_same rfl rfl rfl _, hanswer⟩
    simp only [Descriptor.step]
    rw [if_neg]
    intro hguard
    obtain ⟨rfl, hhas⟩ := Bool.and_eq_true_iff.mp hguard
    rw [descriptor, has_descriptor] at hhas
    obtain ⟨hlt, p, ctx, hat, hne⟩ := h.at_of_ne ((EventSet.word_ne_none_iff _).mpr ⟨event, hhas⟩)
    rw [hat.context_eq] at hhas
    obtain ⟨epoll, hepoll⟩ := h.removal hfd removalOp_ne_add hat.context_eq hne
    exact cancelEvent_ne_false (accepted_cancelEvent_iff.mpr ⟨hlt, p, ctx, epoll, hat, hhas, hepoll⟩)
      hcancel
  · have hes : ∀ e ∈ [event], ctx.Triggerable e := by simpa using htr
    obtain ⟨d, x, hhand, hx, hserves⟩ :=
      serves_delivered h.sound.filled hat.1 hat.2 hes epoll (some true)
    refine ⟨d, x, ?_, hserves, hanswer.trans hx.symm⟩
    have hhas : (io.descriptor fd).has event = true := by
      rw [descriptor_at hat, has_descriptor]
      exact htr.1
    have hlt : (fd : Int) < io.tableSize := by
      have hlen := (List.getElem?_eq_some_iff.mp hat.1).1
      rw [tableSize_eq h.small]
      omega
    have hacc := accepted_cancelEvent_iff.mpr ⟨hlt, p, ctx, epoll, hat, htr.1, hepoll⟩
    -- that it returns means that nothing but this event was registered
    have hsole := sole_of_cancelEvent h.sound.wellFormed hacc hcancel
    have hevents : (io.descriptor fd).events = [event] := by
      rw [descriptor, events_descriptor]
      rw [hat.context_eq] at hsole ⊢
      exact toList_eq_singleton htr.1 hsole.1
    simp only [Descriptor.step, ok_of_epollCtl hepoll, hhas, Bool.and_self, if_true, hevents, hhand]

theorem cancelAll_ne_false {fd : Fd} (hlt : (fd : Int) < io.tableSize) (hat : io.At fd p ctx)
    (hne : ctx.events.word ≠ NONE) {ok : Bool} {epoll : Interest}
    (hepoll : epollCtl io.epoll .del fd ⟨0#32, .ptr p⟩ ok = some epoll) :
    io.cancelAll fd ok ≠ .ok (false, io') := by
  intro h
  unfold cancelAll at h
  rw [if_neg (Int.not_lt.mpr (Int.le_of_lt hlt)), hat.contextPtr] at h
  obtain ⟨q, hq, h⟩ := bind_ok h
  cases hq
  obtain ⟨c, hc, h⟩ := bind_ok h
  cases (deref_eq hat.2).symm.trans hc
  rw [if_neg (show ctx.events.word ≠ 0#32 from hne), hepoll] at h
  obtain ⟨st, -, h⟩ := bind_ok h
  obtain ⟨st', -, h⟩ := bind_ok h
  dsimp only at h
  split at h <;> cases h

theorem cancelAll_serves (h : io.Mirrored notifyFd) {fd : Fd} (hfd : fd.val ≠ notifyFd.val) {ok : Bool}
    (hs : io.step (.cancelAll fd ok) = .ok io') :
    ∃ d x, (io.descriptor fd).step (.cancelAll ok) = some (d, x) ∧ Serves io io' fd d x ∧
      io.answer (.cancelAll fd ok) = x.answer := by
  obtain ⟨⟨r, io''⟩, hcancel, rfl⟩ := map_ok hs
  have hanswer : io.answer (.cancelAll fd ok) = some r := by
    rw [answer, hcancel]
    rfl
  rcases cancelAll_ok h.sound.wellFormed hcancel with
    ⟨rfl, rfl⟩ | ⟨rfl, p, ctx, epoll, hat, htr, hepoll, rfl⟩
  · refine ⟨io''.descriptor fd, .nothing (some false), ?_, serves_same rfl rfl rfl _, hanswer⟩
    simp only [Descriptor.step]
    rw [if_neg]
    intro hguard
    obtain ⟨rfl, hne⟩ := Bool.and_eq_true_iff.mp hguard
    rw [Bool.not_eq_true', ← Bool.not_eq_true, descriptor_isEmpty_iff] at hne
    obtain ⟨hlt, p, ctx, hat, hne⟩ := h.at_of_ne hne
    have hpresent : ∃ epoll, epollCtl io''.epoll .del fd ⟨0#32, .ptr p⟩ true = some epoll :=
      h.removal hfd nofun hat.context_eq hne
    obtain ⟨epoll, hepoll⟩ := hpresent
    exact cancelAll_ne_false hlt hat hne hepoll hcancel
  · have hne := h.ne_of_removal hfd (nofun : EpollOp.del ≠ .add) hepoll
    rw [ne_eq, ← descriptor_isEmpty_iff, Bool.not_eq_true] at hne
    obtain ⟨d, x, hhand, hx, hserves⟩ :=
      serves_delivered h.sound.filled hat.1 hat.2 htr epoll (some true)
    refine ⟨d, x, ?_, hserves, hanswer.trans hx.symm⟩
    have hevents : (io.descriptor fd).events = ctx.events.toList := by
      rw [descriptor_at hat, events_descriptor]
    rw [hevents] at hne
    simp only [Descriptor.step, ok_of_epollCtl hepoll, if_true, hevents, hhand, hne, Bool.not_false,
      Bool.and_self]

/-- A report that meets something registered, and that the kernel lets through, goes to both
triggers. -/
theorem triggerable_of_report (hwf : io.WellFormed) {event : EpollEvent} {ok : Bool} {epoll : Interest}
    (hdata : event.data = .ptr p) (hctx : io.heap[p]? = some ctx) (hhit : hits ctx event ≠ [])
    (hctl : io.reportCtl p ctx event ok = some epoll) (h : io.handleReport event ok = .ok io') :
    ∀ e ∈ (realEvents event.events).toList, ctx.Triggerable e := by
  unfold handleReport at h
  rw [hdata] at h
  obtain ⟨c, hc, h⟩ := bind_ok h
  cases (deref_eq hctx).symm.trans hc
  unfold reportCtl at hctl
  dsimp only at h
  rw [if_neg (mt (hits_eq_nil_iff _ _).mpr hhit), hctl] at h
  obtain ⟨st, hread, h⟩ := bind_ok h
  obtain ⟨st', hwrite, -⟩ := bind_ok h
  exact triggerIf_both_ok (hwf.at hctx) hread hwrite

theorem handleReport_serves (h : io.Mirrored notifyFd) {event : EpollEvent} {ok : Bool}
    (hdata : event.data = .ptr p) (hctx : io.heap[p]? = some ctx) (hfd : ctx.fd ≠ notifyFd.val)
    (hs : io.step (.idle event ok) = .ok io') :
    ∃ d x, (io.descriptor ctx.fd).step (.report (realEvents event.events) ok) = some (d, x) ∧
      Serves io io' ctx.fd d x ∧ io.answer (.idle event ok) = x.answer := by
  have hs : io.handleReport event ok = .ok io' := hs
  have hp := h.homed _ _ hctx
  have hcontext := IOManager.context_eq hp hctx
  have hany : (realEvents event.events).toList.any (io.descriptor ctx.fd).has = true ↔
      hits ctx event ≠ [] := by
    unfold descriptor hits
    rw [hcontext]
    simp
  -- the report misses or is refused, or every direction of it is triggered
  by_cases hmiss : hits ctx event = [] ∨ io.reportCtl p ctx event ok = none
  · obtain rfl : io' = io := Except.ok.inj (hs.symm.trans (handleReport_missed hdata hctx hmiss))
    refine ⟨io'.descriptor ctx.fd, .nothing none, ?_, serves_same rfl rfl rfl _, rfl⟩
    simp only [Descriptor.step]
    rw [if_neg]
    intro hguard
    obtain ⟨rfl, hhas⟩ := Bool.and_eq_true_iff.mp hguard
    have hhit := hany.mp hhas
    have hne : ctx.events.word ≠ NONE := by
      intro hnone
      refine hhit ((hits_eq_nil_iff _ _).mpr ?_)
      rw [hnone]
      exact BitVec.zero_and
    obtain ⟨epoll, hepoll⟩ := h.removal hfd removalOp_ne_add hcontext hne
    cases hepoll.symm.trans (hmiss.resolve_left hhit)
  · obtain ⟨hhit, hctl⟩ := not_or.mp hmiss
    obtain ⟨epoll, hepoll⟩ := Option.ne_none_iff_exists'.mp hctl
    have htr := triggerable_of_report h.sound.wellFormed hdata hctx hhit hepoll hs
    obtain rfl := Except.ok.inj
      (hs.symm.trans (handleReport_hit h.sound.wellFormed hdata hctx hhit hepoll htr))
    obtain ⟨d, x, hhand, hx, hserves⟩ := serves_delivered h.sound.filled hp hctx htr epoll none
    refine ⟨d, x, ?_, hserves, hx.symm⟩
    simp only [Descriptor.step, ok_of_epollCtl hepoll, hany.mpr hhit, Bool.and_self, if_true, hhand]

end

/-! ## Runs -/

/-- A step away from the manager's own pipe, which keeps the size of the table within an `int`. -/
def Apart (io : IOManager) (op : Op) : Prop :=
  io.Fits op ∧ ∀ x ∈ io.address op, x.1 ≠ io.notifyFd.val

/-- The requests that the steps of a run make. -/
def requests (io : IOManager) (ops : List Op) : List (Nat × Request) :=
  trace (fun io op ↦ (io.step op).toOption) address io ops

/-- What they return. -/
def answers (io : IOManager) (ops : List Op) : List (Nat × Option Bool) :=
  trace (fun io op ↦ (io.step op).toOption)
    (fun io op ↦ (io.address op).map fun x ↦ (x.1, io.answer op)) io ops

section

variable {notifyFd : Fd} {io io' : IOManager} {op : Op} {ops : List Op}

theorem address_pipe {event : EpollEvent} {ok : Bool} {fd : Fd} (hdata : event.data = .fd fd) :
    io.address (.idle event ok) = [] := by
  simp only [address, hdata]

theorem address_report {event : EpollEvent} {ok : Bool} {p : FdPtr} {ctx : FdContext}
    (hdata : event.data = .ptr p) (hctx : io.heap[p]? = some ctx) :
    io.address (.idle event ok) = [(ctx.fd, .report (realEvents event.events) ok)] := by
  simp [address, hdata, hctx]

/-- The requests, each made of its descriptor's machine, one after the other, lead from one state to
the other, and these are the answers. -/
def Served (io : IOManager) (reqs : List (Nat × Request)) (answers : List (Nat × Option Bool))
    (io' : IOManager) : Prop :=
  ∃ xs : List (Nat × Effect),
    Family.exec (Family.stepAt Descriptor.step) io.descriptor reqs = some (io'.descriptor, xs) ∧
    answers = xs.map (fun x ↦ (x.1, x.2.answer)) ∧
    (∀ sched, io'.queues sched = io.queues sched ++ entriesFor sched (xs.flatMap fun x ↦ x.2.handed)) ∧
    io'.pendingEventCount = io.pendingEventCount + BitVec.ofInt 64 (xs.map fun x ↦ x.2.count).sum

/-- A step is a request for one descriptor, or it drained the pipe. -/
theorem step_serves (h : io.Mirrored notifyFd) (hok : io.Apart op) (hs : Step io op io') :
    io.address op = [] ∧ io' = io ∨ ∃ fd req d x, io.address op = [(fd, req)] ∧
      (io.descriptor fd).step req = some (d, x) ∧ Serves io io' fd d x ∧ io.answer op = x.answer := by
  obtain ⟨hfits, haway⟩ := hok
  rw [h.notify] at haway
  cases op with
  | addEvent fd event caller cb ok =>
      obtain ⟨d, x, hstep, hserves⟩ := addEvent_serves h (haway _ List.mem_cons_self) hfits hs
      exact .inr ⟨_, _, d, x, rfl, hstep, hserves⟩
  | delEvent fd event ok =>
      obtain ⟨d, x, hstep, hserves⟩ := delEvent_serves h (haway _ List.mem_cons_self) hs
      exact .inr ⟨_, _, d, x, rfl, hstep, hserves⟩
  | cancelEvent fd event ok =>
      obtain ⟨d, x, hstep, hserves⟩ := cancelEvent_serves h (haway _ List.mem_cons_self) hs
      exact .inr ⟨_, _, d, x, rfl, hstep, hserves⟩
  | cancelAll fd ok =>
      obtain ⟨d, x, hstep, hserves⟩ := cancelAll_serves h (haway _ List.mem_cons_self) hs
      exact .inr ⟨_, _, d, x, rfl, hstep, hserves⟩
  | idle event ok =>
      have hreport : io.handleReport event ok = .ok io' := hs
      cases hdata : event.data with
      | fd fd =>
          rw [handleReport, hdata] at hreport
          dsimp only at hreport
          split at hreport
          · cases hreport
            exact .inl ⟨address_pipe hdata, rfl⟩
          · cases hreport
      | ptr p =>
          cases hctx : io.heap[p]? with
          | none =>
              simp only [handleReport, hdata, deref, hctx] at hreport
              cases hreport
          | some ctx =>
              have haddress : io.address (.idle event ok) = _ := address_report hdata hctx
              rw [haddress] at haway
              obtain ⟨d, x, hstep, hserves⟩ :=
                handleReport_serves h hdata hctx (haway _ List.mem_cons_self) hs
              exact .inr ⟨_, _, d, x, haddress, hstep, hserves⟩

theorem Served.same (hdescriptor : io'.descriptor = io.descriptor) (hqueues : io'.queues = io.queues)
    (hcount : io'.pendingEventCount = io.pendingEventCount) : Served io [] [] io' := by
  refine ⟨[], ?_, rfl, fun _ ↦ ?_, ?_⟩
  · rw [hdescriptor]
    rfl
  · rw [hqueues]
    exact (List.append_nil _).symm
  · rw [hcount]
    exact (BitVec.add_zero _).symm

theorem Served.append {io₁ : IOManager} {reqs reqs' : List (Nat × Request)}
    {answers answers' : List (Nat × Option Bool)} (h : Served io reqs answers io₁)
    (h' : Served io₁ reqs' answers' io') : Served io (reqs ++ reqs') (answers ++ answers') io' := by
  obtain ⟨xs, hexec, rfl, hqueues, hcount⟩ := h
  obtain ⟨xs', hexec', rfl, hqueues', hcount'⟩ := h'
  refine ⟨xs ++ xs', Family.exec_append hexec hexec', List.map_append.symm, fun sched ↦ ?_, ?_⟩
  · rw [hqueues', hqueues, List.flatMap_append]
    unfold entriesFor
    rw [List.filter_append, List.map_append, List.append_assoc]
  · rw [hcount', hcount, List.map_append, List.sum_append, BitVec.ofInt_add, BitVec.add_assoc]

theorem step_served (h : io.Mirrored notifyFd) (hok : io.Apart op) (hs : Step io op io') :
    Served io (io.address op) ((io.address op).map fun x ↦ (x.1, io.answer op)) io' := by
  rcases step_serves h hok hs with ⟨hnil, rfl⟩ | ⟨fd, req, d, x, haddress, hstep, hserves, hx⟩
  · rw [hnil]
    exact .same rfl rfl rfl
  · rw [haddress]
    refine ⟨[(fd, x)], ?_, ?_, fun sched ↦ ?_, ?_⟩
    · rw [hserves.descriptor]
      refine Family.exec_cons ?_ rfl
      rw [Family.stepAt, hstep]
      rfl
    · rw [hx]
      rfl
    · rw [hserves.queues, pushAll_apply, List.flatMap_singleton]
    · rw [hserves.count, List.map_singleton, List.sum_singleton]

theorem run_served (h : Run (Guarded Step Apart) io ops io') (hm : io.Mirrored notifyFd) :
    Served io (io.requests ops) (io.answers ops) io' := by
  induction h with
  | nil => exact .same rfl rfl rfl
  | @cons io io₁ io' op ops hs hrest ih =>
      have hm₁ := hm.change hs.2.1 (step_cases hm.sound.wellFormed hs.1)
      unfold requests answers at *
      rw [trace, trace, show io.step op = .ok io₁ from hs.1]
      exact (step_served hm hs.2 hs.1).append (ih hm₁)

theorem construct_descriptor (notifyFd : Fd) (fd : Nat) :
    (construct notifyFd).descriptor fd = .empty := by
  have hcontext : (construct notifyFd).context fd = .new fd := by
    unfold construct
    rw [context_contextResize _ fun hk ↦ absurd hk (Nat.not_lt_zero fd)]
    · rfl
    · exact fun k hk ↦ absurd hk (Nat.not_lt_zero k)
  rw [descriptor, hcontext, descriptor_new]

/-- Each descriptor's machine runs by itself. -/
theorem Served.each {reqs : List (Nat × Request)} {answers : List (Nat × Option Bool)}
    (h : Served (construct notifyFd) reqs answers io) :
    ∃ xs : List (Nat × Effect),
      (∀ fd, Family.exec Descriptor.step .empty (Family.only fd reqs) =
        some (io.descriptor fd, Family.only fd xs)) ∧
      answers = xs.map (fun x ↦ (x.1, x.2.answer)) ∧
      (∀ sched, io.queues sched = entriesFor sched (xs.flatMap fun x ↦ x.2.handed)) ∧
      io.pendingEventCount = BitVec.ofInt 64 (xs.map fun x ↦ x.2.count).sum := by
  obtain ⟨xs, hexec, hanswers, hqueues, hcount⟩ := h
  refine ⟨xs, fun fd ↦ ?_, hanswers, hqueues, ?_⟩
  · rw [← construct_descriptor notifyFd fd]
    exact Family.exec_only hexec fd
  · rw [hcount]
    exact BitVec.zero_add _

/-- What is registered on a descriptor, what is handed over for it and what its calls return is what
its own requests make of it, whatever happens to the other descriptors in between.  The queues get
the handlers in the order in which they are handed over, and `m_pendingEventCount` is the sum of
what the requests add. -/
theorem descriptors_independent (h : Run (Guarded Step Apart) (construct notifyFd) ops io) :
    ∃ xs : List (Nat × Effect),
      (∀ fd, Family.exec Descriptor.step .empty (Family.only fd ((construct notifyFd).requests ops)) =
        some (io.descriptor fd, Family.only fd xs)) ∧
      (construct notifyFd).answers ops = xs.map (fun x ↦ (x.1, x.2.answer)) ∧
      (∀ sched, io.queues sched = entriesFor sched (xs.flatMap fun x ↦ x.2.handed)) ∧
      io.pendingEventCount = BitVec.ofInt 64 (xs.map fun x ↦ x.2.count).sum := by
  exact (run_served h (construct_mirrored notifyFd)).each

end

instance (io : IOManager) (op : Op) : Decidable (io.Apart op) := inferInstanceAs (Decidable (_ ∧ _))

/-- Two descriptors with one event each: one is cancelled while the other one's event is
reported. -/
def turns : List Op :=
  [.addEvent 5 .read someCaller (some 7) true, .addEvent 6 .write someCaller none true,
    .idle ⟨EPOLLOUT, .ptr 6⟩ true, .cancelEvent 5 .read true]

theorem descriptors_independent_turns : ∃ io, Run (Guarded Step Apart) (construct 4) turns io ∧
    ∃ xs : List (Nat × Effect),
      (∀ fd, Family.exec Descriptor.step .empty (Family.only fd ((construct 4).requests turns)) =
        some (io.descriptor fd, Family.only fd xs)) ∧
      (construct 4).answers turns = xs.map (fun x ↦ (x.1, x.2.answer)) ∧
      (∀ sched, io.queues sched = entriesFor sched (xs.flatMap fun x ↦ x.2.handed)) ∧
      io.pendingEventCount = BitVec.ofInt 64 (xs.map fun x ↦ x.2.count).sum := by
  obtain ⟨io, hrun, -⟩ := exists_checked_run (R := Guarded Step Apart)
    (fun io op ↦ decide (io.Apart op)) (fun s a s' hs hok ↦ ⟨hs, of_decide_eq_true hok⟩) (construct 4)
    turns (P := fun _ ↦ true) (by decide +kernel)
  exact ⟨io, hrun, descriptors_independent hrun⟩

end Server.IOManager
