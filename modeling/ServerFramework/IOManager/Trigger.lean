import ServerFramework.IOManager.Operations
import ServerFramework.Library.Fallible

/-!
# What triggering a registered event does

`triggerEvent` moves the handler out field by field.  On a context whose handlers agree with its
event mask the net effect is simpler: the slot is emptied and the handler's entry is appended to the
queue of its scheduler.
-/

namespace Server.IOManager

open Fallible

/-- The handler that an occupied `EventContext` holds. -/
structure Handler where
  scheduler : Option SchedulerId
  entry : FiberAndThread
  deriving DecidableEq, Repr

/-- The entry that `schedule(&ctx.cb)` or `schedule(&ctx.fiber)` enqueues. -/
def EventContext.handler (ec : EventContext) : Handler :=
  ⟨ec.scheduler, if ec.cb.isSome then .ofCb ec.cb (-1) else .ofFiber ec.fiber (-1)⟩

/-- Exactly one of `fiber` and `cb` is set. -/
def EventContext.Loaded (ec : EventContext) : Prop := ec.fiber.isSome ≠ ec.cb.isSome

instance (ec : EventContext) : Decidable ec.Loaded := inferInstanceAs (Decidable (_ ≠ _))

theorem newHandler_loaded {caller : Caller} {cb : Option Callback} {ec : EventContext}
    (h : newHandler caller cb = .ok ec) : ec.Loaded ∧ ec.scheduler = caller.scheduler := by
  unfold newHandler at h
  cases cb with
  | some c =>
      cases h
      exact ⟨by simp [EventContext.Loaded], rfl⟩
  | none =>
      by_cases hx : caller.fiberState = .exec
      · simp only [hx, if_true, Except.ok.injEq] at h
        subst h
        exact ⟨by simp [EventContext.Loaded], rfl⟩
      · simp only [hx, if_false, reduceCtorEq] at h

namespace FdContext

/-- The mask and the handlers agree: a clear bit means an empty slot, a set bit a loaded one. -/
def WellFormed (ctx : FdContext) : Prop :=
  ∀ e, if ctx.events.has e then (ctx.getContext e).Loaded else ctx.getContext e = .empty

theorem WellFormed.loaded {ctx : FdContext} (h : ctx.WellFormed) {e : Event}
    (he : ctx.events.has e = true) : (ctx.getContext e).Loaded := by
  have h' := h e
  rwa [if_pos he] at h'

theorem WellFormed.empty {ctx : FdContext} (h : ctx.WellFormed) {e : Event}
    (he : ctx.events.has e = false) : ctx.getContext e = .empty := by
  have h' := h e
  rwa [if_neg (by simp [he])] at h'

theorem new_wellFormed (fd : Nat) : (new fd).WellFormed := by
  intro e
  rw [if_neg (by simp [new]), getContext_new]

/-- The context after `e` is cleared from the mask and its slot emptied. -/
def clear (ctx : FdContext) (e : Event) : FdContext :=
  { ctx with events := ctx.events.erase e }.setContext .empty e

/-- The context after `e` is registered with a handler. -/
def register (ctx : FdContext) (e : Event) (ec : EventContext) : FdContext :=
  { ctx with events := ctx.events.insert e }.setContext ec e

@[simp] theorem clear_events (ctx : FdContext) (e : Event) :
    (ctx.clear e).events = ctx.events.erase e := setContext_events _ _ _

@[simp] theorem clear_fd (ctx : FdContext) (e : Event) : (ctx.clear e).fd = ctx.fd :=
  setContext_fd _ _ _

@[simp] theorem register_events (ctx : FdContext) (e : Event) (ec : EventContext) :
    (ctx.register e ec).events = ctx.events.insert e := setContext_events _ _ _

@[simp] theorem register_fd (ctx : FdContext) (e : Event) (ec : EventContext) :
    (ctx.register e ec).fd = ctx.fd := setContext_fd _ _ _

@[simp] theorem getContext_clear (ctx : FdContext) (e e' : Event) :
    (ctx.clear e).getContext e' = if e = e' then .empty else ctx.getContext e' := by
  rw [clear, getContext_setContext, getContext_withEvents]

@[simp] theorem getContext_register (ctx : FdContext) (e e' : Event) (ec : EventContext) :
    (ctx.register e ec).getContext e' = if e = e' then ec else ctx.getContext e' := by
  rw [register, getContext_setContext, getContext_withEvents]

theorem WellFormed.clear {ctx : FdContext} (h : ctx.WellFormed) (e : Event) :
    (ctx.clear e).WellFormed := by
  intro e'
  rw [clear_events, getContext_clear, EventSet.has_erase]
  by_cases he : e = e'
  · simp [he]
  · simpa [he] using h e'

theorem WellFormed.register {ctx : FdContext} (h : ctx.WellFormed) (e : Event)
    {ec : EventContext} (hec : ec.Loaded) : (ctx.register e ec).WellFormed := by
  intro e'
  rw [register_events, getContext_register, EventSet.has_insert]
  by_cases he : e = e'
  · simpa [he] using hec
  · simpa [he] using h e'

/-- Appends the handler's entry to the queue of its scheduler. -/
def push (queues : Queues) (h : Handler) : Queues :=
  match h.scheduler with
  | none => queues
  | some sched => Function.update queues sched (queues sched ++ [h.entry])

theorem handOver_loaded {ec : EventContext} {queues : Queues} {sched : SchedulerId}
    (hec : ec.Loaded) (hs : ec.scheduler = some sched) :
    handOver ec queues = .ok (.empty, push queues ec.handler) := by
  obtain ⟨s, f, c⟩ := ec
  obtain rfl : s = some sched := hs
  -- exactly one of `fiber` and `cb` is set, and the other one is what the move leaves anyway
  cases c with
  | some c =>
      cases f with
      | some f => exact absurd rfl hec
      | none => rfl
  | none =>
      cases f with
      | some f => rfl
      | none => exact absurd rfl hec

theorem handOver_none {ec : EventContext} {queues : Queues} (hs : ec.scheduler = none) :
    handOver ec queues = .error .nullPointer := by
  simp only [handOver, hs]

/-- `triggerEvent` on a registered event whose thread had a scheduler. -/
theorem triggerEvent_registered {ctx : FdContext} (hwf : ctx.WellFormed) {e : Event}
    {queues : Queues} {sched : SchedulerId} (he : ctx.events.has e = true)
    (hs : (ctx.getContext e).scheduler = some sched) :
    ctx.triggerEvent e queues = .ok (ctx.clear e, push queues (ctx.getContext e).handler) := by
  unfold triggerEvent
  rw [if_pos he]
  simp only [getContext_withEvents, handOver_loaded (hwf.loaded he) hs]
  rfl

theorem triggerEvent_unregistered {ctx : FdContext} {e : Event} {queues : Queues}
    (he : ctx.events.has e = false) :
    ctx.triggerEvent e queues = .error (.assertFailed .triggerRegistered) := by
  unfold triggerEvent
  rw [if_neg (by simp [he])]

theorem triggerEvent_nullScheduler {ctx : FdContext} {e : Event} {queues : Queues}
    (he : ctx.events.has e = true) (hs : (ctx.getContext e).scheduler = none) :
    ctx.triggerEvent e queues = .error .nullPointer := by
  unfold triggerEvent
  rw [if_pos he]
  simp only [getContext_withEvents, handOver_none hs]
  rfl

/-- The event can be triggered: it is registered, by a thread that had a scheduler. -/
def Triggerable (ctx : FdContext) (e : Event) : Prop :=
  ctx.events.has e = true ∧ (ctx.getContext e).scheduler.isSome = true

instance (ctx : FdContext) (e : Event) : Decidable (ctx.Triggerable e) :=
  inferInstanceAs (Decidable (_ ∧ _))

theorem triggerEvent_ok {ctx ctx' : FdContext} (hwf : ctx.WellFormed) {e : Event}
    {queues queues' : Queues} (h : ctx.triggerEvent e queues = .ok (ctx', queues')) :
    ctx.Triggerable e ∧ ctx' = ctx.clear e ∧ queues' = push queues (ctx.getContext e).handler := by
  cases he : ctx.events.has e with
  | false => rw [triggerEvent_unregistered he] at h; cases h
  | true =>
      cases hs : (ctx.getContext e).scheduler with
      | none => rw [triggerEvent_nullScheduler he hs] at h; cases h
      | some sched =>
          rw [triggerEvent_registered hwf he hs] at h
          cases h
          exact ⟨⟨he, by rw [hs]; rfl⟩, rfl, rfl⟩

/-- The handlers of the given events are moved to their queues and the events cleared. -/
def clearAll (ctx : FdContext) (es : List Event) : FdContext := es.foldl clear ctx

def pushAll (queues : Queues) (hs : List Handler) : Queues := hs.foldl push queues

theorem has_clearAll (ctx : FdContext) (es : List Event) (e : Event) :
    (ctx.clearAll es).events.has e = (ctx.events.has e && decide (e ∉ es)) := by
  unfold clearAll
  induction es generalizing ctx with
  | nil => simp
  | cons x xs ih =>
      rw [List.foldl_cons, ih, clear_events, EventSet.has_erase]
      by_cases hx : x = e
      · simp [hx]
      · simp [hx, Ne.symm hx]

theorem getContext_clearAll (ctx : FdContext) (es : List Event) (e : Event) :
    (ctx.clearAll es).getContext e = if e ∈ es then .empty else ctx.getContext e := by
  unfold clearAll
  induction es generalizing ctx with
  | nil => simp
  | cons x xs ih =>
      rw [List.foldl_cons, ih, getContext_clear]
      by_cases hx : x = e
      · simp [hx]
      · simp [hx, Ne.symm hx]

@[simp] theorem clearAll_fd (ctx : FdContext) (es : List Event) : (ctx.clearAll es).fd = ctx.fd := by
  unfold clearAll
  induction es generalizing ctx with
  | nil => rfl
  | cons x xs ih => rw [List.foldl_cons, ih, clear_fd]

theorem WellFormed.clearAll {ctx : FdContext} (h : ctx.WellFormed) (es : List Event) :
    (ctx.clearAll es).WellFormed := by
  unfold FdContext.clearAll
  induction es generalizing ctx with
  | nil => exact h
  | cons x xs ih => exact ih (h.clear x)

end FdContext

end Server.IOManager
