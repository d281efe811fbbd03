import ServerFramework.IOManager.Steps
import ServerFramework.Library.Ledger

/-!
# No handler is lost or run twice

Every handler that `addEvent` accepted is stored in its context, or was handed once to the scheduler
it was registered on, or was discarded by `delEvent`.
-/

namespace Server.IOManager

open Fallible Runs Ledger

/-- A handler in the slot of one event of one context. -/
structure Entry where
  ptr : FdPtr
  fd : Nat
  event : Event
  handler : Handler
  deriving DecidableEq, Repr

def entryAt (p : FdPtr) (ctx : FdContext) (event : Event) : Entry :=
  ⟨p, ctx.fd, event, (ctx.getContext event).handler⟩

/-- The handlers of one context whose bits are set. -/
def storedAt (io : IOManager) (p : FdPtr) : List Entry :=
  match io.heap[p]? with
  | none => []
  | some ctx => ctx.events.toList.map (entryAt p ctx)

/-- Every handler in the table. -/
def stored (io : IOManager) : List Entry := (List.range io.heap.length).flatMap io.storedAt

/-- What an `addEvent` that returns 0 accepts. -/
def acceptedBy (io : IOManager) (fd : Fd) (event : Event) (caller : Caller) (cb : Option Callback)
    (ok : Bool) : List Entry :=
  match io.addEvent fd event caller cb ok with
  | .error _ => []
  | .ok (r, io') =>
    if r = 0 then
      match newHandler caller cb, io'.contextPtr fd with
      | .ok ec, .ok p => [⟨p, fd, event, ec.handler⟩]
      | _, _ => []
    else []

/-- What a `delEvent` that returns true discards: the handler stored for that fd and event. -/
def discardedBy (io : IOManager) (fd : Fd) (event : Event) (ok : Bool) : List Entry :=
  match io.delEvent fd event ok with
  | .error _ => []
  | .ok (r, _) =>
    if r then
      match io.contextPtr fd with
      | .ok p => (io.storedAt p).filter fun en ↦ en.event = event
      | .error _ => []
    else []

/-- What one step does with handlers. -/
def record (io : IOManager) (op : Op) (io' : IOManager) : Ledger Entry :=
  match op with
  | .addEvent fd event caller cb ok => ⟨io.acceptedBy fd event caller cb ok, [], []⟩
  | .delEvent fd event ok => ⟨[], [], io.discardedBy fd event ok⟩
  | .cancelEvent .. | .cancelAll .. | .idle .. => ⟨[], gone io.stored io'.stored, []⟩

def ledger (io : IOManager) (ops : List Op) : Ledger Entry :=
  totals (fun io op ↦ (io.step op).toOption) record io ops

/-- The entries that a scheduler gets from a list of handlers. -/
def entriesFor (sched : SchedulerId) (hs : List Handler) : List FiberAndThread :=
  (hs.filter fun h ↦ h.scheduler = some sched).map (·.entry)

theorem pushAll_apply (queues : Queues) (hs : List Handler) (sched : SchedulerId) :
    FdContext.pushAll queues hs sched = queues sched ++ entriesFor sched hs := by
  unfold FdContext.pushAll entriesFor
  induction hs generalizing queues with
  | nil => simp
  | cons h hs ih =>
      rw [List.foldl_cons, ih]
      unfold FdContext.push
      cases hsched : h.scheduler with
      | none => simp [hsched]
      | some s =>
          -- the handler is appended to the queue of its own scheduler and to no other
          by_cases heq : s = sched
          · subst heq
            simp [hsched, Function.update_self]
          · simp [hsched, heq, Function.update_of_ne (Ne.symm heq)]

/-! ## The stored handlers -/

theorem mem_storedAt {io : IOManager} {p : FdPtr} {en : Entry} :
    en ∈ io.storedAt p ↔ ∃ ctx, io.heap[p]? = some ctx ∧ ctx.events.has en.event = true ∧
      en = entryAt p ctx en.event := by
  unfold storedAt
  split
  · rename_i hnone
    simp [hnone]
  · rename_i ctx hctx
    simp only [List.mem_map, EventSet.mem_toList, hctx, Option.some_inj]
    constructor
    · rintro ⟨e, he, rfl⟩
      exact ⟨ctx, rfl, he, rfl⟩
    · rintro ⟨c, rfl, he, heq⟩
      exact ⟨en.event, he, heq.symm⟩

theorem mem_storedAt_ptr {io : IOManager} {p : FdPtr} {en : Entry} (h : en ∈ io.storedAt p) :
    en.ptr = p := by
  obtain ⟨ctx, -, -, heq⟩ := mem_storedAt.mp h
  rw [heq]
  rfl

theorem mem_stored {io : IOManager} {en : Entry} : en ∈ io.stored ↔ en ∈ io.storedAt en.ptr := by
  unfold stored
  simp only [List.mem_flatMap, List.mem_range]
  constructor
  · rintro ⟨p, -, hp⟩
    rwa [mem_storedAt_ptr hp]
  · intro h
    obtain ⟨ctx, hctx, -⟩ := mem_storedAt.mp h
    exact ⟨en.ptr, (List.getElem?_eq_some_iff.mp hctx).1, h⟩

theorem storedAt_nodup (io : IOManager) (p : FdPtr) : (io.storedAt p).Nodup := by
  unfold storedAt
  split
  · exact List.nodup_nil
  · apply (chosen_nodup _ _).map_on
    intro e _ e' _ h
    exact congrArg Entry.event h

theorem stored_nodup (io : IOManager) : io.stored.Nodup := by
  refine List.nodup_flatMap.mpr ⟨fun p _ ↦ io.storedAt_nodup p, ?_⟩
  refine List.nodup_range.imp fun hne en h h' ↦ hne ?_
  rw [← mem_storedAt_ptr h, mem_storedAt_ptr h']

/-- Writing one context changes only its own handlers. -/
theorem storedAt_set_ne {io io' : IOManager} {p q : FdPtr} {ctx : FdContext}
    (hheap : io'.heap = io.heap.set p ctx) (hne : q ≠ p) : io'.storedAt q = io.storedAt q := by
  unfold storedAt
  rw [hheap, List.getElem?_set_ne hne.symm]

theorem storedAt_set_self {io io' : IOManager} {p : FdPtr} {ctx ctx' : FdContext}
    (hctx : io.heap[p]? = some ctx) (hheap : io'.heap = io.heap.set p ctx') :
    io'.storedAt p = ctx'.events.toList.map (entryAt p ctx') := by
  unfold storedAt
  rw [hheap, List.getElem?_set_self (List.getElem?_eq_some_iff.mp hctx).1]

theorem storedAt_eq {io : IOManager} {p : FdPtr} {ctx : FdContext}
    (hctx : io.heap[p]? = some ctx) : io.storedAt p = ctx.events.toList.map (entryAt p ctx) := by
  unfold storedAt
  rw [hctx]

theorem contextResize_storedAt (io : IOManager) (size : Nat) (p : FdPtr) :
    (io.contextResize size).storedAt p = io.storedAt p := by
  by_cases hp : p < io.heap.length
  · have hctx := List.getElem?_eq_getElem hp
    rw [storedAt_eq hctx, storedAt_eq (contextResize_getElem?_heap hctx size)]
  · obtain ⟨news, hn, hnew⟩ := contextResize_heap io size
    unfold storedAt
    rw [List.getElem?_eq_none (Nat.le_of_not_lt hp)]
    split
    · rfl
    · -- an object that the resize allocated holds no handler
      rename_i ctx hctx
      rw [hn, List.getElem?_append_right (Nat.le_of_not_lt hp)] at hctx
      obtain ⟨j, rfl⟩ := hnew ctx (List.mem_of_getElem? hctx)
      have hnone : EventSet.none.toList = [] := by decide
      rw [FdContext.new, hnone, List.map_nil]

theorem Entered.storedAt {io io₁ : IOManager} {fd : Fd} (h : Entered io fd io₁) (p : FdPtr) :
    io₁.storedAt p = io.storedAt p := by
  rcases h with ⟨rfl, -⟩ | ⟨rfl, -⟩
  · rfl
  · exact contextResize_storedAt _ _ _

theorem stored_perm {io io' : IOManager} (h : ∀ p, io'.storedAt p = io.storedAt p) :
    io.stored.Perm io'.stored := by
  rw [List.perm_ext_iff_of_nodup io.stored_nodup io'.stored_nodup]
  intro en
  rw [mem_stored, mem_stored, h]

/-! ## What each change does -/

theorem registered_stored {io : IOManager} {p : FdPtr} {ctx : FdContext} {event : Event}
    {ec : EventContext} {epoll : Interest} (hctx : io.heap[p]? = some ctx)
    (hhas : ctx.events.has event = false) :
    (io.stored ++ [(⟨p, ctx.fd, event, ec.handler⟩ : Entry)]).Perm
      (io.registered p ctx event ec epoll).stored := by
  have hnew : (⟨p, ctx.fd, event, ec.handler⟩ : Entry) ∉ io.stored := by
    intro hmem
    obtain ⟨c, hc, hhas', -⟩ := mem_storedAt.mp (mem_stored.mp hmem)
    cases hctx.symm.trans hc
    rw [hhas] at hhas'
    cases hhas'
  have hnd : (io.stored ++ [(⟨p, ctx.fd, event, ec.handler⟩ : Entry)]).Nodup :=
    io.stored_nodup.append (List.nodup_singleton _) fun en hen hen' ↦
      hnew (List.mem_singleton.mp hen' ▸ hen)
  rw [List.perm_ext_iff_of_nodup hnd (stored_nodup _)]
  intro en
  rw [List.mem_append, List.mem_singleton, mem_stored, mem_stored]
  have hheap : (io.registered p ctx event ec epoll).heap = io.heap.set p (ctx.register event ec) :=
    rfl
  -- only the entries of the context at `p` can change, and of these only the one for `event`
  by_cases hp : en.ptr = p
  · rw [hp, storedAt_set_self hctx hheap, storedAt_eq hctx]
    simp only [List.mem_map, EventSet.mem_toList, FdContext.register_events, EventSet.has_insert,
      Bool.or_eq_true, decide_eq_true_eq]
    have hold : ∀ e, e ≠ event → entryAt p (ctx.register event ec) e = entryAt p ctx e := by
      intro e he
      simp only [entryAt, FdContext.register_fd, FdContext.getContext_register, if_neg (Ne.symm he)]
    have hself : entryAt p (ctx.register event ec) event =
        (⟨p, ctx.fd, event, ec.handler⟩ : Entry) := by
      simp only [entryAt, FdContext.register_fd, FdContext.getContext_register, if_true]
    constructor
    · rintro (⟨e, he, rfl⟩ | rfl)
      · refine ⟨e, .inl he, hold e ?_⟩
        rintro rfl
        rw [hhas] at he
        cases he
      · exact ⟨event, .inr rfl, hself⟩
    · rintro ⟨e, he, rfl⟩
      by_cases hev : e = event
      · subst hev
        exact .inr hself
      · exact .inl ⟨e, he.resolve_right (Ne.symm hev), (hold e hev).symm⟩
  · rw [storedAt_set_ne hheap hp]
    constructor
    · rintro (h | rfl)
      · exact h
      · exact absurd rfl hp
    · exact .inl

/-- A context that loses some of its events keeps the handlers of the others. -/
theorem storedAt_removed {io io' : IOManager} {p : FdPtr} {ctx ctx' : FdContext} {es : List Event}
    (hctx : io.heap[p]? = some ctx) (hheap : io'.heap = io.heap.set p ctx')
    (hfd : ctx'.fd = ctx.fd)
    (hhas : ∀ e, ctx'.events.has e = (ctx.events.has e && decide (e ∉ es)))
    (hget : ∀ e, e ∉ es → ctx'.getContext e = ctx.getContext e) {en : Entry} :
    en ∈ io'.stored ↔ en ∈ io.stored ∧ ¬ (en.ptr = p ∧ en.event ∈ es) := by
  rw [mem_stored, mem_stored]
  by_cases hp : en.ptr = p
  · rw [hp, storedAt_set_self hctx hheap, storedAt_eq hctx]
    simp only [List.mem_map, EventSet.mem_toList, hhas, Bool.and_eq_true, decide_eq_true_eq,
      true_and]
    have hentry : ∀ e, e ∉ es → entryAt p ctx' e = entryAt p ctx e := by
      intro e he
      simp only [entryAt, hfd, hget e he]
    constructor
    · rintro ⟨e, ⟨he, hes⟩, rfl⟩
      exact ⟨⟨e, he, (hentry e hes).symm⟩, hes⟩
    · rintro ⟨⟨e, he, rfl⟩, hes⟩
      exact ⟨e, ⟨he, hes⟩, hentry e hes⟩
  · rw [storedAt_set_ne hheap hp]
    simp only [hp, false_and, not_false_eq_true, and_true]

theorem toList_filter_chosen (s : EventSet) (read write : Bool)
    (h : ∀ e ∈ chosen read write, s.has e = true) :
    s.toList.filter (fun e ↦ e ∈ chosen read write) = chosen read write := by
  have hr : read = true → s.has .read = true := by
    rintro rfl
    exact h .read (by simp [chosen])
  have hw : write = true → s.has .write = true := by
    rintro rfl
    exact h .write (by simp [chosen])
  unfold EventSet.toList
  cases read <;> cases write <;> cases hsr : s.has .read <;> cases hsw : s.has .write <;>
    simp_all [chosen]

/-- What leaves with the chosen events of one context are their handlers, in order. -/
theorem gone_chosen {io io' : IOManager} {p : FdPtr} {ctx ctx' : FdContext} {read write : Bool}
    (hctx : io.heap[p]? = some ctx) (hheap : io'.heap = io.heap.set p ctx')
    (hfd : ctx'.fd = ctx.fd)
    (hhas : ∀ e, ctx'.events.has e = (ctx.events.has e && decide (e ∉ chosen read write)))
    (hget : ∀ e, e ∉ chosen read write → ctx'.getContext e = ctx.getContext e)
    (hes : ∀ e ∈ chosen read write, ctx.events.has e = true) :
    gone io.stored io'.stored = (chosen read write).map (entryAt p ctx) := by
  -- an entry leaves if and only if it is one of the chosen ones of `p`
  have hleft : ∀ q, ∀ en ∈ io.storedAt q,
      decide (en ∉ io'.stored) = decide (q = p ∧ en.event ∈ chosen read write) := by
    intro q en hen
    have hq := mem_storedAt_ptr hen
    rw [decide_eq_decide, storedAt_removed hctx hheap hfd hhas hget, mem_stored, hq]
    simp only [hen, true_and, not_not]
  have hp : p ∈ List.range io.heap.length :=
    List.mem_range.mpr (List.getElem?_eq_some_iff.mp hctx).1
  unfold gone
  rw [show io.stored = (List.range io.heap.length).flatMap io.storedAt from rfl,
    List.filter_flatMap, flatMap_eq_of_single List.nodup_range hp]
  · rw [List.filter_congr (hleft p), storedAt_eq hctx, List.filter_map]
    apply congrArg (List.map (entryAt p ctx))
    simp only [true_and, Function.comp_def, entryAt]
    exact toList_filter_chosen _ _ _ hes
  · intro q hq hne
    rw [List.filter_congr (hleft q)]
    simp only [hne, false_and, decide_false, List.filter_false]

/-- What one step's record says of the handlers and the queues. -/
structure Recorded (io : IOManager) (L : Ledger Entry) (io' : IOManager) : Prop where
  balanced : Balances io.stored L io'.stored
  queued : ∀ sched, io'.queues sched =
    io.queues sched ++ entriesFor sched (L.handed.map (·.handler))
  withScheduler : ∀ en ∈ L.accepted, en.handler.scheduler.isSome = true

theorem Recorded.empty (io : IOManager) : Recorded io .empty io where
  balanced := .empty _
  queued := fun sched ↦ by simp [Ledger.empty, entriesFor]
  withScheduler := fun en hen ↦ by cases hen

theorem Recorded.add {a b c : IOManager} {L M : Ledger Entry} (h : Recorded a L b)
    (h' : Recorded b M c) : Recorded a (L.add M) c where
  balanced := h.balanced.add h'.balanced
  queued := by
    intro sched
    rw [h'.queued, h.queued]
    simp only [Ledger.add, entriesFor, List.map_append, List.filter_append, List.append_assoc]
  withScheduler := by
    intro en hen
    rcases List.mem_append.mp hen with hen | hen
    · exact h.withScheduler en hen
    · exact h'.withScheduler en hen

/-- The threads that call `addEvent` have a scheduler. -/
def fromScheduler (_ : IOManager) : Op → Bool
  | .addEvent _ _ caller _ _ => caller.scheduler.isSome
  | _ => true

def Registering : IOManager → Op → IOManager → Prop :=
  Guarded Step fun io op ↦ io.fromScheduler op = true

theorem Recorded.handed {io : IOManager} {p : FdPtr} {ctx : FdContext} {read write : Bool}
    {epoll : Interest} (hctx : io.heap[p]? = some ctx)
    (htr : ∀ e ∈ chosen read write, ctx.Triggerable e) :
    Recorded io ⟨[], gone io.stored (io.delivered p ctx (chosen read write) epoll).stored, []⟩
      (io.delivered p ctx (chosen read write) epoll) where
  balanced := by
    unfold Balances
    rw [List.append_nil, List.append_nil]
    apply perm_gone io.stored_nodup (stored_nodup _)
    intro en hen
    refine ((storedAt_removed hctx rfl (FdContext.clearAll_fd _ _)
      (FdContext.has_clearAll _ _) fun e he ↦ ?_).mp hen).1
    rw [FdContext.getContext_clearAll, if_neg he]
  queued := by
    intro sched
    rw [gone_chosen hctx rfl (FdContext.clearAll_fd _ _) (FdContext.has_clearAll _ _)
      (fun e he ↦ by rw [FdContext.getContext_clearAll, if_neg he]) fun e he ↦ (htr e he).1,
      List.map_map]
    exact pushAll_apply _ _ _
  withScheduler := fun en hen ↦ by cases hen

/-- A step that leaves every context as it was records nothing. -/
theorem Recorded.unchanged {io io' : IOManager} (hstored : ∀ p, io'.storedAt p = io.storedAt p)
    (hqueues : io'.queues = io.queues) : Recorded io .empty io' where
  balanced := by
    unfold Balances Ledger.empty
    rw [List.append_nil]
    exact stored_perm hstored
  queued := fun sched ↦ by simp [hqueues, Ledger.empty, entriesFor]
  withScheduler := fun en hen ↦ by cases hen

theorem gone_self (io : IOManager) : gone io.stored io.stored = [] := by
  unfold gone
  rw [List.filter_eq_nil_iff]
  intro en hen
  simp [hen]

theorem Entered.queues {io io₁ : IOManager} {fd : Fd} (h : Entered io fd io₁) :
    io₁.queues = io.queues := by
  rcases h with ⟨rfl, -⟩ | ⟨rfl, -⟩ <;> rfl

theorem acceptedBy_failed {io io' : IOManager} {fd : Fd} {event : Event} {caller : Caller}
    {cb : Option Callback} {ok : Bool} (h : io.addEvent fd event caller cb ok = .ok (-1, io')) :
    io.acceptedBy fd event caller cb ok = [] := by
  simp only [acceptedBy, h, reduceCtorEq, if_false]

theorem acceptedBy_ok {io io' : IOManager} {fd : Fd} {event : Event} {caller : Caller}
    {cb : Option Callback} {ok : Bool} {p : FdPtr} {ec : EventContext}
    (h : io.addEvent fd event caller cb ok = .ok (0, io'))
    (hp : io'.fdContexts[fd.val]? = some (some p)) (hec : newHandler caller cb = .ok ec) :
    io.acceptedBy fd event caller cb ok = [⟨p, fd, event, ec.handler⟩] := by
  simp only [acceptedBy, contextPtr, h, hec, hp, if_true]

theorem record_addEvent {io io' : IOManager} (hs : io.Sound) {fd : Fd} {event : Event}
    {caller : Caller} {cb : Option Callback} {ok : Bool} {r : Int}
    (hsched : caller.scheduler.isSome = true)
    (h : io.addEvent fd event caller cb ok = .ok (r, io')) :
    Recorded io ⟨io.acceptedBy fd event caller cb ok, [], []⟩ io' := by
  obtain ⟨p, io₁, henter, hp, hlocked⟩ := addEvent_ok h
  have h₁ : Recorded io .empty io₁ := .unchanged (Entered.storedAt henter) (Entered.queues henter)
  rcases addEventLocked_ok hlocked with
    ⟨rfl, rfl⟩ | ⟨rfl, ctx, epoll, ec, hctx, hhas, -, hec, -, rfl⟩
  · rw [acceptedBy_failed h]
    exact h₁
  · rw [acceptedBy_ok h hp hec]
    -- the context found at index `fd` of the table is the one of `fd`
    have hfd : ctx.fd = fd := by
      obtain ⟨p', c, hp', hc, hfd⟩ :=
        (hs.entered henter).filled fd (List.getElem?_eq_some_iff.mp hp).1
      cases hp.symm.trans hp'
      cases hctx.symm.trans hc
      exact hfd
    have h₂ : Recorded io₁ ⟨[⟨p, ctx.fd, event, ec.handler⟩], [], []⟩
        (io₁.registered p ctx event ec epoll) := by
      refine ⟨registered_stored hctx hhas, fun sched ↦ ?_, fun en hen ↦ ?_⟩
      · exact (List.append_nil _).symm
      · obtain rfl := List.mem_singleton.mp hen
        exact (congrArg Option.isSome (newHandler_loaded hec).2).trans hsched
    rw [← hfd]
    exact h₁.add h₂

theorem record_delEvent {io io' : IOManager} {fd : Fd} {event : Event} {ok r : Bool}
    (h : io.delEvent fd event ok = .ok (r, io')) :
    Recorded io ⟨[], [], io.discardedBy fd event ok⟩ io' := by
  rcases delEvent_ok h with ⟨rfl, rfl⟩ | ⟨rfl, p, ctx, epoll, hat, -, rfl⟩
  · have hnone : io'.discardedBy fd event ok = [] := by
      simp only [discardedBy, h, Bool.false_eq_true, if_false]
    rw [hnone]
    exact .empty _
  · have hsome : io.discardedBy fd event ok =
        (io.storedAt p).filter fun en ↦ en.event = event := by
      simp only [discardedBy, h, if_true, hat.contextPtr]
    have hmem : ∀ en, en ∈ (io.discarded p ctx event epoll).stored ↔
        en ∈ io.stored ∧ ¬ (en.ptr = p ∧ en.event ∈ [event]) := by
      intro en
      refine storedAt_removed hat.2 rfl (FdContext.clear_fd _ _) (fun e ↦ ?_) fun e he ↦ ?_
      · rw [FdContext.clear_events, EventSet.has_erase]
        simp only [List.mem_singleton, ne_eq, eq_comm]
      · rw [FdContext.getContext_clear, if_neg (Ne.symm (List.ne_of_not_mem_cons he))]
    refine ⟨?_, fun sched ↦ (List.append_nil _).symm, fun en hen ↦ by cases hen⟩
    unfold Balances
    rw [hsome, List.append_nil, List.nil_append]
    -- no entry is both discarded and still stored
    have hnd : ((io.storedAt p).filter (fun en ↦ en.event = event) ++
        (io.discarded p ctx event epoll).stored).Nodup := by
      apply ((io.storedAt_nodup p).filter _).append (stored_nodup _)
      intro en hen hen'
      obtain ⟨hst, hev⟩ := List.mem_filter.mp hen
      exact ((hmem en).mp hen').2
        ⟨mem_storedAt_ptr hst, List.mem_singleton.mpr (of_decide_eq_true hev)⟩
    rw [List.perm_ext_iff_of_nodup io.stored_nodup hnd]
    intro en
    rw [List.mem_append, List.mem_filter, hmem, decide_eq_true_eq, List.mem_singleton]
    by_cases hout : en.ptr = p ∧ en.event = event
    · have hst : en ∈ io.stored ↔ en ∈ io.storedAt p := by rw [mem_stored, hout.1]
      simp only [hout, and_self, not_true_eq_false, and_false, or_false, and_true, hst]
    · have hst : ¬ (en ∈ io.storedAt p ∧ en.event = event) := fun hc ↦
        hout ⟨mem_storedAt_ptr hc.1, hc.2⟩
      simp only [hst, hout, not_false_eq_true, and_true, false_or]

theorem chosen_single (event : Event) :
    [event] = chosen (decide (event = .read)) (decide (event = .write)) := by
  cases event <;> rfl

/-- What `cancelEvent`, `cancelAll` and `idle` record. -/
theorem record_change {io io' : IOManager} {op : Op} (hc : Change io op io')
    (hadd : ∀ fd event caller cb ok, op ≠ .addEvent fd event caller cb ok)
    (hdel : ∀ fd event ok, op ≠ .delEvent fd event ok) :
    Recorded io ⟨[], gone io.stored io'.stored, []⟩ io' := by
  cases hc with
  | same =>
      rw [gone_self]
      exact .empty _
  | grown => exact absurd rfl (hadd _ _ _ _ _)
  | registered => exact absurd rfl (hadd _ _ _ _ _)
  | discarded => exact absurd rfl (hdel _ _ _)
  | @cancelled _ event _ _ _ _ hat htr _ =>
      rw [chosen_single event]
      apply Recorded.handed hat.2
      intro e he
      rw [← chosen_single, List.mem_singleton] at he
      exact he ▸ htr
  | cancelledAll hat htr _ => exact Recorded.handed hat.2 htr
  | reported _ hctx htr _ => exact Recorded.handed hctx htr

theorem record_step {io io' : IOManager} (hs : io.Sound) {op : Op} (h : Registering io op io') :
    Recorded io (io.record op io') io' := by
  obtain ⟨hstep, hsched⟩ := h
  have hc := step_cases hs.wellFormed hstep
  cases op with
  | addEvent fd event caller cb ok =>
      obtain ⟨⟨r, io''⟩, hadd, rfl⟩ := map_ok hstep
      exact record_addEvent hs hsched hadd
  | delEvent fd event ok =>
      obtain ⟨⟨r, io''⟩, hdel, rfl⟩ := map_ok hstep
      exact record_delEvent hdel
  | cancelEvent => exact record_change hc nofun nofun
  | cancelAll => exact record_change hc nofun nofun
  | idle => exact record_change hc nofun nofun

theorem contextPtr_ne_assert {io : IOManager} {fd : Fd} {a : Assertion} :
    io.contextPtr fd ≠ .error (.assertFailed a) := by
  unfold contextPtr
  split <;> nofun

theorem deref_ne_assert {io : IOManager} {p : FdPtr} {a : Assertion} :
    io.deref p ≠ .error (.assertFailed a) := by
  unfold deref
  split <;> nofun

theorem newHandler_ne_contextEmpty {caller : Caller} {cb : Option Callback} :
    newHandler caller cb ≠ .error (.assertFailed .addContextEmpty) := by
  unfold newHandler
  split
  · nofun
  · split <;> nofun

theorem addEventLocked_ne_contextEmpty {io : IOManager} (hwf : io.WellFormed) {p : FdPtr} {fd : Fd}
    {event : Event} {caller : Caller} {cb : Option Callback} {ok : Bool} :
    io.addEventLocked p fd event caller cb ok ≠ .error (.assertFailed .addContextEmpty) := by
  intro h
  unfold addEventLocked at h
  rcases bind_error h with h | ⟨ctx, hctx, h⟩
  · exact deref_ne_assert h
  · cases hhas : ctx.events.has event with
    | true =>
        rw [hhas, if_pos rfl] at h
        cases h
    | false =>
        -- the bit is clear, so the slot is empty
        have hempty := (EventContext.isEmpty_iff _).mpr ((hwf.at (deref_ok hctx)).empty hhas)
        rw [hhas, if_neg Bool.false_ne_true] at h
        dsimp only at h
        split at h
        · cases h
        · rw [if_pos hempty] at h
          rcases bind_error h with h | ⟨ec, -, h⟩
          · exact newHandler_ne_contextEmpty h
          · cases h

/-- `addEvent` never finds a handler in the slot of an unregistered event. -/
theorem addEvent_ne_contextEmpty {io : IOManager} (hwf : io.WellFormed) (fd : Fd) (event : Event)
    (caller : Caller) (cb : Option Callback) (ok : Bool) :
    io.addEvent fd event caller cb ok ≠ .error (.assertFailed .addContextEmpty) := by
  intro h
  unfold addEvent at h
  rcases bind_error h with h | ⟨found, -, h⟩
  · unfold addEventFind at h
    split at h
    · exact contextPtr_ne_assert (map_error h)
    · cases h
  · cases found with
    | some p => exact addEventLocked_ne_contextEmpty hwf h
    | none =>
        rcases bind_error h with h | ⟨⟨p, io₁⟩, hgrow, h⟩
        · exact contextPtr_ne_assert (map_error h)
        · obtain ⟨p', -, heq⟩ := map_ok hgrow
          cases heq
          exact addEventLocked_ne_contextEmpty (hwf.contextResize _) h

theorem construct_stored (notifyFd : Fd) : (construct notifyFd).stored = [] := by
  apply List.flatMap_eq_nil_iff.mpr
  intro p _
  unfold construct
  rw [contextResize_storedAt]
  rfl

/-- Along every run, each accepted handler is stored, or was handed once and in order to the queue of
its own scheduler, or was discarded.  A slot whose bit is clear is empty, so `addEvent` never asserts
on it. -/
theorem handlers_conserved {notifyFd : Fd} {ops : List Op} {io : IOManager}
    (h : Run Registering (construct notifyFd) ops io) :
    let L := (construct notifyFd).ledger ops
    L.accepted.Perm (L.handed ++ L.discarded ++ io.stored) ∧
      (∀ sched, io.queues sched = entriesFor sched (L.handed.map (·.handler))) ∧
      (∀ en ∈ L.accepted, en.handler.scheduler.isSome = true) ∧
      (∀ ctx ∈ io.heap, ∀ e, ctx.events.has e = false → ctx.getContext e = .empty) ∧
      ∀ fd event caller cb ok,
        io.addEvent fd event caller cb ok ≠ .error (.assertFailed .addContextEmpty) := by
  have hrec : Recorded (construct notifyFd) ((construct notifyFd).ledger ops) io := by
    refine totals_relates (I := Sound) (R := Registering) (fun s a s' hs ↦ ?_)
      (fun s a s' hs hstep ↦ hs.step hstep.1) .empty (fun _ _ _ _ _ ↦ .add)
      (fun s a s' hs hstep ↦ record_step hs hstep) h (construct_sound notifyFd)
    have hstep : s.step a = .ok s' := hs.1
    rw [hstep]
    rfl
  have hsound : io.Sound := run_sound h.unguard
  refine ⟨?_, ?_, hrec.withScheduler, ?_, addEvent_ne_contextEmpty hsound.wellFormed⟩
  · have hbal := hrec.balanced
    unfold Balances at hbal
    rwa [construct_stored, List.nil_append] at hbal
  · exact hrec.queued
  · intro ctx hctx e he
    exact (hsound.wellFormed ctx hctx).empty he

/-- One handler of each kind: handed over by `cancelEvent`, discarded, and still stored. -/
theorem handlers_conserved_mixed : ∃ io,
    Run Registering (construct 4)
      [.addEvent 5 .read someCaller (some 7) true, .addEvent 6 .write someCaller none true,
        .addEvent 40 .read someCaller (some 8) true, .cancelEvent 5 .read true,
        .delEvent 6 .write true] io ∧
      let L := (construct 4).ledger
        [.addEvent 5 .read someCaller (some 7) true, .addEvent 6 .write someCaller none true,
          .addEvent 40 .read someCaller (some 8) true, .cancelEvent 5 .read true,
          .delEvent 6 .write true]
      L.accepted.Perm (L.handed ++ L.discarded ++ io.stored) ∧
        (∀ sched, io.queues sched = entriesFor sched (L.handed.map (·.handler))) ∧
        (∀ en ∈ L.accepted, en.handler.scheduler.isSome = true) ∧
        (∀ ctx ∈ io.heap, ∀ e, ctx.events.has e = false → ctx.getContext e = .empty) ∧
        ∀ fd event caller cb ok,
          io.addEvent fd event caller cb ok ≠ .error (.assertFailed .addContextEmpty) := by
  obtain ⟨io, hrun, -⟩ := exists_checked_run (R := Registering) fromScheduler
    (fun s a s' hs hok ↦ ⟨hs, hok⟩) (construct 4)
    [.addEvent 5 .read someCaller (some 7) true, .addEvent 6 .write someCaller none true,
      .addEvent 40 .read someCaller (some 8) true, .cancelEvent 5 .read true,
      .delEvent 6 .write true] (P := fun _ ↦ true) (by decide +kernel)
  exact ⟨io, hrun, handlers_conserved hrun⟩

end Server.IOManager
