import ServerFramework.IOManager.Trigger

/-!
# One specification for each operation

What a call that returns did to the state, for every path through it.  Later modules cite these and
never unfold the operations.
-/

namespace Server.IOManager

open Fallible

/-- `m_fdContexts[fd]` is the context `ctx` at `p`. -/
def At (io : IOManager) (fd : Fd) (p : FdPtr) (ctx : FdContext) : Prop :=
  io.fdContexts[fd.val]? = some (some p) ∧ io.heap[p]? = some ctx

theorem contextPtr_ok {io : IOManager} {fd : Fd} {p : FdPtr} (h : io.contextPtr fd = .ok p) :
    io.fdContexts[fd.val]? = some (some p) := by
  unfold contextPtr at h
  split at h
  · cases h
  · cases h
  · rename_i heq
    cases h
    exact heq

theorem deref_ok {io : IOManager} {p : FdPtr} {ctx : FdContext} (h : io.deref p = .ok ctx) :
    io.heap[p]? = some ctx := by
  unfold deref at h
  split at h
  · cases h
  · rename_i heq
    cases h
    exact heq

theorem At.contextPtr {io : IOManager} {fd : Fd} {p : FdPtr} {ctx : FdContext}
    (h : io.At fd p ctx) : io.contextPtr fd = .ok p := by
  simp only [IOManager.contextPtr, h.1]

theorem deref_eq {io : IOManager} {p : FdPtr} {ctx : FdContext} (h : io.heap[p]? = some ctx) :
    io.deref p = .ok ctx := by
  simp only [deref, h]

/-- The events among `READ` and `WRITE` that two conditions choose, in the order of the source. -/
def chosen (read write : Bool) : List Event :=
  (if read then [.read] else []) ++ (if write then [.write] else [])

theorem chosen_nodup (read write : Bool) : (chosen read write).Nodup := by
  cases read <;> cases write <;> decide

/-- The events of a set. -/
def EventSet.toList (s : EventSet) : List Event := chosen (s.has .read) (s.has .write)

@[simp] theorem EventSet.mem_toList (s : EventSet) (e : Event) :
    e ∈ s.toList ↔ s.has e = true := by
  unfold EventSet.toList chosen
  cases e <;> cases s.has .read <;> cases s.has .write <;> simp

/-- Wellformed contexts throughout the heap. -/
def WellFormed (io : IOManager) : Prop := ∀ ctx ∈ io.heap, ctx.WellFormed

theorem WellFormed.at {io : IOManager} (h : io.WellFormed) {p : FdPtr} {ctx : FdContext}
    (hp : io.heap[p]? = some ctx) : ctx.WellFormed :=
  h ctx (List.mem_of_getElem? hp)

/-- `event` of the context at `p` is registered with the handler `ec`. -/
def registered (io : IOManager) (p : FdPtr) (ctx : FdContext) (event : Event) (ec : EventContext)
    (epoll : Interest) : IOManager :=
  { io with
    pendingEventCount := io.pendingEventCount + 1#64
    epoll := epoll
    heap := io.heap.set p (ctx.register event ec) }

/-- `event` of the context at `p` is dropped by `delEvent`. -/
def discarded (io : IOManager) (p : FdPtr) (ctx : FdContext) (event : Event) (epoll : Interest) :
    IOManager :=
  { io with
    pendingEventCount := io.pendingEventCount - 1#64
    epoll := epoll
    heap := io.heap.set p (ctx.clear event) }

/-- Events `es` of the context at `p` are handed to their schedulers. -/
def delivered (io : IOManager) (p : FdPtr) (ctx : FdContext) (es : List Event) (epoll : Interest) :
    IOManager :=
  { io with
    pendingEventCount := io.pendingEventCount - BitVec.ofNat 64 es.length
    epoll := epoll
    heap := io.heap.set p (ctx.clearAll es)
    queues := FdContext.pushAll io.queues (es.map fun e ↦ (ctx.getContext e).handler) }

theorem triggerIf_true {ctx : FdContext} (hwf : ctx.WellFormed) {e : Event}
    (he : ctx.Triggerable e) (queues : Queues) (count : BitVec 64) :
    triggerIf true e (ctx, queues, count) =
      .ok (ctx.clear e, FdContext.push queues (ctx.getContext e).handler, count - 1#64) := by
  obtain ⟨sched, hs⟩ := Option.isSome_iff_exists.mp he.2
  unfold triggerIf
  simp only [if_true, FdContext.triggerEvent_registered hwf he.1 hs]
  rfl

theorem triggerIf_true_ok {ctx : FdContext} (hwf : ctx.WellFormed) {e : Event} {queues : Queues}
    {count : BitVec 64} {st : FdContext × Queues × BitVec 64}
    (h : triggerIf true e (ctx, queues, count) = .ok st) : ctx.Triggerable e := by
  unfold triggerIf at h
  obtain ⟨⟨ctx', queues'⟩, htrig, -⟩ := bind_ok h
  exact (FdContext.triggerEvent_ok hwf htrig).1

theorem triggerable_clear {ctx : FdContext} {e e' : Event} (hne : e ≠ e') :
    (ctx.clear e).Triggerable e' ↔ ctx.Triggerable e' := by
  simp [FdContext.Triggerable, EventSet.has_erase, hne]

/-- The two conditional triggers of `cancelAll` and `idle` when every chosen event can be
triggered. -/
theorem triggerIf_both {ctx : FdContext} (hwf : ctx.WellFormed) {read write : Bool}
    (h : ∀ e ∈ chosen read write, ctx.Triggerable e) (queues : Queues) (count : BitVec 64) :
    (do triggerIf write .write (← triggerIf read .read (ctx, queues, count))) =
      .ok (ctx.clearAll (chosen read write),
        FdContext.pushAll queues ((chosen read write).map fun e ↦ (ctx.getContext e).handler),
        count - BitVec.ofNat 64 (chosen read write).length) := by
  cases read with
  | false =>
      cases write with
      | false =>
          show Except.ok (ctx, queues, count) = Except.ok (ctx, queues, count - 0#64)
          rw [BitVec.sub_zero]
      | true => exact triggerIf_true hwf (h .write (by decide)) queues count
  | true =>
      have hread := triggerIf_true hwf (h .read (by simp [chosen])) queues count
      rw [hread]
      cases write with
      | false => rfl
      | true =>
          -- the first trigger left the slot for `WRITE` alone
          have hw := triggerIf_true (hwf.clear .read)
            ((triggerable_clear (by decide)).mpr (h .write (by decide)))
            (FdContext.push queues (ctx.getContext .read).handler) (count - 1#64)
          apply hw.trans
          rw [BitVec.sub_sub]
          simp only [FdContext.getContext_clear, reduceCtorEq, if_false]
          rfl

/-- If the two conditional triggers return, every chosen event could be triggered. -/
theorem triggerIf_both_ok {ctx : FdContext} (hwf : ctx.WellFormed) {queues : Queues}
    {count : BitVec 64} {read write : Bool} {st st' : FdContext × Queues × BitVec 64}
    (h₁ : triggerIf read .read (ctx, queues, count) = .ok st)
    (h₂ : triggerIf write .write st = .ok st') : ∀ e ∈ chosen read write, ctx.Triggerable e := by
  have hr : read = true → ctx.Triggerable .read := by
    rintro rfl
    exact triggerIf_true_ok hwf h₁
  have hw : write = true → ctx.Triggerable .write := by
    rintro rfl
    cases read with
    | false =>
        cases h₁
        exact triggerIf_true_ok hwf h₂
    | true =>
        rw [triggerIf_true hwf (hr rfl)] at h₁
        cases h₁
        exact (triggerable_clear (by decide)).mp (triggerIf_true_ok (hwf.clear .read) h₂)
  intro e he
  cases e <;> cases read <;> cases write <;> simp [chosen] at he hr hw ⊢ <;> assumption

/-! ## The calls -/

theorem addEventLocked_ok {io io' : IOManager} {p : FdPtr} {fd : Fd} {event : Event}
    {caller : Caller} {cb : Option Callback} {ok : Bool} {r : Int}
    (h : io.addEventLocked p fd event caller cb ok = .ok (r, io')) :
    (r = -1 ∧ io' = io) ∨
      (r = 0 ∧ ∃ ctx epoll ec, io.heap[p]? = some ctx ∧ ctx.events.has event = false ∧
        ctx.getContext event = .empty ∧ newHandler caller cb = .ok ec ∧
        epollCtl io.epoll (if ctx.events.word ≠ 0#32 then .mod else .add) fd
          ⟨EPOLLET ||| ctx.events.word ||| event.word, .ptr p⟩ ok = some epoll ∧
        io' = io.registered p ctx event ec epoll) := by
  unfold addEventLocked at h
  obtain ⟨ctx, hctx, h⟩ := bind_ok h
  cases hhas : ctx.events.has event with
  | true => simp only [hhas, if_true, reduceCtorEq] at h
  | false =>
      simp only [hhas, Bool.false_eq_true, if_false] at h
      split at h
      · cases h
        exact .inl ⟨rfl, rfl⟩
      · rename_i epoll hepoll
        split at h
        · rename_i hempty
          obtain ⟨ec, hec, h⟩ := bind_ok h
          cases h
          exact .inr ⟨rfl, ctx, epoll, ec, deref_ok hctx, hhas,
            (EventContext.isEmpty_iff _).mp hempty, hec, hepoll, rfl⟩
        · cases h

theorem addEvent_ok {io io' : IOManager} {fd : Fd} {event : Event} {caller : Caller}
    {cb : Option Callback} {ok : Bool} {r : Int}
    (h : io.addEvent fd event caller cb ok = .ok (r, io')) :
    ∃ p io₁, (io₁ = io ∧ (fd : Int) < io.tableSize ∨
        io₁ = io.contextResize (growSize fd) ∧ io.tableSize ≤ fd) ∧
      io₁.fdContexts[fd.val]? = some (some p) ∧
      io₁.addEventLocked p fd event caller cb ok = .ok (r, io') := by
  unfold addEvent addEventFind at h
  obtain ⟨found, hfind, h⟩ := bind_ok h
  split at hfind
  · rename_i hlt
    obtain ⟨p, hp, rfl⟩ := map_ok hfind
    exact ⟨p, io, .inl ⟨rfl, hlt⟩, contextPtr_ok hp, h⟩
  · rename_i hge
    cases hfind
    obtain ⟨⟨p, io₁⟩, hgrow, h⟩ := bind_ok h
    obtain ⟨p', hp', heq⟩ := map_ok hgrow
    cases heq
    exact ⟨p, _, .inr ⟨rfl, Int.not_lt.mp hge⟩, contextPtr_ok hp', h⟩

theorem delEvent_ok {io io' : IOManager} {fd : Fd} {event : Event} {ok r : Bool}
    (h : io.delEvent fd event ok = .ok (r, io')) :
    (r = false ∧ io' = io) ∨
      (r = true ∧ ∃ p ctx epoll, io.At fd p ctx ∧
        epollCtl io.epoll (removalOp (ctx.events.erase event)) fd
          ⟨EPOLLET ||| (ctx.events.erase event).word, .ptr p⟩ ok = some epoll ∧
        io' = io.discarded p ctx event epoll) := by
  unfold delEvent at h
  split at h
  · cases h
    exact .inl ⟨rfl, rfl⟩
  · obtain ⟨p, hp, h⟩ := bind_ok h
    obtain ⟨ctx, hctx, h⟩ := bind_ok h
    -- the guard never stops the call
    rw [if_neg (ctx.events.or_word_ne_zero event)] at h
    dsimp only at h
    split at h
    · cases h
      exact .inl ⟨rfl, rfl⟩
    · rename_i epoll hepoll
      cases h
      exact .inr ⟨rfl, p, ctx, epoll, ⟨contextPtr_ok hp, deref_ok hctx⟩, hepoll, rfl⟩

/-- `delEvent` of any event of an fd whose removal the kernel lets through. -/
theorem delEvent_eq {io : IOManager} {fd : Fd} {event : Event} {ok : Bool} {p : FdPtr}
    {ctx : FdContext} {epoll : Interest} (hlt : (fd : Int) < io.tableSize) (hat : io.At fd p ctx)
    (hepoll : epollCtl io.epoll (removalOp (ctx.events.erase event)) fd
      ⟨EPOLLET ||| (ctx.events.erase event).word, .ptr p⟩ ok = some epoll) :
    io.delEvent fd event ok = .ok (true, io.discarded p ctx event epoll) := by
  unfold delEvent
  rw [if_neg (Int.not_le.mpr hlt), hat.contextPtr]
  simp only [bind, Except.bind, deref_eq hat.2, ctx.events.or_word_ne_zero event, if_false, hepoll]
  rfl

theorem cancelEvent_ok {io io' : IOManager} (hwf : io.WellFormed) {fd : Fd} {event : Event}
    {ok r : Bool} (h : io.cancelEvent fd event ok = .ok (r, io')) :
    (r = false ∧ io' = io) ∨
      (r = true ∧ ∃ p ctx epoll, io.At fd p ctx ∧ ctx.Triggerable event ∧
        epollCtl io.epoll (removalOp (ctx.events.erase event)) fd
          ⟨EPOLLET ||| (ctx.events.erase event).word, .ptr p⟩ ok = some epoll ∧
        io' = io.delivered p ctx [event] epoll) := by
  unfold cancelEvent at h
  split at h
  · cases h
    exact .inl ⟨rfl, rfl⟩
  · obtain ⟨p, hp, h⟩ := bind_ok h
    obtain ⟨ctx, hctx, h⟩ := bind_ok h
    split at h
    · dsimp only at h
      split at h
      · cases h
        exact .inl ⟨rfl, rfl⟩
      · rename_i epoll hepoll
        obtain ⟨⟨ctx', queues⟩, htrig, h⟩ := bind_ok h
        obtain ⟨htr, rfl, rfl⟩ := FdContext.triggerEvent_ok (hwf.at (deref_ok hctx)) htrig
        split at h
        · cases h
          exact .inr ⟨rfl, p, ctx, epoll, ⟨contextPtr_ok hp, deref_ok hctx⟩, htr, hepoll, rfl⟩
        · cases h
    · cases h
      exact .inl ⟨rfl, rfl⟩

theorem cancelAll_ok {io io' : IOManager} (hwf : io.WellFormed) {fd : Fd} {ok r : Bool}
    (h : io.cancelAll fd ok = .ok (r, io')) :
    (r = false ∧ io' = io) ∨
      (r = true ∧ ∃ p ctx epoll, io.At fd p ctx ∧
        (∀ e ∈ ctx.events.toList, ctx.Triggerable e) ∧
        epollCtl io.epoll .del fd ⟨0#32, .ptr p⟩ ok = some epoll ∧
        io' = io.delivered p ctx ctx.events.toList epoll) := by
  unfold cancelAll at h
  split at h
  · cases h
    exact .inl ⟨rfl, rfl⟩
  · obtain ⟨p, hp, h⟩ := bind_ok h
    obtain ⟨ctx, hctx, h⟩ := bind_ok h
    have hcwf := hwf.at (deref_ok hctx)
    split at h
    · cases h
      exact .inl ⟨rfl, rfl⟩
    · split at h
      · cases h
        exact .inl ⟨rfl, rfl⟩
      · rename_i epoll hepoll
        obtain ⟨st, hr, h⟩ := bind_ok h
        obtain ⟨⟨ctx', queues, count⟩, hw, h⟩ := bind_ok h
        -- the second condition reads the mask after the first trigger, which left it alone
        have hsame : st.1.events.has .write = ctx.events.has .write := by
          cases hread : ctx.events.has .read with
          | false => rw [hread] at hr; cases hr; rfl
          | true =>
              rw [hread] at hr
              rw [triggerIf_true hcwf (triggerIf_true_ok hcwf hr)] at hr
              cases hr
              simp [EventSet.has_erase]
        rw [hsame] at hw
        have htr := triggerIf_both_ok hcwf hr hw
        have hboth := triggerIf_both hcwf htr io.queues io.pendingEventCount
        rw [hr] at hboth
        cases hw.symm.trans hboth
        dsimp only at h
        split at h
        · cases h
          exact .inr ⟨rfl, p, ctx, epoll, ⟨contextPtr_ok hp, deref_ok hctx⟩, htr, hepoll, rfl⟩
        · cases h

theorem handleReport_ok {io io' : IOManager} (hwf : io.WellFormed) {event : EpollEvent} {ok : Bool}
    (h : io.handleReport event ok = .ok io') :
    io' = io ∨ ∃ p ctx epoll, event.data = .ptr p ∧ io.heap[p]? = some ctx ∧
      (∀ e ∈ (realEvents event.events).toList, ctx.Triggerable e) ∧
      epollCtl io.epoll (removalOp (ctx.events.diff (realEvents event.events))) ctx.fd
        ⟨EPOLLET ||| (ctx.events.diff (realEvents event.events)).word, .ptr p⟩ ok = some epoll ∧
      io' = io.delivered p ctx (realEvents event.events).toList epoll := by
  unfold handleReport at h
  split at h
  · split at h
    · cases h
      exact .inl rfl
    · cases h
  · rename_i p hdata
    obtain ⟨ctx, hctx, h⟩ := bind_ok h
    have hcwf := hwf.at (deref_ok hctx)
    dsimp only at h
    split at h
    · cases h
      exact .inl rfl
    · split at h
      · cases h
        exact .inl rfl
      · rename_i epoll hepoll
        obtain ⟨st, hr, h⟩ := bind_ok h
        obtain ⟨⟨ctx', queues, count⟩, hw, h⟩ := bind_ok h
        have htr := triggerIf_both_ok hcwf hr hw
        have hboth := triggerIf_both hcwf htr io.queues io.pendingEventCount
        rw [hr] at hboth
        cases hw.symm.trans hboth
        cases h
        exact .inr ⟨p, ctx, epoll, hdata, deref_ok hctx, htr, hepoll, rfl⟩

end Server.IOManager
