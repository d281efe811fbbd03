import ServerFramework.IOManager.Steps
import ServerFramework.Library.Counter

/-!
# The pending-event count

`IOManager::stopped` relies on `m_pendingEventCount` being the number of registered events.  Four of
the five paths that change either side change both.  `delEvent` decrements the count of an fd on which
the named event is not registered, because its guard tests `events | event`.
-/

namespace Server.IOManager

open Runs Counter

/-- The number of bits set over all contexts. -/
def registeredCount (io : IOManager) : Nat := (io.heap.map fun ctx ↦ ctx.events.count).sum

/-- A `delEvent` of an event that is not registered, which `epoll_ctl` nevertheless lets through. -/
def strayDel (io : IOManager) : Op → Bool
  | .delEvent fd event ok =>
    match io.contextPtr fd with
    | .error _ => false
    | .ok p =>
      match io.heap[p]? with
      | none => false
      | some ctx =>
        let newEvent := ctx.events.erase event
        !ctx.events.has event &&
          (epollCtl io.epoll (removalOp newEvent) fd ⟨EPOLLET ||| newEvent.word, .ptr p⟩ ok).isSome
  | _ => false

/-- The fd is inside the table, or `addEvent` grows the table to a size that still fits an `int`. -/
def inTable (io : IOManager) : Op → Bool
  | .addEvent fd _ _ _ _ => decide (fd.val < io.fdContexts.length ∨ growSize fd < 2 ^ 31)
  | .delEvent fd _ _ => decide (fd.val < io.fdContexts.length)
  | .cancelEvent fd _ _ => decide (fd.val < io.fdContexts.length)
  | .cancelAll fd _ => decide (fd.val < io.fdContexts.length)
  | .idle _ _ => true

/-- The count is exact, and the table is small enough that it cannot overflow. -/
structure Counted (io : IOManager) : Prop where
  holds : Holds io.pendingEventCount io.registeredCount
  compact : io.heap.length = io.fdContexts.length
  small : io.fdContexts.length < 2 ^ 31

theorem registeredCount_set {io : IOManager} (io' : IOManager) {p : FdPtr} {ctx ctx' : FdContext}
    (hctx : io.heap[p]? = some ctx) (hheap : io'.heap = io.heap.set p ctx') :
    io'.registeredCount + ctx.events.count = io.registeredCount + ctx'.events.count := by
  unfold registeredCount
  rw [hheap]
  exact sum_map_set _ _ _ _ _ hctx

theorem registeredCount_contextResize (io : IOManager) (size : Nat) :
    (io.contextResize size).registeredCount = io.registeredCount := by
  obtain ⟨news, hn, hnew⟩ := contextResize_heap io size
  unfold registeredCount
  rw [hn, List.map_append, List.sum_append, (sum_map_eq_zero_iff _ news).mpr, Nat.add_zero]
  intro c hc
  obtain ⟨j, rfl⟩ := hnew c hc
  exact EventSet.count_none

theorem registeredCount_le (io : IOManager) : io.registeredCount ≤ io.heap.length * 2 :=
  sum_map_le _ 2 (fun ctx ↦ ctx.events.count_le) _

/-- No event is registered exactly when the sum is zero. -/
theorem registeredCount_eq_zero_iff (io : IOManager) :
    io.registeredCount = 0 ↔ ∀ ctx ∈ io.heap, ctx.events.word = NONE := by
  unfold registeredCount
  rw [sum_map_eq_zero_iff]
  exact forall₂_congr fun ctx _ ↦ ctx.events.count_eq_zero_iff

theorem count_clearAll (ctx : FdContext) (es : List Event) (hnd : es.Nodup)
    (hes : ∀ e ∈ es, ctx.events.has e = true) :
    (ctx.clearAll es).events.count + es.length = ctx.events.count := by
  unfold FdContext.clearAll
  induction es generalizing ctx with
  | nil => rfl
  | cons x xs ih =>
      obtain ⟨hx, hnd⟩ := List.nodup_cons.mp hnd
      have hxs : ∀ e ∈ xs, (ctx.clear x).events.has e = true := by
        intro e he
        rw [FdContext.clear_events, EventSet.has_erase, hes e (List.mem_cons_of_mem _ he)]
        simp only [Bool.true_and, decide_eq_true_eq]
        rintro rfl
        exact hx he
      -- each event of the list is still registered when its turn comes
      have hrec := ih (ctx.clear x) hnd hxs
      have hcount := EventSet.count_erase _ _ (hes x List.mem_cons_self)
      rw [FdContext.clear_events] at hrec
      rw [List.foldl_cons, List.length_cons]
      omega

/-! ## What each change does to the count -/

theorem Counted.entered {io io₁ : IOManager} (h : io.Counted) (hf : io.TableFilled) {fd : Fd}
    (hr : fd.val < io.fdContexts.length ∨ growSize fd < 2 ^ 31) (he : Entered io fd io₁) :
    io₁.Counted := by
  rcases he with ⟨rfl, -⟩ | ⟨rfl, hge⟩
  · exact h
  · rw [tableSize_eq h.small] at hge
    -- the table was no longer than the fd, so this resize does not shrink it
    have hlen : io.fdContexts.length ≤ fd.val := by exact_mod_cast hge
    have hgrow := lt_growSize_succ fd
    refine ⟨?_, ?_, ?_⟩
    · rw [registeredCount_contextResize]
      exact h.holds
    · rw [contextResize_heap_length hf.count_none (by omega), contextResize_length, h.compact]
      omega
    · rw [contextResize_length]
      omega

theorem Counted.registered {io : IOManager} (h : io.Counted) {p : FdPtr} {ctx : FdContext}
    {event : Event} {ec : EventContext} {epoll : Interest} (hctx : io.heap[p]? = some ctx)
    (hhas : ctx.events.has event = false) : (io.registered p ctx event ec epoll).Counted := by
  have hset := registeredCount_set (io.registered p ctx event ec epoll) hctx rfl
  rw [FdContext.register_events, EventSet.count_insert _ _ hhas] at hset
  -- two events for each entry of the table are far from the end of a 64-bit counter
  have hle := registeredCount_le io
  have hc := h.compact
  have hs := h.small
  refine ⟨?_, ?_, hs⟩
  · rw [show (io.registered p ctx event ec epoll).registeredCount = io.registeredCount + 1 by omega]
    exact h.holds.add_one (by omega)
  · exact List.length_set.trans hc

theorem Counted.delivered {io : IOManager} (h : io.Counted) {p : FdPtr} {ctx : FdContext}
    {es : List Event} {epoll : Interest} (hctx : io.heap[p]? = some ctx) (hnd : es.Nodup)
    (hes : ∀ e ∈ es, ctx.Triggerable e) : (io.delivered p ctx es epoll).Counted := by
  have hset := registeredCount_set (io.delivered p ctx es epoll) hctx rfl
  have hclear := count_clearAll ctx es hnd fun e he ↦ (hes e he).1
  refine ⟨?_, List.length_set.trans h.compact, h.small⟩
  apply Holds.sub
  rw [show (io.delivered p ctx es epoll).registeredCount + es.length = io.registeredCount by omega]
  exact h.holds

theorem Counted.discarded {io : IOManager} (h : io.Counted) {p : FdPtr} {ctx : FdContext}
    {event : Event} {epoll : Interest} (hctx : io.heap[p]? = some ctx)
    (hhas : ctx.events.has event = true) : (io.discarded p ctx event epoll).Counted := by
  have hset := registeredCount_set (io.discarded p ctx event epoll) hctx rfl
  rw [FdContext.clear_events] at hset
  have hcount := EventSet.count_erase _ _ hhas
  refine ⟨?_, List.length_set.trans h.compact, h.small⟩
  apply Holds.sub_one
  rw [show (io.discarded p ctx event epoll).registeredCount + 1 = io.registeredCount by omega]
  exact h.holds

/-- Dropping an event that is not registered lowers the count and nothing else. -/
theorem stray_not_counted {io : IOManager} (h : io.Counted) {p : FdPtr} {ctx : FdContext}
    {event : Event} {epoll : Interest} (hctx : io.heap[p]? = some ctx)
    (hhas : ctx.events.has event = false) : ¬ (io.discarded p ctx event epoll).Counted := by
  intro h'
  have hset := registeredCount_set (io.discarded p ctx event epoll) hctx rfl
  rw [FdContext.clear_events, EventSet.erase_of_not_has _ _ hhas] at hset
  have hholds := h'.holds
  rw [Nat.add_right_cancel hset] at hholds
  exact h.holds.sub_one_ne hholds

theorem strayDel_iff {io : IOManager} {fd : Fd} {event : Event} {ok : Bool} :
    io.strayDel (.delEvent fd event ok) = true ↔ ∃ p ctx epoll, io.At fd p ctx ∧
      ctx.events.has event = false ∧ epollCtl io.epoll (removalOp (ctx.events.erase event)) fd
        ⟨EPOLLET ||| (ctx.events.erase event).word, .ptr p⟩ ok = some epoll := by
  constructor
  · intro h
    simp only [strayDel] at h
    split at h
    · cases h
    · rename_i p hp
      split at h
      · cases h
      · rename_i ctx hctx
        rw [Bool.and_eq_true, Bool.not_eq_true'] at h
        obtain ⟨epoll, hepoll⟩ := Option.isSome_iff_exists.mp h.2
        exact ⟨p, ctx, epoll, ⟨contextPtr_ok hp, hctx⟩, h.1, hepoll⟩
  · rintro ⟨p, ctx, epoll, hat, hhas, hepoll⟩
    simp only [strayDel, hat.contextPtr, hat.2, hhas, hepoll, Bool.not_false, Option.isSome_some,
      Bool.and_self]

/-- A step inside the table that is no stray `delEvent` keeps the count exact. -/
theorem Counted.step {io io' : IOManager} (h : io.Counted) (hs : io.Sound) {op : Op}
    (hin : io.inTable op = true) (hstray : io.strayDel op = false) (hstep : Step io op io') :
    io'.Counted := by
  cases step_cases hs.wellFormed hstep with
  | same => exact h
  | grown he => exact h.entered hs.filled (of_decide_eq_true hin) he
  | registered he hat hhas hempty hec hepoll =>
      exact (h.entered hs.filled (of_decide_eq_true hin) he).registered hat.2 hhas
  | discarded hat hepoll =>
      -- if the event was not registered this was a stray call
      apply h.discarded hat.2
      by_contra hhas
      rw [strayDel_iff.mpr ⟨_, _, _, hat, Bool.not_eq_true _ ▸ hhas, hepoll⟩] at hstray
      cases hstray
  | cancelled hat htr hepoll => exact h.delivered hat.2 (List.nodup_singleton _) (by simpa using htr)
  | cancelledAll hat htr hepoll => exact h.delivered hat.2 (chosen_nodup _ _) htr
  | reported hdata hctx htr hepoll => exact h.delivered hctx (chosen_nodup _ _) htr

/-- A stray `delEvent` never keeps it exact. -/
theorem Counted.not_step {io io' : IOManager} (h : io.Counted) {op : Op}
    (hin : io.inTable op = true) (hstray : io.strayDel op = true) (hstep : Step io op io') :
    ¬ io'.Counted := by
  cases op with
  | delEvent fd event ok =>
      obtain ⟨p, ctx, epoll, hat, hhas, hepoll⟩ := strayDel_iff.mp hstray
      have hlt : (fd : Int) < io.tableSize := by
        rw [tableSize_eq h.small]
        exact_mod_cast of_decide_eq_true hin
      change (·.2) <$> io.delEvent fd event ok = .ok io' at hstep
      rw [delEvent_eq hlt hat hepoll] at hstep
      cases hstep
      exact stray_not_counted h hat.2 hhas
  | _ => cases hstray

theorem construct_counted (notifyFd : Fd) : (construct notifyFd).Counted := by
  refine ⟨?_, ?_, ?_⟩
  · show Holds 0#64 _
    unfold construct
    rw [registeredCount_contextResize]
    exact Holds.zero
  · unfold construct
    rw [contextResize_heap_length (by rfl) (by simp), contextResize_length]
    rfl
  · unfold construct
    rw [contextResize_length]
    decide

/-- The steps of a run in which the count can be trusted. -/
def Tracked : IOManager → Op → IOManager → Prop :=
  Guarded Step fun io op ↦ io.inTable op = true ∧ io.strayDel op = false

theorem run_counted {notifyFd : Fd} {ops : List Op} {io : IOManager}
    (h : Run Tracked (construct notifyFd) ops io) : io.Sound ∧ io.Counted := by
  refine h.invariant (I := fun io ↦ io.Sound ∧ io.Counted) (fun s op s' hs hstep ↦ ?_)
    ⟨construct_sound notifyFd, construct_counted notifyFd⟩
  exact ⟨hs.1.step hstep.1, hs.2.step hs.1 hstep.2.1 hstep.2.2 hstep.1⟩

/-- In every state reached without a stray `delEvent`, the count is the number of registered events;
so it is zero exactly when no event is registered. -/
theorem pendingEventCount_exact {notifyFd : Fd} {ops : List Op} {io : IOManager}
    (h : Run Tracked (construct notifyFd) ops io) :
    io.pendingEventCount.toNat = io.registeredCount ∧
      (io.pendingEventCount = 0#64 ↔ ∀ ctx ∈ io.heap, ctx.events.word = NONE) := by
  obtain ⟨-, hc⟩ := run_counted h
  exact ⟨hc.holds, hc.holds.eq_zero_iff.trans (registeredCount_eq_zero_iff io)⟩

/-- Both directions of one fd, the growth of the table, a refused call, and three ways to remove. -/
theorem pendingEventCount_exact_mixed : ∃ io,
    Run Tracked (construct 4)
      [.addEvent 5 .read someCaller (some 7) true, .addEvent 5 .write someCaller none true,
        .addEvent 40 .read someCaller (some 8) true, .delEvent 6 .write true,
        .delEvent 5 .write false, .delEvent 5 .write true,
        .idle ⟨EPOLLIN, .ptr 5⟩ true] io ∧
      (io.pendingEventCount.toNat = io.registeredCount ∧
        (io.pendingEventCount = 0#64 ↔ ∀ ctx ∈ io.heap, ctx.events.word = NONE)) := by
  obtain ⟨io, hrun, -⟩ := exists_checked_run (R := Tracked)
    (fun io op ↦ io.inTable op && !io.strayDel op)
    (fun s a s' hs hok ↦ ⟨hs, by rwa [Bool.and_eq_true, Bool.not_eq_true'] at hok⟩) (construct 4)
    [.addEvent 5 .read someCaller (some 7) true, .addEvent 5 .write someCaller none true,
      .addEvent 40 .read someCaller (some 8) true, .delEvent 6 .write true,
      .delEvent 5 .write false, .delEvent 5 .write true,
      .idle ⟨EPOLLIN, .ptr 5⟩ true] (P := fun _ ↦ true) (by decide +kernel)
  exact ⟨io, hrun, pendingEventCount_exact hrun⟩

/-- With only `READ` registered, deleting `WRITE` brings the count to zero while `READ` stays. -/
theorem strayDel_drifts : ∃ io,
    Run (Guarded Step fun io op ↦ io.inTable op = true) (construct 4)
      [.addEvent 5 .read someCaller (some 7) true, .delEvent 5 .write true] io ∧
      io.pendingEventCount = 0#64 ∧ io.registeredCount = 1 := by
  obtain ⟨io, hrun, hP⟩ := exists_checked_run
    (R := Guarded Step fun io op ↦ io.inTable op = true) inTable
    (fun s a s' hs hok ↦ ⟨hs, hok⟩) (construct 4)
    [.addEvent 5 .read someCaller (some 7) true, .delEvent 5 .write true]
    (P := fun io ↦ io.pendingEventCount == 0#64 && io.registeredCount == 1) (by decide +kernel)
  rw [Bool.and_eq_true, beq_iff_eq, beq_iff_eq] at hP
  exact ⟨io, hrun, hP⟩

end Server.IOManager
