import ServerFramework.IOManager.Table
import ServerFramework.Library.Runs

/-!
# What a step can do

Every step that returns is one of six changes of the state.  The invariants of the manager are proved
from this list alone.
-/

namespace Server.IOManager

open Fallible Runs

/-- The state in which `addEvent` enters the lock of the context: the table may have grown. -/
def Entered (io : IOManager) (fd : Fd) (io₁ : IOManager) : Prop :=
  io₁ = io ∧ (fd : Int) < io.tableSize ∨
    io₁ = io.contextResize (growSize fd) ∧ io.tableSize ≤ fd

inductive Change : IOManager → Op → IOManager → Prop where
  /-- A call that found nothing to do, or that the kernel refused. -/
  | same (io : IOManager) (op : Op) : Change io op io
  /-- An `addEvent` that the kernel refused, after it grew the table. -/
  | grown {io io₁ : IOManager} {fd : Fd} {event : Event} {caller : Caller} {cb : Option Callback}
      {ok : Bool} : Entered io fd io₁ → Change io (.addEvent fd event caller cb ok) io₁
  | registered {io io₁ : IOManager} {fd : Fd} {event : Event} {caller : Caller}
      {cb : Option Callback} {ok : Bool} {p : FdPtr} {ctx : FdContext} {ec : EventContext}
      {epoll : Interest} :
      Entered io fd io₁ → io₁.At fd p ctx → ctx.events.has event = false →
      ctx.getContext event = .empty → newHandler caller cb = .ok ec →
      epollCtl io₁.epoll (if ctx.events.word ≠ 0#32 then .mod else .add) fd
        ⟨EPOLLET ||| ctx.events.word ||| event.word, .ptr p⟩ ok = some epoll →
      Change io (.addEvent fd event caller cb ok) (io₁.registered p ctx event ec epoll)
  | discarded {io : IOManager} {fd : Fd} {event : Event} {ok : Bool} {p : FdPtr} {ctx : FdContext}
      {epoll : Interest} :
      io.At fd p ctx →
      epollCtl io.epoll (removalOp (ctx.events.erase event)) fd
        ⟨EPOLLET ||| (ctx.events.erase event).word, .ptr p⟩ ok = some epoll →
      Change io (.delEvent fd event ok) (io.discarded p ctx event epoll)
  | cancelled {io : IOManager} {fd : Fd} {event : Event} {ok : Bool} {p : FdPtr} {ctx : FdContext}
      {epoll : Interest} :
      io.At fd p ctx → ctx.Triggerable event →
      epollCtl io.epoll (removalOp (ctx.events.erase event)) fd
        ⟨EPOLLET ||| (ctx.events.erase event).word, .ptr p⟩ ok = some epoll →
      Change io (.cancelEvent fd event ok) (io.delivered p ctx [event] epoll)
  | cancelledAll {io : IOManager} {fd : Fd} {ok : Bool} {p : FdPtr} {ctx : FdContext}
      {epoll : Interest} :
      io.At fd p ctx → (∀ e ∈ ctx.events.toList, ctx.Triggerable e) →
      epollCtl io.epoll .del fd ⟨0#32, .ptr p⟩ ok = some epoll →
      Change io (.cancelAll fd ok) (io.delivered p ctx ctx.events.toList epoll)
  | reported {io : IOManager} {event : EpollEvent} {ok : Bool} {p : FdPtr} {ctx : FdContext}
      {epoll : Interest} :
      event.data = .ptr p → io.heap[p]? = some ctx →
      (∀ e ∈ (realEvents event.events).toList, ctx.Triggerable e) →
      epollCtl io.epoll (removalOp (ctx.events.diff (realEvents event.events))) ctx.fd
        ⟨EPOLLET ||| (ctx.events.diff (realEvents event.events)).word, .ptr p⟩ ok = some epoll →
      Change io (.idle event ok) (io.delivered p ctx (realEvents event.events).toList epoll)

theorem step_cases {io io' : IOManager} (hwf : io.WellFormed) {op : Op} (h : io.step op = .ok io') :
    Change io op io' := by
  cases op with
  | addEvent fd event caller cb ok =>
      obtain ⟨⟨r, io''⟩, hadd, rfl⟩ := map_ok h
      obtain ⟨p, io₁, henter, hp, hlocked⟩ := addEvent_ok hadd
      rcases addEventLocked_ok hlocked with
        ⟨-, rfl⟩ | ⟨-, ctx, epoll, ec, hctx, hhas, hempty, hec, hepoll, rfl⟩
      · exact .grown henter
      · exact .registered henter ⟨hp, hctx⟩ hhas hempty hec hepoll
  | delEvent fd event ok =>
      obtain ⟨⟨r, io''⟩, hdel, rfl⟩ := map_ok h
      rcases delEvent_ok hdel with ⟨-, rfl⟩ | ⟨-, p, ctx, epoll, hat, hepoll, rfl⟩
      · exact .same _ _
      · exact .discarded hat hepoll
  | cancelEvent fd event ok =>
      obtain ⟨⟨r, io''⟩, hcancel, rfl⟩ := map_ok h
      rcases cancelEvent_ok hwf hcancel with ⟨-, rfl⟩ | ⟨-, p, ctx, epoll, hat, htr, hepoll, rfl⟩
      · exact .same _ _
      · exact .cancelled hat htr hepoll
  | cancelAll fd ok =>
      obtain ⟨⟨r, io''⟩, hcancel, rfl⟩ := map_ok h
      rcases cancelAll_ok hwf hcancel with ⟨-, rfl⟩ | ⟨-, p, ctx, epoll, hat, htr, hepoll, rfl⟩
      · exact .same _ _
      · exact .cancelledAll hat htr hepoll
  | idle event ok =>
      rcases handleReport_ok hwf h with rfl | ⟨p, ctx, epoll, hdata, hctx, htr, hepoll, rfl⟩
      · exact .same _ _
      · exact .reported hdata hctx htr hepoll

/-- One atomic step that returns. -/
def Step (io : IOManager) (op : Op) (io' : IOManager) : Prop := io.step op = .ok io'

/-! ## Wellformed contexts and a filled table, in every reachable state -/

theorem WellFormed.set {io io' : IOManager} (h : io.WellFormed) {p : FdPtr} {ctx : FdContext}
    (hctx : ctx.WellFormed) (hheap : io'.heap = io.heap.set p ctx) : io'.WellFormed := by
  intro c hc
  rw [hheap] at hc
  rcases List.mem_or_eq_of_mem_set hc with hc | rfl
  · exact h c hc
  · exact hctx

theorem WellFormed.contextResize {io : IOManager} (h : io.WellFormed) (size : Nat) :
    (io.contextResize size).WellFormed := by
  obtain ⟨news, hn, hnew⟩ := contextResize_heap io size
  intro c hc
  rw [hn] at hc
  rcases List.mem_append.mp hc with hc | hc
  · exact h c hc
  · obtain ⟨j, rfl⟩ := hnew c hc
    exact FdContext.new_wellFormed j

/-- The two structural invariants together. -/
structure Sound (io : IOManager) : Prop where
  wellFormed : io.WellFormed
  filled : io.TableFilled

theorem Sound.entered {io io₁ : IOManager} (h : io.Sound) {fd : Fd} (he : Entered io fd io₁) :
    io₁.Sound := by
  rcases he with ⟨rfl, -⟩ | ⟨rfl, -⟩
  · exact h
  · exact ⟨h.wellFormed.contextResize _, contextResize_filled h.filled _⟩

theorem Sound.set {io io' : IOManager} (h : io.Sound) {p : FdPtr} {ctx ctx' : FdContext}
    (hctx : io.heap[p]? = some ctx) (hwf : ctx'.WellFormed) (hfd : ctx'.fd = ctx.fd)
    (htable : io'.fdContexts = io.fdContexts) (hheap : io'.heap = io.heap.set p ctx') :
    io'.Sound :=
  ⟨h.wellFormed.set hwf hheap, h.filled.set hctx hfd htable hheap⟩

theorem Sound.delivered {io : IOManager} (h : io.Sound) {p : FdPtr} {ctx : FdContext}
    {es : List Event} {epoll : Interest} (hctx : io.heap[p]? = some ctx) :
    (io.delivered p ctx es epoll).Sound :=
  h.set hctx ((h.wellFormed.at hctx).clearAll _) (FdContext.clearAll_fd _ _) rfl rfl

theorem Sound.change {io io' : IOManager} (h : io.Sound) {op : Op} (hc : Change io op io') :
    io'.Sound := by
  cases hc with
  | same => exact h
  | grown he => exact h.entered he
  | registered he hat hhas hempty hec hepoll =>
      have h₁ := h.entered he
      exact h₁.set hat.2 ((h₁.wellFormed.at hat.2).register _ (newHandler_loaded hec).1)
        (FdContext.register_fd _ _ _) rfl rfl
  | discarded hat hepoll =>
      exact h.set hat.2 ((h.wellFormed.at hat.2).clear _) (FdContext.clear_fd _ _) rfl rfl
  | cancelled hat htr hepoll | cancelledAll hat htr hepoll => exact h.delivered hat.2
  | reported hdata hctx htr hepoll => exact h.delivered hctx

theorem construct_sound (notifyFd : Fd) : (construct notifyFd).Sound := by
  refine ⟨WellFormed.contextResize ?_ 32, construct_filled notifyFd⟩
  intro c hc
  cases hc

theorem Sound.step {io io' : IOManager} (h : io.Sound) {op : Op} (hs : Step io op io') :
    io'.Sound :=
  h.change (step_cases h.wellFormed hs)

/-- A run in which the states satisfy the structural invariants and every step is a `Change`. -/
theorem run_sound {notifyFd : Fd} {ops : List Op} {io : IOManager}
    (h : Run Step (construct notifyFd) ops io) : io.Sound :=
  h.invariant (fun _ _ _ hs hstep ↦ hs.step hstep) (construct_sound notifyFd)

/-! ## Runs on fixed inputs -/

/-- Evaluating the steps of a run shows that it exists. -/
theorem exists_checked_run {R : IOManager → Op → IOManager → Prop} (ok : IOManager → Op → Bool)
    (hR : ∀ s a s', Step s a s' → ok s a = true → R s a s') (io : IOManager) (ops : List Op)
    {P : IOManager → Bool}
    (h : (exec (checked (fun io op ↦ (io.step op).toOption) ok) io ops).map P = some true) :
    ∃ io', Run R io ops io' ∧ P io' = true := by
  exact exists_run _ ok (fun s a s' hs hok ↦ hR s a s' (toOption_eq_some hs) hok) io ops h

/-- A thread that runs a fiber of scheduler 0. -/
def someCaller : Caller := ⟨some 0, 1, .exec⟩

end Server.IOManager
