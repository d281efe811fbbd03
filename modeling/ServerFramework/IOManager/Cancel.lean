import ServerFramework.IOManager.Handlers
import ServerFramework.IOManager.Kernel

/-!
# Cancelling one event and cancelling all

`cancelEvent` ends with the assertion of `cancelAll`, that nothing is registered on the descriptor any
more.  So it serves a descriptor with one registered direction, and fails where both are registered.
-/

namespace Server.IOManager

open Fallible Runs

/-- The call reaches `epoll_ctl`, which succeeds. -/
def Accepted (io : IOManager) (op : Op) : Prop :=
  ∃ c, io.ctlCall op = some c ∧ (c.result io.epoll).isSome = true

/-- `e` is the only event registered on the descriptor, by a thread that had a scheduler. -/
def Sole (ctx : FdContext) (e : Event) : Prop :=
  (∀ e', ctx.events.has e' = true → e' = e) ∧ (ctx.getContext e).scheduler.isSome = true

/-- What cancelling `e` on `fd` is for: its handler is queued, and nothing else is touched. -/
structure Cancels (io io' : IOManager) (fd : Fd) (e : Event) : Prop where
  queued : ∃ sched, ((io.context fd).getContext e).scheduler = some sched ∧
    io'.queues = Function.update io.queues sched
      (io.queues sched ++ [((io.context fd).getContext e).handler.entry])
  pending : io'.pendingEventCount = io.pendingEventCount - 1#64
  gone : (io'.context fd).events.has e = false ∧ (io'.context fd).getContext e = .empty
  others : ∀ k e', (k, e') ≠ (fd.val, e) →
    (io'.context k).events.has e' = (io.context k).events.has e' ∧
      (io'.context k).getContext e' = (io.context k).getContext e'

/-- The same state, up to the order of the queues. -/
structure UpToOrder (io io' : IOManager) : Prop where
  pending : io'.pendingEventCount = io.pendingEventCount
  table : io'.fdContexts = io.fdContexts
  heap : io'.heap = io.heap
  notify : io'.notifyFd = io.notifyFd
  kernel : io'.epoll = io.epoll
  queues : ∀ sched, (io'.queues sched).Perm (io.queues sched)

theorem UpToOrder.refl (io : IOManager) : UpToOrder io io :=
  ⟨rfl, rfl, rfl, rfl, rfl, fun _ ↦ .refl _⟩

/-- The arguments of a call to `cancelEvent`, and whether the kernel lets it through. -/
structure CancelArgs where
  fd : Fd
  event : Event
  ok : Bool
  deriving DecidableEq, Repr

def cancel (io : IOManager) (args : CancelArgs) : Except Fault (Bool × IOManager) :=
  io.cancelEvent args.fd args.event args.ok

def CancelArgs.op (args : CancelArgs) : Op := .cancelEvent args.fd args.event args.ok

/-- One call after another, and their answers. -/
def cancelBoth (io : IOManager) (a b : CancelArgs) : Except Fault (Bool × Bool × IOManager) := do
  let (r, io) ← io.cancel a
  let (r', io) ← io.cancel b
  .ok (r, r', io)

/-- `cancelEvent` for each event of a list. -/
def cancelEach (io : IOManager) (fd : Fd) : List Event → Except Fault IOManager
  | [] => .ok io
  | e :: es => do
    let (_, io) ← io.cancelEvent fd e true
    io.cancelEach fd es

/-! ## One call -/

theorem tableSize_le (io : IOManager) : io.tableSize ≤ io.fdContexts.length := by
  unfold tableSize
  rw [BitVec.toInt_ofNat', Int.bmod_def]
  split <;> omega

theorem At.of_lt {io : IOManager} (hf : io.TableFilled) {fd : Fd} (hlt : (fd : Int) < io.tableSize) :
    ∃ p ctx, io.At fd p ctx := by
  have hle := tableSize_le io
  obtain ⟨p, ctx, hp, hctx, -⟩ := hf fd (by omega)
  exact ⟨p, ctx, hp, hctx⟩

section

variable {io io' : IOManager} {fd : Fd} {e : Event} {ok : Bool} {p : FdPtr} {ctx : FdContext}
  {epoll : Interest}

/-- A call that is let through, and what it finds. -/
theorem accepted_cancelEvent_iff :
    io.Accepted (.cancelEvent fd e ok) ↔ (fd : Int) < io.tableSize ∧ ∃ p ctx epoll, io.At fd p ctx ∧
      ctx.events.has e = true ∧ epollCtl io.epoll (removalOp (ctx.events.erase e)) fd
        ⟨EPOLLET ||| (ctx.events.erase e).word, .ptr p⟩ ok = some epoll := by
  constructor
  · rintro ⟨c, hc, hsome⟩
    simp only [ctlCall] at hc
    split at hc
    · cases hc
    · rename_i hlt
      obtain ⟨⟨p, ctx⟩, hat, hc⟩ := Option.bind_eq_some_iff.mp hc
      dsimp only at hc
      split at hc
      · rename_i hhas
        cases hc
        obtain ⟨epoll, hepoll⟩ := Option.isSome_iff_exists.mp hsome
        exact ⟨Int.not_le.mp hlt, p, ctx, epoll, located_eq_some_iff.mp hat, hhas, hepoll⟩
      · cases hc
  · rintro ⟨hlt, p, ctx, epoll, hat, hhas, hepoll⟩
    refine ⟨removalCall p fd (ctx.events.erase e) ok, ?_, ?_⟩
    · have hloc : io.located fd = some (p, ctx) := located_eq_some_iff.mpr hat
      simp only [ctlCall, if_neg (Int.not_le.mpr hlt), hloc, Option.bind_eq_bind, Option.bind_some,
        hhas, if_true]
    · show (epollCtl io.epoll (removalOp (ctx.events.erase e)) fd
        ⟨EPOLLET ||| (ctx.events.erase e).word, .ptr p⟩ ok).isSome = true
      rw [hepoll]
      rfl

theorem cancelEvent_refused (hf : io.TableFilled) (h : ¬ io.Accepted (.cancelEvent fd e ok)) :
    io.cancelEvent fd e ok = .ok (false, io) := by
  rw [accepted_cancelEvent_iff] at h
  unfold cancelEvent
  split
  · rfl
  · rename_i hlt
    have hlt := Int.not_le.mp hlt
    obtain ⟨p, ctx, hat⟩ := At.of_lt hf hlt
    rw [hat.contextPtr]
    simp only [bind, Except.bind, deref_eq hat.2]
    split
    -- the event is registered, so the kernel must have refused the call
    · rename_i hhas
      split
      · rfl
      · rename_i epoll hepoll
        exact absurd ⟨hlt, p, ctx, epoll, hat, hhas, hepoll⟩ h
    · rfl

theorem erase_word_eq_none_iff {s : EventSet} :
    (s.erase e).word = NONE ↔ ∀ e', s.has e' = true → e' = e := by
  have hne := (s.erase e).word_ne_none_iff
  constructor
  · intro h e' hhas
    by_contra hother
    apply hne.mpr _ h
    refine ⟨e', ?_⟩
    rw [EventSet.has_erase, hhas, decide_eq_true (Ne.symm hother), Bool.and_true]
  · intro h
    by_contra hword
    obtain ⟨e', he'⟩ := hne.mp hword
    rw [EventSet.has_erase, Bool.and_eq_true, decide_eq_true_eq] at he'
    exact he'.2 (h e' he'.1).symm

/-- A call that is let through, for the only event of the descriptor. -/
theorem cancelEvent_sole (hwf : io.WellFormed) (hlt : (fd : Int) < io.tableSize)
    (hat : io.At fd p ctx) (hhas : ctx.events.has e = true) (hsole : Sole ctx e)
    (hepoll : epollCtl io.epoll (removalOp (ctx.events.erase e)) fd
      ⟨EPOLLET ||| (ctx.events.erase e).word, .ptr p⟩ ok = some epoll) :
    io.cancelEvent fd e ok = .ok (true, io.delivered p ctx [e] epoll) := by
  obtain ⟨sched, hsched⟩ := Option.isSome_iff_exists.mp hsole.2
  have hnone : (ctx.clear e).events.word = NONE := by
    rw [FdContext.clear_events, erase_word_eq_none_iff]
    exact hsole.1
  unfold cancelEvent
  rw [if_neg (Int.not_le.mpr hlt), hat.contextPtr]
  simp only [bind, Except.bind, deref_eq hat.2, hhas, if_true, hepoll,
    FdContext.triggerEvent_registered (hwf.at hat.2) hhas hsched, hnone]
  rfl

/-- The trigger and the assertion pass only there. -/
theorem sole_of_cancelEvent (hwf : io.WellFormed) (hacc : io.Accepted (.cancelEvent fd e ok))
    {r : Bool} (h : io.cancelEvent fd e ok = .ok (r, io')) : Sole (io.context fd) e := by
  obtain ⟨hlt, p, ctx, epoll, hat, hhas, hepoll⟩ := accepted_cancelEvent_iff.mp hacc
  rw [hat.context_eq]
  unfold cancelEvent at h
  rw [if_neg (Int.not_le.mpr hlt), hat.contextPtr] at h
  simp only [bind, Except.bind, deref_eq hat.2, hhas, if_true, hepoll] at h
  split at h
  -- the trigger needs a scheduler, and the assertion after it that no event is left
  · cases h
  · rename_i x htrig
    obtain ⟨ctx', queues⟩ := x
    obtain ⟨htr, rfl, -⟩ := FdContext.triggerEvent_ok (hwf.at hat.2) htrig
    split at h
    · rename_i hnone
      rw [FdContext.clear_events, erase_word_eq_none_iff] at hnone
      exact ⟨hnone, htr.2⟩
    · cases h

/-- What the call leaves: the context of `fd` without `e`, every other context as it was. -/
theorem context_delivered (hf : io.TableFilled) (hat : io.At fd p ctx) (es : List Event) (k : Nat) :
    (io.delivered p ctx es epoll).context k =
      if k = fd.val then ctx.clearAll es else io.context k := by
  have htable : (io.delivered p ctx es epoll).fdContexts = io.fdContexts := rfl
  have hheap : (io.delivered p ctx es epoll).heap = io.heap.set p (ctx.clearAll es) := rfl
  exact context_rewritten hf hat.1 hat.2 htable hheap k

theorem delivered_cancels (hf : io.TableFilled) (hat : io.At fd p ctx) (hsole : Sole ctx e) :
    Cancels io (io.delivered p ctx [e] epoll) fd e := by
  obtain ⟨sched, hsched⟩ := Option.isSome_iff_exists.mp hsole.2
  have hctx := hat.context_eq
  have hpush : (io.delivered p ctx [e] epoll).queues =
      FdContext.push io.queues (ctx.getContext e).handler := rfl
  refine ⟨⟨sched, ?_, ?_⟩, rfl, ?_, fun k e' hne ↦ ?_⟩
  · rw [hctx, hsched]
  · rw [hctx, hpush]
    unfold FdContext.push EventContext.handler
    rw [hsched]
  · rw [context_delivered hf hat, if_pos rfl, FdContext.has_clearAll, FdContext.getContext_clearAll]
    simp
  · rw [context_delivered hf hat]
    split
    · rename_i hk
      subst hk
      have hother : e' ∉ [e] := by
        rw [List.mem_singleton]
        rintro rfl
        exact hne rfl
      rw [FdContext.has_clearAll, FdContext.getContext_clearAll, if_neg hother,
        decide_eq_true hother, Bool.and_true, hctx]
      exact ⟨rfl, rfl⟩
    · exact ⟨rfl, rfl⟩

/-- A call that is let through does what it is for exactly when its event is the only one. -/
theorem cancels_iff_sole (hs : io.Sound) (hacc : io.Accepted (.cancelEvent fd e ok)) :
    (∃ io', io.cancelEvent fd e ok = .ok (true, io') ∧ Cancels io io' fd e) ↔
      Sole (io.context fd) e := by
  constructor
  · rintro ⟨io', h, -⟩
    exact sole_of_cancelEvent hs.wellFormed hacc h
  · intro hsole
    obtain ⟨hlt, p, ctx, epoll, hat, hhas, hepoll⟩ := accepted_cancelEvent_iff.mp hacc
    rw [hat.context_eq] at hsole
    exact ⟨_, cancelEvent_sole hs.wellFormed hlt hat hhas hsole hepoll,
      delivered_cancels hs.filled hat hsole⟩

end

/-! ## Two calls -/

section

variable {io : IOManager} {a b : CancelArgs}

/-- Whether a call is let through depends on its own descriptor only. -/
theorem accepted_iff (hf : io.TableFilled) : io.Accepted a.op ↔
    (a.fd : Int) < io.tableSize ∧ (io.context a.fd).events.has a.event = true ∧ a.ok = true ∧
      io.epoll a.fd ≠ none := by
  unfold CancelArgs.op
  rw [accepted_cancelEvent_iff]
  constructor
  · rintro ⟨hlt, p, ctx, epoll, hat, hhas, hepoll⟩
    have hok : a.ok = true := by
      by_contra hrefused
      unfold epollCtl at hepoll
      rw [if_neg hrefused] at hepoll
      cases hepoll
    rw [hok] at hepoll
    have hsome := epollCtl_isSome_iff.mp (Option.isSome_of_mem hepoll)
    rw [hat.context_eq]
    exact ⟨hlt, hhas, hok, fun hnone ↦ removalOp_ne_add (hsome.mpr hnone)⟩
  · rintro ⟨hlt, hhas, hok, hne⟩
    obtain ⟨p, ctx, hat⟩ := At.of_lt hf hlt
    rw [hat.context_eq] at hhas
    have hsome : (epollCtl io.epoll (removalOp (ctx.events.erase a.event)) a.fd
        ⟨EPOLLET ||| (ctx.events.erase a.event).word, .ptr p⟩ true).isSome = true :=
      epollCtl_isSome_iff.mpr ⟨fun h ↦ absurd h removalOp_ne_add, fun h ↦ absurd h hne⟩
    obtain ⟨epoll, hepoll⟩ := Option.isSome_iff_exists.mp hsome
    rw [hok]
    exact ⟨hlt, p, ctx, epoll, hat, hhas, hepoll⟩

/-- A call that does what it is for, and the state it leaves. -/
structure Delivers (io : IOManager) (a : CancelArgs) (p : FdPtr) (ctx : FdContext) : Prop where
  lt : (a.fd : Int) < io.tableSize
  at_ : io.At a.fd p ctx
  has : ctx.events.has a.event = true
  sole : Sole ctx a.event
  ok : a.ok = true
  kernel : io.epoll a.fd ≠ none

/-- The interest set after the last event of a descriptor is removed. -/
def dropped (io : IOManager) (a : CancelArgs) : Interest := Function.update io.epoll a.fd none

theorem Delivers.cancel (hwf : io.WellFormed) {p : FdPtr} {ctx : FdContext}
    (h : io.Delivers a p ctx) :
    io.cancel a = .ok (true, io.delivered p ctx [a.event] (io.dropped a)) := by
  -- no event is left, so the kernel is told to forget the descriptor
  have hdel : removalOp (ctx.events.erase a.event) = .del :=
    removalOp_eq_del_iff.mpr (erase_word_eq_none_iff.mpr h.sole.1)
  apply cancelEvent_sole hwf h.lt h.at_ h.has h.sole
  have hsome : (epollCtl io.epoll (removalOp (ctx.events.erase a.event)) a.fd
      ⟨EPOLLET ||| (ctx.events.erase a.event).word, .ptr p⟩ true).isSome = true :=
    epollCtl_isSome_iff.mpr ⟨fun hadd ↦ absurd hadd removalOp_ne_add, fun hnone ↦ absurd hnone h.kernel⟩
  obtain ⟨epoll, hepoll⟩ := Option.isSome_iff_exists.mp hsome
  rw [h.ok, hepoll, epollCtl_eq_update hepoll, if_pos hdel]
  rfl

theorem Delivers.sound (hs : io.Sound) {p : FdPtr} {ctx : FdContext} (h : io.Delivers a p ctx) :
    (io.delivered p ctx [a.event] (io.dropped a)).Sound :=
  hs.delivered h.at_.2

theorem delivers_or_refused (hf : io.TableFilled)
    (h : io.Accepted a.op → Sole (io.context a.fd) a.event) :
    (∃ p ctx, io.Delivers a p ctx) ∨ ¬ io.Accepted a.op := by
  -- a call that the kernel refuses changes nothing, whatever else is registered
  by_cases hacc : io.Accepted a.op
  · left
    have hsole := h hacc
    obtain ⟨hlt, hhas, hok, hne⟩ := (accepted_iff hf).mp hacc
    obtain ⟨p, ctx, hat⟩ := At.of_lt hf hlt
    rw [hat.context_eq] at hsole hhas
    exact ⟨p, ctx, hlt, hat, hhas, hsole, hok, hne⟩
  · exact .inr hacc

/-- Two descriptors do not share a context. -/
theorem At.ptr_ne (hf : io.TableFilled) {fd fd' : Fd} {p q : FdPtr} {ctx ctx' : FdContext}
    (h : io.At fd p ctx) (h' : io.At fd' q ctx') (hne : fd ≠ fd') : p ≠ q := by
  rintro rfl
  apply hne
  apply Fin.ext
  rw [← hf.fd_eq h.1 h.2, ← hf.fd_eq h'.1 h.2]

theorem Delivers.after (hf : io.TableFilled) {p q : FdPtr} {ctx ctx' : FdContext}
    (hb : io.Delivers b q ctx') (ha : io.Delivers a p ctx) (hne : b.fd ≠ a.fd) :
    (io.delivered p ctx [a.event] (io.dropped a)).Delivers b q ctx' where
  lt := hb.lt
  at_ := by
    refine ⟨hb.at_.1, ?_⟩
    show (io.heap.set p _)[q]? = some ctx'
    rw [List.getElem?_set_ne (ha.at_.ptr_ne hf hb.at_ hne.symm)]
    exact hb.at_.2
  has := hb.has
  sole := hb.sole
  ok := hb.ok
  kernel := by
    show Function.update io.epoll a.fd none b.fd ≠ none
    rw [Function.update_of_ne fun h ↦ hne (Fin.ext h)]
    exact hb.kernel

theorem Delivers.still_refused (hf : io.TableFilled) {p : FdPtr} {ctx : FdContext}
    (ha : io.Delivers a p ctx) (hf' : (io.delivered p ctx [a.event] (io.dropped a)).TableFilled)
    (hb : ¬ io.Accepted b.op) : ¬ (io.delivered p ctx [a.event] (io.dropped a)).Accepted b.op := by
  rw [accepted_iff hf']
  rw [accepted_iff hf] at hb
  rintro ⟨hlt, hhas, hok, hne⟩
  rw [context_delivered hf ha.at_] at hhas
  by_cases hfd : b.fd = a.fd
  · -- nothing is left on this descriptor
    rw [hfd, if_pos rfl, FdContext.has_clearAll, Bool.and_eq_true, decide_eq_true_eq] at hhas
    exact hhas.2 (List.mem_singleton.mpr (ha.sole.1 _ hhas.1))
  · have hfd' : b.fd.val ≠ a.fd.val := fun h ↦ hfd (Fin.ext h)
    rw [if_neg hfd'] at hhas
    apply hb
    refine ⟨hlt, hhas, hok, fun hnone ↦ hne ?_⟩
    show Function.update io.epoll a.fd none b.fd = none
    rw [Function.update_of_ne hfd']
    exact hnone

/-- Two calls commute: in either order both return what they return alone, and the states differ in
the order of the queues at most. -/
def Commute (io : IOManager) (a b : CancelArgs) : Prop :=
  ∃ ra rb io₁ io₂, io.cancelBoth a b = .ok (ra, rb, io₁) ∧ io.cancelBoth b a = .ok (rb, ra, io₂) ∧
    UpToOrder io₁ io₂

theorem Commute.symm (h : io.Commute a b) : io.Commute b a := by
  obtain ⟨ra, rb, io₁, io₂, h₁, h₂, ho⟩ := h
  exact ⟨rb, ra, io₂, io₁, h₂, h₁, ho.pending.symm, ho.table.symm, ho.heap.symm, ho.notify.symm,
    ho.kernel.symm, fun s ↦ (ho.queues s).symm⟩

theorem cancelBoth_eq {io' io'' : IOManager} {r r' : Bool} (h : io.cancel a = .ok (r, io'))
    (h' : io'.cancel b = .ok (r', io'')) : io.cancelBoth a b = .ok (r, r', io'') := by
  unfold cancelBoth
  rw [h]
  simp only [bind, Except.bind, h']

theorem pushAll_swap (queues : Queues) (h h' : Handler) (sched : SchedulerId) :
    (FdContext.pushAll (FdContext.pushAll queues [h']) [h] sched).Perm
      (FdContext.pushAll (FdContext.pushAll queues [h]) [h'] sched) := by
  simp only [pushAll_apply, List.append_assoc]
  exact List.perm_append_comm.append_left _

theorem Delivers.commute (hs : io.Sound) {p q : FdPtr} {ctx ctx' : FdContext}
    (ha : io.Delivers a p ctx) (hb : io.Delivers b q ctx') (hne : a.fd ≠ b.fd) :
    io.Commute a b := by
  have hab := (hb.after hs.filled ha hne.symm).cancel (ha.sound hs).wellFormed
  have hba := (ha.after hs.filled hb hne).cancel (hb.sound hs).wellFormed
  refine ⟨true, true, _, _, cancelBoth_eq (ha.cancel hs.wellFormed) hab,
    cancelBoth_eq (hb.cancel hs.wellFormed) hba, ?_⟩
  refine ⟨rfl, rfl, ?_, rfl, ?_, pushAll_swap _ _ _⟩
  -- the two contexts, and the two entries of the interest set, are different ones
  · exact List.set_comm _ _ (hb.at_.ptr_ne hs.filled ha.at_ hne.symm)
  · exact Function.update_comm (fun h ↦ hne.symm (Fin.ext h)) _ _ _

theorem Delivers.commute_refused (hs : io.Sound) {p : FdPtr} {ctx : FdContext}
    (ha : io.Delivers a p ctx) (hb : ¬ io.Accepted b.op) : io.Commute a b := by
  have hafter := (ha.sound hs).filled
  have hfirst := ha.cancel hs.wellFormed
  have hlast := cancelEvent_refused hafter (ha.still_refused hs.filled hafter hb)
  exact ⟨true, false, _, _, cancelBoth_eq hfirst hlast,
    cancelBoth_eq (cancelEvent_refused hs.filled hb) hfirst, .refl _⟩

theorem sole_of_cancel (hwf : io.WellFormed) {r : Bool} {io' : IOManager}
    (h : io.cancel a = .ok (r, io')) (hacc : io.Accepted a.op) :
    Sole (io.context a.fd) a.event :=
  sole_of_cancelEvent hwf hacc h

theorem cancelBoth_ok {io' : IOManager} {r r' : Bool} (h : io.cancelBoth a b = .ok (r, r', io')) :
    ∃ io₁, io.cancel a = .ok (r, io₁) := by
  unfold cancelBoth at h
  obtain ⟨⟨r₁, io₁⟩, ha, h⟩ := bind_ok h
  obtain ⟨⟨r₂, io₂⟩, -, h⟩ := bind_ok h
  cases h
  exact ⟨io₁, ha⟩

/-- Two calls for different events commute exactly when each of them that is let through does what it
is for. -/
theorem commute_iff (hs : io.Sound) (hne : (a.fd, a.event) ≠ (b.fd, b.event)) :
    io.Commute a b ↔ (io.Accepted a.op → Sole (io.context a.fd) a.event) ∧
      (io.Accepted b.op → Sole (io.context b.fd) b.event) := by
  constructor
  · rintro ⟨ra, rb, io₁, io₂, h₁, h₂, -⟩
    obtain ⟨io₁, ha⟩ := cancelBoth_ok h₁
    obtain ⟨io₂, hb⟩ := cancelBoth_ok h₂
    exact ⟨sole_of_cancel hs.wellFormed ha, sole_of_cancel hs.wellFormed hb⟩
  · rintro ⟨ha, hb⟩
    rcases delivers_or_refused hs.filled ha with ⟨p, ctx, ha⟩ | ha
    · rcases delivers_or_refused hs.filled hb with ⟨q, ctx', hb⟩ | hb
      · apply ha.commute hs hb
        -- on one descriptor only one of the two events is registered
        intro hfd
        obtain ⟨-, rfl⟩ := ha.at_.unique (hfd ▸ hb.at_)
        exact hne (Prod.ext hfd (hb.sole.1 _ ha.has))
      · exact ha.commute_refused hs hb
    · rcases delivers_or_refused hs.filled hb with ⟨q, ctx', hb⟩ | hb
      · exact (hb.commute_refused hs ha).symm
      · exact ⟨false, false, _, _,
          cancelBoth_eq (cancelEvent_refused hs.filled ha) (cancelEvent_refused hs.filled hb),
          cancelBoth_eq (cancelEvent_refused hs.filled hb) (cancelEvent_refused hs.filled ha), .refl _⟩

end

/-! ## `cancelAll` -/

section

variable {io : IOManager} {fd : Fd} {p : FdPtr} {ctx : FdContext}

/-- `cancelAll` and `cancelEvent` for each registered event, in any order, have the same effect. -/
def AllAsEach (io : IOManager) (fd : Fd) : Prop :=
  ∃ r io', io.cancelAll fd true = .ok (r, io') ∧
    ∀ es, es.Perm (io.context fd).events.toList →
      ∃ io'', io.cancelEach fd es = .ok io'' ∧ UpToOrder io' io''

theorem cancelAll_sole (hwf : io.WellFormed) {e : Event} (hlt : (fd : Int) < io.tableSize)
    (hat : io.At fd p ctx) (hhas : ctx.events.has e = true) (hsole : Sole ctx e)
    (hkernel : io.epoll fd ≠ none) :
    io.cancelAll fd true =
      .ok (true, io.delivered p ctx [e] (Function.update io.epoll fd none)) := by
  obtain ⟨sched, hsched⟩ := Option.isSome_iff_exists.mp hsole.2
  have hne : ctx.events.word ≠ 0#32 := ctx.events.word_ne_none_iff.mpr ⟨e, hhas⟩
  have hsome : (epollCtl io.epoll .del fd ⟨0#32, .ptr p⟩ true).isSome = true :=
    epollCtl_isSome_iff.mpr ⟨nofun, fun h ↦ absurd h hkernel⟩
  obtain ⟨epoll, hepoll⟩ := Option.isSome_iff_exists.mp hsome
  have hdropped : epoll = Function.update io.epoll fd none := epollCtl_eq_update hepoll
  have hnone : (ctx.clear e).events.word = NONE := by
    rw [FdContext.clear_events, erase_word_eq_none_iff]
    exact hsole.1
  have htrig := triggerIf_true (hwf.at hat.2) ⟨hhas, hsole.2⟩ io.queues io.pendingEventCount
  have hother : ∀ e', e' ≠ e → ctx.events.has e' = false := by
    intro e' he'
    by_contra hreg
    exact he' (hsole.1 e' ((Bool.not_eq_false _).mp hreg))
  unfold cancelAll
  rw [if_neg (Int.not_lt.mpr (Int.le_of_lt hlt)), hat.contextPtr]
  simp only [bind, Except.bind, deref_eq hat.2, if_neg hne, hepoll]
  -- the other direction is not registered, so its trigger is skipped
  cases e with
  | read =>
      have hwrite : (ctx.clear .read).events.has .write = false := by
        rw [FdContext.clear_events, EventSet.has_erase, hother .write (by decide), Bool.false_and]
      simp only [hhas, htrig, hwrite]
      simp only [triggerIf, Bool.false_eq_true, if_false, hnone, if_true, hdropped]
      rfl
  | write =>
      have hread : ctx.events.has .read = false := hother .read (by decide)
      have hskip : triggerIf false .read (ctx, io.queues, io.pendingEventCount) =
          .ok (ctx, io.queues, io.pendingEventCount) := rfl
      simp only [hread, hskip, hhas, htrig, hnone, if_true, hdropped]
      rfl

theorem cancelAll_nothing (hf : io.TableFilled) (hsize : (fd : Int) ≠ io.tableSize)
    (h : (fd : Int) < io.tableSize → (io.context fd).events.word = NONE) :
    io.cancelAll fd true = .ok (false, io) := by
  unfold cancelAll
  split
  · rfl
  · rename_i hle
    have hlt : (fd : Int) < io.tableSize := by omega
    obtain ⟨p, ctx, hat⟩ := At.of_lt hf hlt
    have hnone : ctx.events.word = 0#32 := by
      rw [← hat.context_eq]
      exact h hlt
    rw [hat.contextPtr]
    simp only [bind, Except.bind, deref_eq hat.2, hnone, if_true]

/-- One past the end of a table whose size fits an `int`, `cancelAll` reads out of bounds. -/
theorem cancelAll_at_size {ok : Bool} (hlen : io.fdContexts.length ≤ fd.val)
    (hsize : ¬ io.tableSize < fd) : io.cancelAll fd ok = .error .outOfBounds := by
  have hread : io.contextPtr fd = .error .outOfBounds := by
    unfold contextPtr
    rw [List.getElem?_eq_none hlen]
  unfold cancelAll
  rw [if_neg hsize, hread]
  rfl

theorem cancelEach_cons_ok {e : Event} {es : List Event} {io' : IOManager}
    (h : io.cancelEach fd (e :: es) = .ok io') : ∃ r io₁, io.cancelEvent fd e true = .ok (r, io₁) := by
  unfold cancelEach at h
  obtain ⟨⟨r, io₁⟩, hfirst, -⟩ := bind_ok h
  exact ⟨r, io₁, hfirst⟩

theorem toList_eq_singleton {s : EventSet} {e : Event} (hhas : s.has e = true)
    (h : ∀ e', s.has e' = true → e' = e) : s.toList = [e] := by
  have hmem : ∀ e', e' ∈ s.toList ↔ e' = e := by
    intro e'
    rw [EventSet.mem_toList]
    exact ⟨h e', fun heq ↦ heq ▸ hhas⟩
  exact List.perm_singleton.mp
    ((List.perm_ext_iff_of_nodup (chosen_nodup _ _) (List.nodup_singleton e)).mpr fun e' ↦
      (hmem e').trans List.mem_singleton.symm)

theorem toList_eq_nil_iff {s : EventSet} : s.toList = [] ↔ s.word = NONE := by
  rw [List.eq_nil_iff_forall_not_mem, ← not_iff_not, ← ne_eq (s.word), s.word_ne_none_iff]
  simp

/-- `cancelAll` agrees with one `cancelEvent` for each registered event exactly when there is one such
event at most, and the descriptor is not one past the table. -/
theorem allAsEach_iff (hs : io.Sound) (hlen : io.fdContexts.length < 2 ^ 32)
    (hacc : ∀ e, (io.context fd).events.has e = true → io.Accepted (.cancelEvent fd e true)) :
    io.AllAsEach fd ↔ (fd : Int) ≠ io.tableSize ∧
      ∀ e, (io.context fd).events.has e = true → Sole (io.context fd) e := by
  constructor
  · rintro ⟨r, io', hall, heach⟩
    refine ⟨fun hsize ↦ ?_, fun e he ↦ ?_⟩
    · -- a size that the cast makes negative is the index of no descriptor
      have hin : io.fdContexts.length ≤ fd.val := by
        unfold tableSize at hsize
        rw [BitVec.toInt_ofNat', Int.bmod_def] at hsize
        split at hsize <;> omega
      rw [cancelAll_at_size hin (by omega)] at hall
      cases hall
    · have hperm : (e :: (io.context fd).events.toList.erase e).Perm (io.context fd).events.toList :=
        (List.perm_cons_erase (by simpa using he)).symm
      obtain ⟨io'', hcalls, -⟩ := heach _ hperm
      obtain ⟨r', io₁, hfirst⟩ := cancelEach_cons_ok hcalls
      exact sole_of_cancelEvent hs.wellFormed (hacc e he) hfirst
  · rintro ⟨hsize, hsole⟩
    -- with one event `cancelAll` does what the single `cancelEvent` does
    by_cases hnone : (io.context fd).events.word = NONE
    · refine ⟨false, io, cancelAll_nothing hs.filled hsize fun _ ↦ hnone, fun es hes ↦ ?_⟩
      rw [toList_eq_nil_iff.mpr hnone] at hes
      rw [List.Perm.eq_nil hes]
      exact ⟨io, rfl, .refl io⟩
    · obtain ⟨e, he⟩ := (EventSet.word_ne_none_iff _).mp hnone
      have hone := hsole e he
      obtain ⟨hlt, -, -, hkernel⟩ := (accepted_iff (a := ⟨fd, e, true⟩) hs.filled).mp (hacc e he)
      obtain ⟨p, ctx, hat⟩ := At.of_lt hs.filled hlt
      have hctx := hat.context_eq
      rw [hctx] at he hone
      have hdel : io.Delivers ⟨fd, e, true⟩ p ctx := ⟨hlt, hat, he, hone, rfl, hkernel⟩
      refine ⟨true, _, cancelAll_sole hs.wellFormed hlt hat he hone hkernel, fun es hes ↦ ?_⟩
      rw [hctx, toList_eq_singleton he hone.1, List.perm_singleton] at hes
      subst hes
      refine ⟨_, ?_, .refl _⟩
      have hcall : io.cancelEvent fd e true = _ := hdel.cancel hs.wellFormed
      unfold cancelEach
      rw [hcall]
      rfl

end

/-! ## In every reachable state -/

theorem Change.length_lt {io io' : IOManager} {op : Op} (h : Change io op io')
    (hlen : io.fdContexts.length < 2 ^ 32) : io'.fdContexts.length < 2 ^ 32 := by
  have hentered : ∀ {fd : Fd} {io₁ : IOManager}, Entered io fd io₁ →
      io₁.fdContexts.length < 2 ^ 32 := by
    intro fd io₁ he
    rcases he with ⟨rfl, -⟩ | ⟨rfl, -⟩
    · exact hlen
    · rw [contextResize_length]
      unfold growSize
      omega
  cases h with
  | same => exact hlen
  | grown he => exact hentered he
  | @registered io₁ _ _ _ _ _ _ _ _ _ he =>
      show io₁.fdContexts.length < 2 ^ 32
      exact hentered he
  | discarded | cancelled | cancelledAll | reported => exact hlen

theorem run_length_lt {notifyFd : Fd} {ops : List Op} {io : IOManager}
    (h : Run Step (construct notifyFd) ops io) : io.fdContexts.length < 2 ^ 32 := by
  have hboth := h.invariant (I := fun io ↦ io.Sound ∧ io.fdContexts.length < 2 ^ 32)
    (fun _ _ _ hs hstep ↦
      ⟨hs.1.step hstep, (step_cases hs.1.wellFormed hstep).length_lt hs.2⟩)
    ⟨construct_sound notifyFd, by unfold construct; rw [contextResize_length]; omega⟩
  exact hboth.2

/-- In every reachable state a cancellation that the kernel lets through queues its handler and
touches nothing else, two cancellations commute, and `cancelAll` amounts to cancelling each event,
where the events that are cancelled are the only ones of their descriptors. -/
theorem cancellations_independent {notifyFd : Fd} {ops : List Op} {io : IOManager}
    (h : Run Step (construct notifyFd) ops io) :
    (∀ (fd : Fd) e ok, io.Accepted (.cancelEvent fd e ok) →
      ((∃ io', io.cancelEvent fd e ok = .ok (true, io') ∧ Cancels io io' fd e) ↔
        Sole (io.context fd) e)) ∧
    (∀ a b : CancelArgs, (a.fd, a.event) ≠ (b.fd, b.event) →
      (io.Commute a b ↔ (io.Accepted a.op → Sole (io.context a.fd) a.event) ∧
        (io.Accepted b.op → Sole (io.context b.fd) b.event))) ∧
    ∀ fd : Fd, (∀ e, (io.context fd).events.has e = true → io.Accepted (.cancelEvent fd e true)) →
      (io.AllAsEach fd ↔ (fd : Int) ≠ io.tableSize ∧
        ∀ e, (io.context fd).events.has e = true → Sole (io.context fd) e) := by
  have hs := run_sound h
  exact ⟨fun fd e ok ↦ cancels_iff_sole hs, fun a b ↦ commute_iff hs,
    fun fd ↦ allAsEach_iff hs (run_length_lt h)⟩

/-- `READ` registered on one descriptor, and both directions on another. -/
def threeEvents : List Op :=
  [.addEvent 5 .read someCaller (some 7) true, .addEvent 6 .read someCaller (some 8) true,
    .addEvent 6 .write someCaller none true]

instance (ctx : FdContext) (e : Event) : Decidable (Sole ctx e) :=
  decidable_of_iff ((∀ e' ∈ [Event.read, .write], ctx.events.has e' = true → e' = e) ∧
    (ctx.getContext e).scheduler.isSome = true)
    (and_congr_left' ⟨fun h e' ↦ h e' (by cases e' <;> simp), fun h e' _ ↦ h e'⟩)

theorem cancellations_independent_three : ∃ io, Run Step (construct 4) threeEvents io ∧
    (∀ (fd : Fd) e ok, io.Accepted (.cancelEvent fd e ok) →
      ((∃ io', io.cancelEvent fd e ok = .ok (true, io') ∧ Cancels io io' fd e) ↔
        Sole (io.context fd) e)) ∧
    (∀ a b : CancelArgs, (a.fd, a.event) ≠ (b.fd, b.event) →
      (io.Commute a b ↔ (io.Accepted a.op → Sole (io.context a.fd) a.event) ∧
        (io.Accepted b.op → Sole (io.context b.fd) b.event))) ∧
    ∀ fd : Fd, (∀ e, (io.context fd).events.has e = true → io.Accepted (.cancelEvent fd e true)) →
      (io.AllAsEach fd ↔ (fd : Int) ≠ io.tableSize ∧
        ∀ e, (io.context fd).events.has e = true → Sole (io.context fd) e) := by
  obtain ⟨io, hrun, -⟩ := exists_checked_run (R := Step) (fun _ _ ↦ true) (fun _ _ _ hs _ ↦ hs)
    (construct 4) threeEvents (P := fun _ ↦ true) (by decide +kernel)
  exact ⟨io, hrun, cancellations_independent hrun⟩

/-- With both directions registered, `cancelEvent` of one of them fails its assertion although the
kernel let the call through. -/
theorem cancelEvent_not_independent : ∃ io, Run Step (construct 4) threeEvents io ∧
    io.Accepted (.cancelEvent 6 .read true) ∧
    io.cancelEvent 6 .read true = .error (.assertFailed .cancelEventNone) := by
  obtain ⟨io, hrun, hP⟩ := exists_checked_run (R := Step) (fun _ _ ↦ true) (fun _ _ _ hs _ ↦ hs)
    (construct 4) threeEvents
    (P := fun io ↦ decide ((∃ c ∈ (io.ctlCall (.cancelEvent 6 .read true)).toList,
        (c.result io.epoll).isSome = true) ∧
      (match io.cancelEvent 6 .read true with
        | .error f => some f
        | .ok _ => none) = some (.assertFailed .cancelEventNone))) (by decide +kernel)
  obtain ⟨⟨c, hc, hsome⟩, hfault⟩ := of_decide_eq_true hP
  refine ⟨io, hrun, ⟨c, Option.mem_toList.mp hc, hsome⟩, ?_⟩
  split at hfault
  · rename_i f hf
    rw [hf]
    cases hfault
    rfl
  · cases hfault

end Server.IOManager
