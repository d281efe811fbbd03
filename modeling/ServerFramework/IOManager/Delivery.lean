import ServerFramework.IOManager.Steps

/-!
# Delivery of what the kernel reports

`idle` handles a batch of reports while other threads go on adding and removing events.  Its guard
asks whether some registered event was reported, and its triggers fire for every reported direction.
The two agree exactly when every direction in the widened report is registered.
-/

namespace Server.IOManager

open Fallible Runs

/-! ## What the kernel can report -/

/-- A successful call registers what it was given, or removes. -/
theorem epollCtl_eq_update {epoll epoll' : Interest} {op : EpollOp} {fd : Nat} {event : EpollEvent}
    {ok : Bool} (h : epollCtl epoll op fd event ok = some epoll') :
    epoll' = Function.update epoll fd (if op = .del then none else some event) := by
  unfold epollCtl at h
  split at h
  · split at h
    all_goals cases h
    all_goals rfl
  · cases h

theorem epollCtl_other {epoll epoll' : Interest} {op : EpollOp} {fd : Nat} {event : EpollEvent}
    {ok : Bool} (h : epollCtl epoll op fd event ok = some epoll') {fd' : Nat} (hne : fd' ≠ fd) :
    epoll' fd' = epoll fd' := by
  rw [epollCtl_eq_update h]
  exact Function.update_of_ne hne _ _

theorem epollCtl_self {epoll epoll' : Interest} {op : EpollOp} {fd : Nat} {event : EpollEvent}
    {ok : Bool} (h : epollCtl epoll op fd event ok = some epoll') :
    epoll' fd = if op = .del then none else some event := by
  rw [epollCtl_eq_update h]
  exact Function.update_self _ _ _

theorem removalOp_eq_del_iff {left : EventSet} : removalOp left = .del ↔ left.word = NONE := by
  unfold removalOp
  show _ ↔ left.word = 0#32
  split
  · rename_i h
    exact ⟨fun _ ↦ h, fun _ ↦ rfl⟩
  · rename_i h
    exact ⟨nofun, fun h' ↦ absurd h' h⟩

/-- The data of a report leads to the notify pipe or to a context. -/
def Locates (io : IOManager) : EpollData → Prop
  | .fd fd => fd = io.notifyFd
  | .ptr p => p < io.heap.length

/-- Everything registered with the kernel leads somewhere. -/
def KernelData (io : IOManager) : Prop := ∀ fd ev, io.epoll fd = some ev → io.Locates ev.data

/-- `epoll_wait` can return this report: it carries the data of a registered descriptor, with
any combination of event bits. -/
def Reported (io : IOManager) (event : EpollEvent) : Prop :=
  ∃ fd ev, io.epoll fd = some ev ∧ event.data = ev.data

/-- The heap has not lost an object, and the notify pipe is the same. -/
def Extends (io io' : IOManager) : Prop :=
  io.heap.length ≤ io'.heap.length ∧ io'.notifyFd = io.notifyFd

theorem Locates.extends {io io' : IOManager} {data : EpollData} (h : io.Locates data)
    (he : io.Extends io') : io'.Locates data := by
  cases data with
  | fd fd => exact Eq.trans h he.2.symm
  | ptr p => exact Nat.lt_of_lt_of_le h he.1

theorem Entered.extends {io io₁ : IOManager} {fd : Fd} (h : Entered io fd io₁) :
    io.Extends io₁ := by
  rcases h with ⟨rfl, -⟩ | ⟨rfl, -⟩
  · exact ⟨Nat.le_refl _, rfl⟩
  · obtain ⟨news, hn, -⟩ := contextResize_heap io (growSize fd)
    refine ⟨?_, rfl⟩
    rw [hn, List.length_append]
    exact Nat.le_add_right _ _

theorem Entered.epoll {io io₁ : IOManager} {fd : Fd} (h : Entered io fd io₁) :
    io₁.epoll = io.epoll := by
  rcases h with ⟨rfl, -⟩ | ⟨rfl, -⟩ <;> rfl

theorem extends_set {io io' : IOManager} {p : FdPtr} {ctx : FdContext}
    (hheap : io'.heap = io.heap.set p ctx) (hnotify : io'.notifyFd = io.notifyFd) :
    io.Extends io' := by
  refine ⟨?_, hnotify⟩
  rw [hheap, List.length_set]

theorem Change.extends {io io' : IOManager} {op : Op} (h : Change io op io') : io.Extends io' := by
  cases h with
  | same => exact ⟨Nat.le_refl _, rfl⟩
  | grown he => exact he.extends
  | registered he hat hhas hempty hec hepoll =>
      have h₁ := he.extends
      refine ⟨h₁.1.trans ?_, h₁.2⟩
      exact (List.length_set).ge
  | discarded | cancelled | cancelledAll | reported => exact extends_set rfl rfl

/-- A call that names a context keeps the kernel's data valid. -/
theorem KernelData.ctl {io io' : IOManager} (h : io.KernelData) (he : io.Extends io') {op : EpollOp}
    {fd : Nat} {w : Word} {p : FdPtr} {ctx : FdContext} {ok : Bool} (hctx : io.heap[p]? = some ctx)
    (hepoll : epollCtl io.epoll op fd ⟨w, .ptr p⟩ ok = some io'.epoll) : io'.KernelData := by
  intro fd' ev hev
  -- the call touches its own descriptor only
  by_cases hfd : fd' = fd
  · subst hfd
    rw [epollCtl_self hepoll] at hev
    split at hev
    · cases hev
    · cases hev
      exact Nat.lt_of_lt_of_le (List.getElem?_eq_some_iff.mp hctx).1 he.1
  · rw [epollCtl_other hepoll hfd] at hev
    exact (h fd' ev hev).extends he

theorem KernelData.entered {io io₁ : IOManager} (h : io.KernelData) {fd : Fd}
    (he : Entered io fd io₁) : io₁.KernelData := by
  intro fd' ev hev
  rw [he.epoll] at hev
  exact (h fd' ev hev).extends he.extends

theorem KernelData.change {io io' : IOManager} (h : io.KernelData) {op : Op}
    (hc : Change io op io') : io'.KernelData := by
  cases hc with
  | same => exact h
  | grown he => exact h.entered he
  | registered he hat hhas hempty hec hepoll =>
      exact (h.entered he).ctl (extends_set rfl rfl) hat.2 hepoll
  | discarded hat hepoll => exact h.ctl (extends_set rfl rfl) hat.2 hepoll
  | cancelled hat htr hepoll | cancelledAll hat htr hepoll =>
      exact h.ctl (extends_set rfl rfl) hat.2 hepoll
  | reported hdata hctx htr hepoll => exact h.ctl (extends_set rfl rfl) hctx hepoll

/-- At first only the notify pipe is registered. -/
theorem construct_epoll {notifyFd : Fd} {fd : Nat} {ev : EpollEvent}
    (h : (construct notifyFd).epoll fd = some ev) : ev.data = .fd notifyFd := by
  change Function.update (fun _ ↦ none) notifyFd.val
    (some ⟨EPOLLIN ||| EPOLLET, .fd notifyFd⟩) fd = some ev at h
  by_cases hfd : fd = notifyFd.val
  · rw [hfd, Function.update_self] at h
    cases h
    rfl
  · rw [Function.update_of_ne hfd] at h
    cases h

theorem construct_kernelData (notifyFd : Fd) : (construct notifyFd).KernelData := by
  intro fd ev hev
  rw [construct_epoll hev]
  rfl

theorem run_kernelData {notifyFd : Fd} {ops : List Op} {io : IOManager}
    (h : Run Step (construct notifyFd) ops io) : io.KernelData := by
  refine (h.invariant (I := fun io ↦ io.Sound ∧ io.KernelData) (fun s op s' hs hstep ↦ ?_)
    ⟨construct_sound notifyFd, construct_kernelData notifyFd⟩).2
  exact ⟨hs.1.step hstep, hs.2.change (step_cases hs.1.wellFormed hstep)⟩

/-! ## One report -/

/-- The events of the context that are both registered and reported, in the order of the source. -/
def hits (ctx : FdContext) (event : EpollEvent) : List Event :=
  (realEvents event.events).toList.filter ctx.events.has

/-- The call that `idle` makes for a report. -/
def reportCtl (io : IOManager) (p : FdPtr) (ctx : FdContext) (event : EpollEvent) (ok : Bool) :
    Option Interest :=
  epollCtl io.epoll (removalOp (ctx.events.diff (realEvents event.events))) ctx.fd
    ⟨EPOLLET ||| (ctx.events.diff (realEvents event.events)).word, .ptr p⟩ ok

/-- Exactly the handlers of `es` left the context at `p`, once each and in order, the kernel goes on
watching for the events that are left, and nothing else changed. -/
structure HandsOver (io io' : IOManager) (p : FdPtr) (ctx : FdContext) (es : List Event) : Prop where
  once : es.Nodup
  hasScheduler : ∀ e ∈ es, (ctx.getContext e).scheduler.isSome = true
  context : ∃ ctx', io'.heap[p]? = some ctx' ∧ ctx'.fd = ctx.fd ∧
    (∀ e, ctx'.events.has e = (ctx.events.has e && decide (e ∉ es))) ∧
    (∀ e, e ∉ es → ctx'.getContext e = ctx.getContext e) ∧
    io'.epoll ctx.fd =
      if ctx'.events.word = NONE then none else some ⟨EPOLLET ||| ctx'.events.word, .ptr p⟩
  otherContexts : ∀ q, q ≠ p → io'.heap[q]? = io.heap[q]?
  otherInterest : ∀ fd, fd ≠ ctx.fd → io'.epoll fd = io.epoll fd
  table : io'.fdContexts = io.fdContexts
  count : io'.pendingEventCount = io.pendingEventCount - BitVec.ofNat 64 es.length
  scheduled : io'.queues = FdContext.pushAll io.queues (es.map fun e ↦ (ctx.getContext e).handler)

/-- What handling a report should do: hand over what is registered and reported, or nothing when
there is no such event or the kernel refuses. -/
def Handled (io : IOManager) (event : EpollEvent) (ok : Bool) : Prop :=
  match event.data with
  | .fd _ => io.handleReport event ok = .ok io
  | .ptr p => ∃ ctx, io.heap[p]? = some ctx ∧
    if hits ctx event = [] ∨ io.reportCtl p ctx event ok = none then
      io.handleReport event ok = .ok io
    else ∃ io', io.handleReport event ok = .ok io' ∧ HandsOver io io' p ctx (hits ctx event)

/-- The report misses, or the kernel refuses, or every direction in the widened report is registered
(by a thread that had a scheduler). -/
def Covered (io : IOManager) (event : EpollEvent) (ok : Bool) : Prop :=
  match event.data with
  | .fd _ => True
  | .ptr p => ∀ ctx, io.heap[p]? = some ctx →
    hits ctx event = [] ∨ io.reportCtl p ctx event ok = none ∨
      ∀ e ∈ (realEvents event.events).toList, ctx.Triggerable e

theorem hits_eq_nil_iff (ctx : FdContext) (event : EpollEvent) :
    hits ctx event = [] ↔ ctx.events.word &&& (realEvents event.events).word = NONE := by
  unfold hits NONE
  rw [List.filter_eq_nil_iff, EventSet.and_word_eq_zero_iff]
  simp only [EventSet.mem_toList, Bool.not_eq_true]
  constructor
  · intro h e hctx
    by_contra hreal
    rw [h e ((Bool.not_eq_false _).mp hreal)] at hctx
    cases hctx
  · intro h e hreal
    by_contra hctx
    rw [h e ((Bool.not_eq_false _).mp hctx)] at hreal
    cases hreal

/-- If every reported direction is registered, all of them are hits. -/
theorem hits_eq {ctx : FdContext} {event : EpollEvent}
    (h : ∀ e ∈ (realEvents event.events).toList, ctx.Triggerable e) :
    hits ctx event = (realEvents event.events).toList :=
  List.filter_eq_self.mpr fun e he ↦ (h e he).1

theorem handleReport_notify {io : IOManager} {event : EpollEvent} {ok : Bool}
    (hdata : event.data = .fd io.notifyFd) : io.handleReport event ok = .ok io := by
  simp only [handleReport, hdata, if_true]

theorem handleReport_missed {io : IOManager} {event : EpollEvent} {ok : Bool} {p : FdPtr}
    {ctx : FdContext} (hdata : event.data = .ptr p) (hctx : io.heap[p]? = some ctx)
    (h : hits ctx event = [] ∨ io.reportCtl p ctx event ok = none) :
    io.handleReport event ok = .ok io := by
  simp only [handleReport, hdata, deref_eq hctx, bind, Except.bind]
  by_cases hmiss : hits ctx event = []
  · rw [if_pos ((hits_eq_nil_iff _ _).mp hmiss)]
  · rw [if_neg (mt (hits_eq_nil_iff _ _).mpr hmiss)]
    have hctl := h.resolve_left hmiss
    unfold reportCtl at hctl
    rw [hctl]

theorem handleReport_hit {io : IOManager} (hwf : io.WellFormed) {event : EpollEvent} {ok : Bool}
    {p : FdPtr} {ctx : FdContext} {epoll : Interest} (hdata : event.data = .ptr p)
    (hctx : io.heap[p]? = some ctx) (hhit : hits ctx event ≠ [])
    (hctl : io.reportCtl p ctx event ok = some epoll)
    (htr : ∀ e ∈ (realEvents event.events).toList, ctx.Triggerable e) :
    io.handleReport event ok =
      .ok (io.delivered p ctx (realEvents event.events).toList epoll) := by
  have hboth := triggerIf_both (hwf.at hctx) htr io.queues io.pendingEventCount
  obtain ⟨st, hr, hw⟩ := bind_ok hboth
  unfold reportCtl at hctl
  simp only [handleReport, hdata, deref_eq hctx, bind, Except.bind]
  rw [if_neg (mt (hits_eq_nil_iff _ _).mpr hhit), hctl]
  simp only [hr, hw]
  rfl

theorem FdContext.clearAll_toList (ctx : FdContext) (es : EventSet) :
    (ctx.clearAll es.toList).events = ctx.events.diff es := by
  apply EventSet.eq_of_has
  intro e
  have hmem : decide (e ∉ es.toList) = !es.has e := by
    simp only [EventSet.mem_toList]
    cases es.has e <;> rfl
  rw [FdContext.has_clearAll, EventSet.has_diff, hmem]

theorem delivered_handsOver {io : IOManager} {p : FdPtr} {ctx : FdContext} {es : List Event}
    {left : EventSet} {ok : Bool} {epoll : Interest} (hctx : io.heap[p]? = some ctx)
    (hnd : es.Nodup) (htr : ∀ e ∈ es, ctx.Triggerable e) (hleft : (ctx.clearAll es).events = left)
    (hepoll : epollCtl io.epoll (removalOp left) ctx.fd ⟨EPOLLET ||| left.word, .ptr p⟩ ok =
      some epoll) : HandsOver io (io.delivered p ctx es epoll) p ctx es where
  once := hnd
  hasScheduler := fun e he ↦ (htr e he).2
  context := by
    refine ⟨ctx.clearAll es, ?_, FdContext.clearAll_fd _ _, FdContext.has_clearAll _ _, ?_, ?_⟩
    · exact List.getElem?_set_self (List.getElem?_eq_some_iff.mp hctx).1
    · intro e he
      rw [FdContext.getContext_clearAll, if_neg he]
    · show epoll ctx.fd = _
      rw [epollCtl_self hepoll, hleft]
      simp only [removalOp_eq_del_iff]
  otherContexts := fun _ hq ↦ List.getElem?_set_ne hq.symm
  otherInterest := fun _ hfd ↦ epollCtl_other hepoll hfd
  table := rfl
  count := rfl
  scheduled := rfl

/-- A report is handled as it should be exactly when it is covered. -/
theorem handled_iff_covered {io : IOManager} (hwf : io.WellFormed) {event : EpollEvent} {ok : Bool}
    (hloc : io.Locates event.data) : io.Handled event ok ↔ io.Covered event ok := by
  unfold Handled Covered
  split
  · rename_i fd hdata
    rw [hdata] at hloc
    obtain rfl : fd = io.notifyFd := hloc
    simp only [handleReport_notify hdata]
  · rename_i p hdata
    rw [hdata] at hloc
    have hctx : io.heap[p]? = some io.heap[p] := List.getElem?_eq_getElem hloc
    generalize io.heap[p] = ctx at hctx
    constructor
    · -- a hit that returns went through both triggers, so every reported direction was registered
      rintro ⟨c, hc, hhandled⟩ c' hc'
      cases hctx.symm.trans hc
      cases hctx.symm.trans hc'
      by_cases hmiss : hits ctx event = [] ∨ io.reportCtl p ctx event ok = none
      · exact hmiss.imp_right .inl
      · rw [if_neg hmiss] at hhandled
        obtain ⟨io', hok, hover⟩ := hhandled
        refine .inr (.inr ?_)
        rcases handleReport_ok hwf hok with rfl | ⟨p', c, epoll, hp', hc, htr, -, -⟩
        · -- a hit that is handed over cannot still be registered
          exfalso
          obtain ⟨e, he⟩ := List.exists_mem_of_ne_nil _ (mt Or.inl hmiss)
          obtain ⟨c', hc', -, hbits, -⟩ := hover.context
          cases hctx.symm.trans hc'
          have hbit := hbits e
          rw [(List.mem_filter.mp he).2, decide_eq_false (not_not.mpr he)] at hbit
          cases hbit
        · cases hdata.symm.trans hp'
          cases hctx.symm.trans hc
          exact htr
    · intro hcovered
      refine ⟨ctx, hctx, ?_⟩
      by_cases hmiss : hits ctx event = [] ∨ io.reportCtl p ctx event ok = none
      · rw [if_pos hmiss]
        exact handleReport_missed hdata hctx hmiss
      · rw [if_neg hmiss]
        obtain ⟨hhit, hctl⟩ := not_or.mp hmiss
        obtain ⟨epoll, hepoll⟩ := Option.ne_none_iff_exists'.mp hctl
        have htr := ((hcovered ctx hctx).resolve_left hhit).resolve_left hctl
        refine ⟨_, handleReport_hit hwf hdata hctx hhit hepoll htr, ?_⟩
        rw [hits_eq htr]
        exact delivered_handsOver hctx (chosen_nodup _ _) htr (FdContext.clearAll_toList _ _) hepoll

/-! ## A whole batch -/

/-- A report of a batch, and what other threads do before it is handled. -/
structure BatchItem where
  others : List Op
  event : EpollEvent
  ok : Bool
  deriving DecidableEq, Repr

/-- Each report of the batch has the property `P` in the state in which it is handled. -/
def EachReport (P : IOManager → EpollEvent → Bool → Prop) : IOManager → List BatchItem → Prop
  | _, [] => True
  | io, item :: items => ∀ io₁, Run Step io item.others io₁ →
    P io₁ item.event item.ok ∧
      ∀ io₂, io₁.handleReport item.event item.ok = .ok io₂ → EachReport P io₂ items

/-- What keeps the reports of a batch meaningful while it is processed. -/
structure Serving (io : IOManager) (items : List BatchItem) : Prop where
  sound : io.Sound
  locates : ∀ item ∈ items, io.Locates item.event.data

theorem Serving.step {io io' : IOManager} {items : List BatchItem} (h : Serving io items) {op : Op}
    (hs : Step io op io') : Serving io' items := by
  have hc := step_cases h.sound.wellFormed hs
  exact ⟨h.sound.change hc, fun item hitem ↦ (h.locates item hitem).extends hc.extends⟩

theorem Serving.run {io io' : IOManager} {items : List BatchItem} (h : Serving io items)
    {ops : List Op} (hr : Run Step io ops io') : Serving io' items :=
  hr.invariant (I := (Serving · items)) (fun _ _ _ hs hstep ↦ hs.step hstep) h

theorem Serving.tail {io : IOManager} {item : BatchItem} {items : List BatchItem}
    (h : Serving io (item :: items)) : Serving io items :=
  ⟨h.sound, fun it hit ↦ h.locates it (List.mem_cons_of_mem _ hit)⟩

theorem each_handled_iff_covered {io : IOManager} {items : List BatchItem} (h : Serving io items) :
    EachReport Handled io items ↔ EachReport Covered io items := by
  induction items generalizing io with
  | nil => exact Iff.rfl
  | cons item items ih =>
      -- what other threads do keeps the later reports meaningful, and so does handling this one
      unfold EachReport
      apply forall₂_congr
      intro io₁ hrun
      have h₁ := h.run hrun
      refine and_congr (handled_iff_covered h₁.sound.wellFormed
        (h₁.locates item List.mem_cons_self)) (forall₂_congr fun io₂ hok ↦ ih ?_)
      have hstep : Step io₁ (.idle item.event item.ok) io₂ := hok
      exact h₁.tail.step hstep

/-- Every report of a batch is handled as it should be, whatever other threads do in between, exactly
when every report is covered. -/
theorem batch_handled_iff_covered {notifyFd : Fd} {ops : List Op} {io : IOManager}
    {items : List BatchItem} (h : Run Step (construct notifyFd) ops io)
    (hrep : ∀ item ∈ items, io.Reported item.event) :
    EachReport Handled io items ↔ EachReport Covered io items := by
  refine each_handled_iff_covered ⟨run_sound h, fun item hitem ↦ ?_⟩
  obtain ⟨fd, ev, hev, hdata⟩ := hrep item hitem
  rw [hdata]
  exact run_kernelData h fd ev hev

/-- Two reports, with another thread removing an event before the first. -/
theorem batch_handled_iff_covered_pair : ∃ io,
    Run Step (construct 4)
      [.addEvent 5 .read someCaller (some 7) true, .addEvent 5 .write someCaller none true] io ∧
      (EachReport Handled io [⟨[.delEvent 5 .write true], ⟨EPOLLIN, .ptr 5⟩, true⟩,
          ⟨[], ⟨EPOLLHUP, .ptr 5⟩, true⟩] ↔
        EachReport Covered io [⟨[.delEvent 5 .write true], ⟨EPOLLIN, .ptr 5⟩, true⟩,
          ⟨[], ⟨EPOLLHUP, .ptr 5⟩, true⟩]) := by
  obtain ⟨io, hrun, hP⟩ := exists_checked_run (R := Step) (fun _ _ ↦ true)
    (fun s a s' hs _ ↦ hs) (construct 4)
    [.addEvent 5 .read someCaller (some 7) true, .addEvent 5 .write someCaller none true]
    (P := fun io ↦ (io.epoll 5).map (·.data) == some (.ptr 5)) (by decide +kernel)
  refine ⟨io, hrun, batch_handled_iff_covered hrun fun item hitem ↦ ?_⟩
  obtain ⟨ev, hev, hdata⟩ := Option.map_eq_some_iff.mp (beq_iff_eq.mp hP)
  refine ⟨5, ev, hev, ?_⟩
  simp only [List.mem_cons, List.not_mem_nil, or_false] at hitem
  rcases hitem with rfl | rfl <;> exact hdata.symm

/-- A hang-up on an fd with only `READ` registered fails the assertion of `triggerEvent`. -/
theorem hangup_not_handled : ∃ io,
    Run Step (construct 4) [.addEvent 5 .read someCaller (some 7) true] io ∧
      io.Reported ⟨EPOLLHUP, .ptr 5⟩ ∧
      io.handleReport ⟨EPOLLHUP, .ptr 5⟩ true = .error (.assertFailed .triggerRegistered) ∧
      ¬ EachReport Handled io [⟨[], ⟨EPOLLHUP, .ptr 5⟩, true⟩] := by
  obtain ⟨io, hrun, hP⟩ := exists_checked_run (R := Step) (fun _ _ ↦ true)
    (fun s a s' hs _ ↦ hs) (construct 4) [.addEvent 5 .read someCaller (some 7) true]
    (P := fun io ↦ (io.epoll 5).map (·.data) == some (.ptr 5) &&
      match io.handleReport ⟨EPOLLHUP, .ptr 5⟩ true with
      | .error (.assertFailed .triggerRegistered) => true
      | _ => false)
    (by decide +kernel)
  rw [Bool.and_eq_true] at hP
  obtain ⟨ev, hev, hdata⟩ := Option.map_eq_some_iff.mp (beq_iff_eq.mp hP.1)
  have herr : io.handleReport ⟨EPOLLHUP, .ptr 5⟩ true =
      .error (.assertFailed .triggerRegistered) := by
    have hmatch := hP.2
    split at hmatch
    · assumption
    · cases hmatch
  refine ⟨io, hrun, ⟨5, ev, hev, hdata.symm⟩, herr, fun heach ↦ ?_⟩
  obtain ⟨ctx, -, hhandled⟩ := (heach io (.nil _)).1
  rw [herr] at hhandled
  split at hhandled
  · cases hhandled
  · obtain ⟨io', hok, -⟩ := hhandled
    cases hok

end Server.IOManager
