import ServerFramework.IOManager.Descriptors

/-!
# Concurrent calls

A call of an `IOManager` finds the context of its descriptor with the table locked, and does the
rest with the context locked; other calls, and reports, come in between.  Each takes effect in one
of its own sections, as one request for its descriptor, as long as no `addEvent` makes the table
smaller than it finds it.
-/

namespace Server.IOManager

open Fallible Runs

/-! ## The sections under the lock of a context -/

def delEventLocked (io : IOManager) (p : FdPtr) (fd : Fd) (event : Event) (ok : Bool) :
    Except Fault (Bool × IOManager) := do
  let fdCtx ← io.deref p
  if fdCtx.events.word ||| event.word = 0#32 then .ok (false, io) else
  let newEvent := fdCtx.events.erase event
  match epollCtl io.epoll (removalOp newEvent) fd ⟨EPOLLET ||| newEvent.word, .ptr p⟩ ok with
  | none => .ok (false, io)
  | some epoll =>
    .ok (true,
      { io with
        pendingEventCount := io.pendingEventCount - 1#64
        epoll := epoll
        heap := io.heap.set p ({ fdCtx with events := newEvent }.setContext .empty event) })

def cancelEventLocked (io : IOManager) (p : FdPtr) (fd : Fd) (event : Event) (ok : Bool) :
    Except Fault (Bool × IOManager) := do
  let fdCtx ← io.deref p
  if fdCtx.events.has event then
    let newEvent := fdCtx.events.erase event
    match epollCtl io.epoll (removalOp newEvent) fd ⟨EPOLLET ||| newEvent.word, .ptr p⟩ ok with
    | none => .ok (false, io)
    | some epoll => do
      let (fdCtx, queues) ← fdCtx.triggerEvent event io.queues
      if fdCtx.events.word = NONE then
        .ok (true,
          { io with
            pendingEventCount := io.pendingEventCount - 1#64
            epoll := epoll
            heap := io.heap.set p fdCtx
            queues := queues })
      else .error (.assertFailed .cancelEventNone)
  else .ok (false, io)

def cancelAllLocked (io : IOManager) (p : FdPtr) (fd : Fd) (ok : Bool) :
    Except Fault (Bool × IOManager) := do
  let fdCtx ← io.deref p
  if fdCtx.events.word = 0#32 then .ok (false, io) else
  match epollCtl io.epoll .del fd ⟨0#32, .ptr p⟩ ok with
  | none => .ok (false, io)
  | some epoll => do
    let st ← triggerIf (fdCtx.events.has .read) .read (fdCtx, io.queues, io.pendingEventCount)
    let (fdCtx, queues, count) ← triggerIf (st.1.events.has .write) .write st
    if fdCtx.events.word = NONE then
      .ok (true,
        { io with
          pendingEventCount := count
          epoll := epoll
          heap := io.heap.set p fdCtx
          queues := queues })
    else .error (.assertFailed .cancelAllNone)

/-- The last section of a call, and what it returns. -/
def locked (io : IOManager) (p : FdPtr) : Op → Except Fault (Option Bool × IOManager)
  | .addEvent fd event caller cb ok =>
    (fun x ↦ (some (x.1 == 0), x.2)) <$> io.addEventLocked p fd event caller cb ok
  | .delEvent fd event ok => (fun x ↦ (some x.1, x.2)) <$> io.delEventLocked p fd event ok
  | .cancelEvent fd event ok => (fun x ↦ (some x.1, x.2)) <$> io.cancelEventLocked p fd event ok
  | .cancelAll fd ok => (fun x ↦ (some x.1, x.2)) <$> io.cancelAllLocked p fd ok
  | .idle event ok => (none, ·) <$> io.handleReport event ok

/-! ## The threads -/

/-- Where a thread is in a call. -/
inductive Stage where
  | outside
  /-- in `addEvent`, before the write lock -/
  | growing (fd : Fd) (event : Event) (caller : Caller) (cb : Option Callback) (ok : Bool)
  /-- with the context, before its lock -/
  | found (p : FdPtr) (op : Op)
  deriving DecidableEq, Repr

/-- The call that is under way. -/
def Stage.op : Stage → List Op
  | .outside => []
  | .growing fd event caller cb ok => [.addEvent fd event caller cb ok]
  | .found _ op => [op]

structure Threads (T : Type) where
  io : IOManager
  stage : T → Stage

inductive Act (T : Type) where
  /-- the section that reads the table; a report has none, and is handled at once -/
  | begin (t : T) (op : Op)
  /-- the section that grows the table -/
  | grow (t : T)
  /-- the section with the context -/
  | enter (t : T)
  deriving DecidableEq, Repr

/-- What the section that reads the table finds: the context, or nothing to do, or a table that is
too small for an `addEvent`. -/
def find (io : IOManager) : Op → Except Fault Stage
  | .addEvent fd event caller cb ok =>
    (fun
      | some p => .found p (.addEvent fd event caller cb ok)
      | none => .growing fd event caller cb ok) <$> io.addEventFind fd
  | .delEvent fd event ok =>
    if io.tableSize ≤ fd then .ok .outside else (.found · (.delEvent fd event ok)) <$> io.contextPtr fd
  | .cancelEvent fd event ok =>
    if io.tableSize ≤ fd then .ok .outside
    else (.found · (.cancelEvent fd event ok)) <$> io.contextPtr fd
  | .cancelAll fd ok =>
    if io.tableSize < fd then .ok .outside else (.found · (.cancelAll fd ok)) <$> io.contextPtr fd
  | .idle _ _ => .ok .outside

namespace Threads

variable {T : Type} [DecidableEq T]

def start (notifyFd : Fd) : Threads T := ⟨construct notifyFd, fun _ ↦ .outside⟩

def step (s : Threads T) : Act T → Option (Threads T)
  | .begin t op =>
    match s.stage t, op with
    | .outside, .idle event ok => (s.io.handleReport event ok).toOption.map fun io ↦ { s with io := io }
    | .outside, op =>
      (s.io.find op).toOption.map fun stage ↦ { s with stage := Function.update s.stage t stage }
    | _, _ => none
  | .grow t =>
    match s.stage t with
    | .growing fd event caller cb ok =>
      (s.io.addEventGrow fd).toOption.map fun (p, io) ↦
        ⟨io, Function.update s.stage t (.found p (.addEvent fd event caller cb ok))⟩
    | _ => none
  | .enter t =>
    match s.stage t with
    | .found p op =>
      (s.io.locked p op).toOption.map fun (_, io) ↦ ⟨io, Function.update s.stage t .outside⟩
    | _ => none

/-- The calls that a step begins. -/
def begun (_ : Threads T) : Act T → List (T × Op)
  | .begin t op => [(t, op)]
  | _ => []

/-- The calls that take effect in a step. -/
def effective (s : Threads T) : Act T → List (T × Op)
  | .begin t op => if s.io.find op = .ok .outside then [(t, op)] else []
  | .grow _ => []
  | .enter t =>
    match s.stage t with
    | .found _ op => [(t, op)]
    | _ => []

/-- What is returned for them. -/
def returned (s : Threads T) : Act T → Option Bool
  | .begin _ (.idle _ _) => none
  | .begin _ _ => some false
  | .grow _ => none
  | .enter t =>
    match s.stage t with
    | .found p op => (s.io.locked p op).toOption.bind Prod.fst
    | _ => none

/-- The requests that the calls make when they take effect. -/
def requested (s : Threads T) (a : Act T) : List (Nat × Request) :=
  (s.effective a).flatMap fun x ↦ s.io.address x.2

def answered (s : Threads T) (a : Act T) : List (Nat × Option Bool) :=
  (s.requested a).map fun x ↦ (x.1, s.returned a)

/-- A step away from the manager's own pipe, which does not make the table smaller. -/
def Calm (s : Threads T) : Act T → Prop
  | .begin _ op => ∀ x ∈ s.io.address op, x.1 ≠ s.io.notifyFd.val
  | .grow t =>
    match s.stage t with
    | .growing fd _ _ _ _ => s.io.fdContexts.length ≤ growSize fd ∧ growSize fd < 2 ^ 31
    | _ => True
  | .enter _ => True

end Threads

/-! ## Sections and calls -/

/-- The descriptor that is the argument of a call. -/
def Op.fd? : Op → Option Fd
  | .addEvent fd _ _ _ _ | .delEvent fd _ _ | .cancelEvent fd _ _ | .cancelAll fd _ => some fd
  | .idle _ _ => none

section

variable {notifyFd : Fd} {io io' : IOManager} {op : Op} {p : FdPtr} {fd : Fd} {r : Option Bool}

theorem address_of_fd (io : IOManager) (h : op.fd? = some fd) :
    ∃ req, io.address op = [(fd.val, req)] := by
  cases op with
  | idle => cases h
  | addEvent | delEvent | cancelEvent | cancelAll =>
      cases h
      exact ⟨_, rfl⟩

/-- The last section of a call does what the whole call does there. -/
theorem step_of_locked (hfd : op.fd? = some fd) (hlt : (fd : Int) < io.tableSize)
    (hp : io.fdContexts[fd.val]? = some (some p)) (h : io.locked p op = .ok (r, io')) :
    Step io op io' ∧ io.answer op = r := by
  -- where the table has the index, the whole call finds the same context
  have hptr : io.contextPtr fd = .ok p := by simp only [contextPtr, hp]
  have hnot : ¬ io.tableSize ≤ fd := Int.not_le.mpr hlt
  cases op with
  | idle => cases hfd
  | addEvent fd' event caller cb ok =>
      cases hfd
      obtain ⟨⟨r', io''⟩, hlocked, heq⟩ := map_ok h
      cases heq
      have hcall : io.addEvent fd event caller cb ok = .ok (r', io'') := by
        unfold addEvent addEventFind
        rw [if_pos hlt, hptr]
        exact hlocked
      refine ⟨congrArg (Functor.map Prod.snd) hcall, ?_⟩
      rw [answer, hcall]
      rfl
  | delEvent fd' event ok =>
      cases hfd
      obtain ⟨⟨r', io''⟩, hlocked, heq⟩ := map_ok h
      cases heq
      have hcall : io.delEvent fd event ok = .ok (r', io'') := by
        unfold delEvent
        rw [if_neg hnot, hptr]
        exact hlocked
      refine ⟨congrArg (Functor.map Prod.snd) hcall, ?_⟩
      rw [answer, hcall]
      rfl
  | cancelEvent fd' event ok =>
      cases hfd
      obtain ⟨⟨r', io''⟩, hlocked, heq⟩ := map_ok h
      cases heq
      have hcall : io.cancelEvent fd event ok = .ok (r', io'') := by
        unfold cancelEvent
        rw [if_neg hnot, hptr]
        exact hlocked
      refine ⟨congrArg (Functor.map Prod.snd) hcall, ?_⟩
      rw [answer, hcall]
      rfl
  | cancelAll fd' ok =>
      cases hfd
      obtain ⟨⟨r', io''⟩, hlocked, heq⟩ := map_ok h
      cases heq
      have hcall : io.cancelAll fd ok = .ok (r', io'') := by
        unfold cancelAll
        rw [if_neg (Int.not_lt.mpr hlt.le), hptr]
        exact hlocked
      refine ⟨congrArg (Functor.map Prod.snd) hcall, ?_⟩
      rw [answer, hcall]
      rfl

/-- What the section that reads the table has found. -/
theorem find_found {op' : Op} (h : io.find op = .ok (.found p op')) :
    op' = op ∧ ∃ fd, op.fd? = some fd ∧ io.fdContexts[fd.val]? = some (some p) := by
  cases op with
  | idle => cases h
  | addEvent fd event caller cb ok =>
      obtain ⟨x, hfind, heq⟩ := map_ok h
      cases x with
      | none => cases heq
      | some q =>
          cases heq
          unfold addEventFind at hfind
          split at hfind
          · obtain ⟨q', hq, heq⟩ := map_ok hfind
            cases heq
            exact ⟨rfl, fd, rfl, contextPtr_ok hq⟩
          · cases hfind
  | delEvent fd event ok | cancelEvent fd event ok | cancelAll fd ok =>
      unfold find at h
      dsimp only at h
      split at h
      · cases h
      · obtain ⟨q, hq, heq⟩ := map_ok h
        cases heq
        exact ⟨rfl, fd, rfl, contextPtr_ok hq⟩

theorem find_growing {event : Event} {caller : Caller} {cb : Option Callback} {ok : Bool}
    (h : io.find op = .ok (.growing fd event caller cb ok)) : op = .addEvent fd event caller cb ok := by
  cases op with
  | idle => cases h
  | addEvent fd' event' caller' cb' ok' =>
      obtain ⟨x, -, heq⟩ := map_ok h
      cases x with
      | none =>
          cases heq
          rfl
      | some q => cases heq
  | delEvent fd' event' ok' | cancelEvent fd' event' ok' | cancelAll fd' ok' =>
      unfold find at h
      dsimp only at h
      split at h
      · cases h
      · obtain ⟨q, -, heq⟩ := map_ok h
        cases heq

/-- A call that finds nothing to do has no effect, and returns `false`. -/
theorem step_of_outside (hfd : op.fd? = some fd) (h : io.find op = .ok .outside) :
    Step io op io ∧ io.answer op = some false ∧ io.Fits op := by
  cases op with
  | idle => cases hfd
  | addEvent fd' event caller cb ok =>
      obtain ⟨x, -, heq⟩ := map_ok h
      cases x <;> cases heq
  | delEvent fd' event ok =>
      unfold find at h
      dsimp only at h
      split at h
      · rename_i hle
        have hcall : io.delEvent fd' event ok = .ok (false, io) := if_pos hle
        exact ⟨congrArg (Functor.map Prod.snd) hcall, by rw [answer, hcall]; rfl, trivial⟩
      · obtain ⟨q, -, heq⟩ := map_ok h
        cases heq
  | cancelEvent fd' event ok =>
      unfold find at h
      dsimp only at h
      split at h
      · rename_i hle
        have hcall : io.cancelEvent fd' event ok = .ok (false, io) := if_pos hle
        exact ⟨congrArg (Functor.map Prod.snd) hcall, by rw [answer, hcall]; rfl, trivial⟩
      · obtain ⟨q, -, heq⟩ := map_ok h
        cases heq
  | cancelAll fd' ok =>
      unfold find at h
      dsimp only at h
      split at h
      · rename_i hlt
        have hcall : io.cancelAll fd' ok = .ok (false, io) := if_pos hlt
        exact ⟨congrArg (Functor.map Prod.snd) hcall, by rw [answer, hcall]; rfl, trivial⟩
      · obtain ⟨q, -, heq⟩ := map_ok h
        cases heq

/-- Away from the end of the table a step leaves it as it is. -/
theorem Change.table (h : Change io op io') (hin : ∀ fd, op.fd? = some fd → (fd : Int) < io.tableSize) :
    io'.fdContexts = io.fdContexts := by
  have hsame : ∀ fd : Fd, (fd : Int) < io.tableSize → io.entering fd = io := fun fd hlt ↦ if_pos hlt
  cases h with
  | same => rfl
  | grown he => rw [he.eq_entering, hsame _ (hin _ rfl)]
  | registered he =>
      obtain rfl := he.eq_entering
      rw [hsame _ (hin _ rfl)]
      rfl
  | discarded | cancelled | cancelledAll | reported => rfl

theorem Mirrored.resized (h : io.Mirrored notifyFd) {size : Nat} (hlen : io.fdContexts.length ≤ size)
    (hsmall : size < 2 ^ 31) : (io.contextResize size).Mirrored notifyFd := by
  refine ⟨⟨h.sound.wellFormed.contextResize _, contextResize_filled h.sound.filled _⟩,
    contextResize_homed h.homed hlen, ?_, h.notify, fun k hk ↦ ?_⟩
  · rw [contextResize_length]
    exact hsmall
  · unfold interest
    rw [context_contextResize h.sound.filled fun hk ↦ Nat.lt_of_lt_of_le hk hlen]
    exact h.kernel k hk

theorem fits_of_lt (h : io.Mirrored notifyFd)
    (hin : ∀ fd, op.fd? = some fd → (fd : Int) < io.tableSize) : io.Fits op := by
  cases op with
  | addEvent fd event caller cb ok =>
      have hlt := hin fd rfl
      rw [tableSize_eq h.small] at hlt
      exact .inl (by omega)
  | _ => trivial

end

/-! ## Every call takes effect in one of its sections -/

namespace Threads

variable {T : Type} [DecidableEq T] {notifyFd : Fd} {s s' : Threads T} {a : Act T} {as : List (Act T)}

/-- A call that is under way has the context that the table has. -/
structure Steady (notifyFd : Fd) (s : Threads T) : Prop where
  mirrored : s.io.Mirrored notifyFd
  growing : ∀ t fd event caller cb ok, s.stage t = .growing fd event caller cb ok →
    fd.val ≠ notifyFd.val
  found : ∀ t p op, s.stage t = .found p op →
    ∃ fd, op.fd? = some fd ∧ fd.val ≠ notifyFd.val ∧ s.io.fdContexts[fd.val]? = some (some p)

omit [DecidableEq T] in
theorem Steady.lt (h : Steady notifyFd s) {fd : Fd} {p : FdPtr}
    (hp : s.io.fdContexts[fd.val]? = some (some p)) : (fd : Int) < s.io.tableSize := by
  have hlen := (List.getElem?_eq_some_iff.mp hp).1
  rw [tableSize_eq h.mirrored.small]
  omega

omit [DecidableEq T] in
/-- A step of the manager that keeps the table. -/
theorem Steady.change (h : Steady notifyFd s) {op : Op} {io : IOManager} (hok : s.io.Apart op)
    (hin : ∀ fd, op.fd? = some fd → (fd : Int) < s.io.tableSize) (hs : Step s.io op io) :
    Steady notifyFd { s with io := io } := by
  have hchange := step_cases h.mirrored.sound.wellFormed hs
  refine ⟨h.mirrored.change hok.1 hchange, h.growing, fun t p op hstage ↦ ?_⟩
  rw [hchange.table hin]
  exact h.found t p op hstage

/-- A thread that goes on to another stage. -/
theorem Steady.update (h : Steady notifyFd s) (t : T) (stage : Stage)
    (hgrowing : ∀ fd event caller cb ok, stage = .growing fd event caller cb ok → fd.val ≠ notifyFd.val)
    (hfound : ∀ p op, stage = .found p op →
      ∃ fd, op.fd? = some fd ∧ fd.val ≠ notifyFd.val ∧ s.io.fdContexts[fd.val]? = some (some p)) :
    Steady notifyFd { s with stage := Function.update s.stage t stage } := by
  refine ⟨h.mirrored, fun u fd event caller cb ok hu ↦ ?_, fun u p op hu ↦ ?_⟩
  · dsimp only at hu
    by_cases hut : u = t
    · rw [hut, Function.update_self] at hu
      exact hgrowing fd event caller cb ok hu
    · rw [Function.update_of_ne hut] at hu
      exact h.growing u fd event caller cb ok hu
  · dsimp only at hu
    by_cases hut : u = t
    · rw [hut, Function.update_self] at hu
      exact hfound p op hu
    · rw [Function.update_of_ne hut] at hu
      exact h.found u p op hu

omit [DecidableEq T] in
theorem start_steady (notifyFd : Fd) : Steady notifyFd (start notifyFd : Threads T) :=
  ⟨construct_mirrored notifyFd, nofun, nofun⟩

/-- What a thread begins is a report, or a call. -/
theorem begin_cases {t : T} {op : Op} (hs : s.step (.begin t op) = some s') :
    s.stage t = .outside ∧
      ((∃ event ok io, op = .idle event ok ∧ s.io.handleReport event ok = .ok io ∧
        s' = { s with io := io }) ∨
      ∃ fd stage, op.fd? = some fd ∧ s.io.find op = .ok stage ∧
        s' = { s with stage := Function.update s.stage t stage }) := by
  unfold step at hs
  dsimp only at hs
  cases hstage : s.stage t with
  | growing | found => simp only [hstage] at hs; cases hs
  | outside =>
      cases op with
      | idle event ok =>
          simp only [hstage] at hs
          obtain ⟨io, hio, rfl⟩ := Option.map_eq_some_iff.mp hs
          exact ⟨rfl, .inl ⟨event, ok, io, rfl, toOption_eq_some hio, rfl⟩⟩
      | addEvent fd | delEvent fd | cancelEvent fd | cancelAll fd =>
          simp only [hstage] at hs
          obtain ⟨stage, hfind, rfl⟩ := Option.map_eq_some_iff.mp hs
          exact ⟨rfl, .inr ⟨fd, stage, rfl, toOption_eq_some hfind, rfl⟩⟩

omit [DecidableEq T] in
theorem returned_begin {t : T} {op : Op} {fd : Fd} (h : op.fd? = some fd) :
    s.returned (.begin t op) = some false := by
  cases op with
  | idle => cases h
  | addEvent | delEvent | cancelEvent | cancelAll => rfl

/-- The section that reads the table. -/
theorem Steady.begin (h : Steady notifyFd s) {t : T} {op : Op}
    (hok : s.Calm (.begin t op)) (hs : s.step (.begin t op) = some s') :
    Steady notifyFd s' ∧ Served s.io (s.requested (.begin t op)) (s.answered (.begin t op)) s'.io := by
  have hok : ∀ x ∈ s.io.address op, x.1 ≠ s.io.notifyFd.val := hok
  rcases (begin_cases hs).2 with ⟨event, ok, io, rfl, hio, rfl⟩ | ⟨fd, stage, hfd, hfind, rfl⟩
  · have hapart : s.io.Apart (.idle event ok) := ⟨trivial, hok⟩
    refine ⟨h.change hapart (fun _ hfd ↦ by cases hfd) hio, ?_⟩
    have hserved := step_served h.mirrored hapart hio
    simpa [requested, answered, effective, returned, find, answer] using hserved
  · obtain ⟨req, haddress⟩ := address_of_fd s.io hfd
    have hne : fd.val ≠ notifyFd.val := by
      rw [haddress, h.mirrored.notify] at hok
      exact hok _ List.mem_cons_self
    -- a call that goes on takes no effect yet
    have hlater : stage ≠ .outside →
        Served s.io (s.requested (.begin t op)) (s.answered (.begin t op)) s.io := by
      intro hstage
      have hnone : s.effective (.begin t op) = [] := by
        refine if_neg fun houtside ↦ hstage ?_
        exact Except.ok.inj (hfind.symm.trans houtside)
      simp only [answered, requested, hnone]
      exact .same rfl rfl rfl
    -- a call on an index outside the table is over at once, and that is its point
    cases stage with
    | outside =>
        obtain ⟨hstep, hanswer, hfits⟩ := step_of_outside hfd hfind
        refine ⟨h.update t .outside (fun _ _ _ _ _ hq ↦ by cases hq)
          (fun _ _ hq ↦ by cases hq), ?_⟩
        have hserved := step_served h.mirrored ⟨hfits, hok⟩ hstep
        rw [hanswer] at hserved
        have hall : s.effective (.begin t op) = [(t, op)] := if_pos hfind
        simpa only [answered, requested, hall, List.flatMap_singleton, returned_begin hfd] using hserved
    | found p op' =>
        obtain ⟨rfl, fd', hfd', hp⟩ := find_found hfind
        cases hfd.symm.trans hfd'
        refine ⟨h.update t _ (fun _ _ _ _ _ hq ↦ by cases hq) fun q op hq ↦ ?_,
          hlater fun hout ↦ by cases hout⟩
        cases hq
        exact ⟨fd, hfd, hne, hp⟩
    | growing fd' event caller cb ok =>
        obtain rfl := find_growing hfind
        cases hfd
        refine ⟨h.update t _ (fun fd' _ _ _ _ hq ↦ ?_) (fun _ _ hq ↦ by cases hq),
          hlater fun hout ↦ by cases hout⟩
        cases hq
        exact hne

theorem Steady.grow (h : Steady notifyFd s) {t : T} (hok : s.Calm (.grow t))
    (hs : s.step (.grow t) = some s') : Steady notifyFd s' ∧ Served s.io [] [] s'.io := by
  unfold step at hs
  unfold Calm at hok
  dsimp only at hs hok
  split at hs
  · rename_i fd event caller cb ok hstage
    rw [hstage] at hok
    obtain ⟨hlen, hsmall⟩ := hok
    obtain ⟨⟨p, io⟩, hgrow, rfl⟩ := Option.map_eq_some_iff.mp hs
    obtain ⟨q, hq, heq⟩ := map_ok (toOption_eq_some hgrow)
    cases heq
    -- a table that does not shrink keeps the contexts that other calls have found
    have hkeeps : ∀ (k : Nat) (q : FdPtr), s.io.fdContexts[k]? = some (some q) →
        (s.io.contextResize (growSize fd)).fdContexts[k]? = some (some q) := by
      intro k q hk
      exact contextResize_keeps hk (Nat.lt_of_lt_of_le (List.getElem?_eq_some_iff.mp hk).1 hlen)
    have hgrown : Steady notifyFd { s with io := s.io.contextResize (growSize fd) } := by
      refine ⟨h.mirrored.resized hlen hsmall, h.growing, fun u q op hu ↦ ?_⟩
      obtain ⟨fd', hfd', hne, hq⟩ := h.found u q op hu
      exact ⟨fd', hfd', hne, hkeeps _ _ hq⟩
    refine ⟨hgrown.update t _ nofun fun q op hq' ↦ ?_, .same ?_ rfl rfl⟩
    · cases hq'
      exact ⟨fd, rfl, h.growing t _ _ _ _ _ hstage, contextPtr_ok hq⟩
    · funext k
      unfold descriptor
      rw [context_contextResize h.mirrored.sound.filled fun hk ↦ Nat.lt_of_lt_of_le hk hlen]
  · cases hs

theorem Steady.enter (h : Steady notifyFd s) {t : T} (hs : s.step (.enter t) = some s') :
    Steady notifyFd s' ∧ Served s.io (s.requested (.enter t)) (s.answered (.enter t)) s'.io := by
  unfold step at hs
  dsimp only at hs
  split at hs
  · rename_i p op hstage
    obtain ⟨⟨r, io⟩, hlocked, rfl⟩ := Option.map_eq_some_iff.mp hs
    obtain ⟨fd, hfd, hne, hp⟩ := h.found t p op hstage
    obtain ⟨hstep, hanswer⟩ := step_of_locked hfd (h.lt hp) hp (toOption_eq_some hlocked)
    have hin : ∀ fd', op.fd? = some fd' → (fd' : Int) < s.io.tableSize := by
      intro fd' hfd'
      cases hfd.symm.trans hfd'
      exact h.lt hp
    obtain ⟨req, haddress⟩ := address_of_fd s.io hfd
    have hapart : s.io.Apart op := by
      refine ⟨fits_of_lt h.mirrored hin, fun x hx ↦ ?_⟩
      rw [haddress, List.mem_singleton] at hx
      rw [hx, h.mirrored.notify]
      exact hne
    refine ⟨(h.change hapart hin hstep).update t .outside nofun nofun, ?_⟩
    have hserved := step_served h.mirrored hapart hstep
    rw [hanswer] at hserved
    have hreturned : s.returned (.enter t) = r := by
      simp only [returned, hstage, hlocked, Option.bind_some]
    simpa only [requested, answered, effective, hstage, List.flatMap_singleton, hreturned] using hserved
  · cases hs

theorem Steady.step (h : Steady notifyFd s) (hok : s.Calm a) (hs : s.step a = some s') :
    Steady notifyFd s' ∧ Served s.io (s.requested a) (s.answered a) s'.io := by
  cases a with
  | begin t op => exact h.begin hok hs
  | grow t => exact h.grow hok hs
  | enter t => exact h.enter hs

theorem run_served (h : Run (Guarded (Of step) Calm) s as s') (hsteady : Steady notifyFd s) :
    Served s.io (trace step requested s as) (trace step answered s as) s'.io := by
  induction h with
  | nil => exact .same rfl rfl rfl
  | @cons s s₁ s' a as hs hrest ih =>
      obtain ⟨hsteady₁, hserved⟩ := hsteady.step hs.2 hs.1
      rw [trace, trace, show s.step a = some s₁ from hs.1]
      exact hserved.append (ih hsteady₁)

/-- One thread goes on, with what it began and what took effect. -/
theorem only_update (s : Threads T) {u : T} (stage : Stage) (begun effective : List Op)
    (h : (s.stage u).op ++ begun = effective ++ stage.op) (t : T) :
    (s.stage t).op ++ Family.only t (begun.map fun op ↦ (u, op)) =
      Family.only t (effective.map fun op ↦ (u, op)) ++ (Function.update s.stage u stage t).op := by
  have hself : ∀ ops : List Op, Family.only u (ops.map fun op ↦ (u, op)) = ops := by
    intro ops
    simp [Family.only]
  by_cases htu : t = u
  · subst htu
    rw [hself, hself, Function.update_self]
    exact h
  · have hother : ∀ ops : List Op, Family.only t (ops.map fun op ↦ (u, op)) = [] := by
      intro ops
      simp [Family.only, Ne.symm htu]
    rw [hother, hother, Function.update_of_ne htu, List.append_nil, List.nil_append]

/-- What a thread has begun has taken effect, or is under way. -/
theorem step_begun (hs : s.step a = some s') (t : T) :
    (s.stage t).op ++ Family.only t (s.begun a) = Family.only t (s.effective a) ++ (s'.stage t).op := by
  cases a with
  | begin u op =>
      obtain ⟨houtside, hcases⟩ := begin_cases hs
      have hnil : (s.stage u).op = [] := by rw [houtside]; rfl
      rcases hcases with ⟨event, ok, io, rfl, -, rfl⟩ | ⟨fd, stage, -, hfind, rfl⟩
      · have hone := only_update s .outside [.idle event ok] [.idle event ok]
          (by rw [hnil]; rfl) t
        rw [← houtside, Function.update_eq_self] at hone
        exact hone
      · -- the call takes effect here, or it is under way from here on
        by_cases hstage : stage = .outside
        · have hall : s.effective (.begin u op) = [(u, op)] := if_pos (hstage ▸ hfind)
          rw [hall]
          refine only_update s stage [op] [op] ?_ t
          rw [hnil, hstage]
          rfl
        · have hnone : s.effective (.begin u op) = [] := by
            refine if_neg fun h ↦ hstage ?_
            exact Except.ok.inj (hfind.symm.trans h)
          rw [hnone]
          refine only_update s stage [op] [] ?_ t
          rw [hnil]
          cases stage with
          | outside => exact absurd rfl hstage
          | found p op' =>
              obtain ⟨rfl, -⟩ := find_found hfind
              rfl
          | growing =>
              obtain rfl := find_growing hfind
              rfl
  | grow u =>
      unfold step at hs
      dsimp only at hs
      split at hs
      · rename_i fd event caller cb ok hstage
        obtain ⟨⟨p, io⟩, -, rfl⟩ := Option.map_eq_some_iff.mp hs
        refine only_update s _ [] [] ?_ t
        rw [hstage]
        rfl
      · cases hs
  | enter u =>
      unfold step at hs
      dsimp only at hs
      split at hs
      · rename_i p op hstage
        obtain ⟨⟨r, io⟩, -, rfl⟩ := Option.map_eq_some_iff.mp hs
        have heffective : s.effective (.enter u) = [(u, op)] := by simp only [effective, hstage]
        rw [heffective]
        refine only_update s .outside [] [op] ?_ t
        rw [hstage]
        rfl
      · cases hs

instance (s : Threads T) : (a : Act T) → Decidable (s.Calm a)
  | .begin _ op => inferInstanceAs (Decidable (∀ x ∈ s.io.address op, x.1 ≠ s.io.notifyFd.val))
  | .grow t =>
    match h : s.stage t with
    | .growing fd _ _ _ _ =>
      decidable_of_iff (s.io.fdContexts.length ≤ growSize fd ∧ growSize fd < 2 ^ 31)
        (by simp only [Calm, h])
    | .outside | .found _ _ => .isTrue (by simp only [Calm, h])
  | .enter _ => .isTrue trivial

/-- Two threads register on one descriptor, beyond the table, and one of them cancels in between. -/
def overlapping : List (Act Bool) :=
  [.begin false (.addEvent 40 .read someCaller (some 7) true),
    .begin true (.addEvent 40 .write someCaller none true), .grow false, .grow true, .enter true,
    .begin true (.cancelAll 40 true), .enter false, .enter true]

end Threads

end Server.IOManager
