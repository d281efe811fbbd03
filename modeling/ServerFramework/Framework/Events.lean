import ServerFramework.IOManager.Linearization
import ServerFramework.Scheduler.Order

/-!
# From the registration of an event to its handler

An `IOManager` with the schedulers that its handlers go to.  The threads that call the manager or
report to it leave each handler with its scheduler, and the workers of the scheduler take it from
there; other tasks are scheduled in between, and fibers that yield are scheduled again.
-/

namespace Server.Events

open Runs IOManager

structure System (T W D O : Type) where
  threads : Threads T
  scheduler : SchedulerId → Machine W D O
  /-- how many of the manager's calls of `schedule` each scheduler has let in -/
  entered : SchedulerId → Nat

inductive Act (T W D O : Type) where
  | io (a : IOManager.Act T)
  /-- the next call of `schedule` by the manager gets the scheduler's `m_mutex` -/
  | enter (k : SchedulerId)
  /-- anything else that happens to a scheduler -/
  | scheduler (k : SchedulerId) (a : Action W D O)

namespace System

variable {T W D O : Type} [DecidableEq T] [DecidableEq W] [DecidableEq D] [DecidableEq O]

def start (notifyFd : Fd) (thread : SchedulerId → W → Int) : System T W D O :=
  ⟨Threads.start notifyFd, fun k ↦ Machine.start (thread k), fun _ ↦ 0⟩

def step (s : System T W D O) : Act T W D O → Option (System T W D O)
  | .io a => (s.threads.step a).map fun threads ↦ { s with threads := threads }
  | .enter k =>
    -- the queues of the manager list its calls in their order
    match (s.threads.io.queues k)[s.entered k]? with
    | some ft =>
      ((s.scheduler k).step (.schedule ft)).map fun m ↦
        { s with
          scheduler := Function.update s.scheduler k m
          entered := Function.update s.entered k (s.entered k + 1) }
    | none => none
  | .scheduler k a =>
    ((s.scheduler k).step a).map fun m ↦
      { s with scheduler := Function.update s.scheduler k m }

def Calm (s : System T W D O) : Act T W D O → Prop
  | .io a => s.threads.Calm a
  | _ => True

def requested (s : System T W D O) : Act T W D O → List (Nat × Request)
  | .io a => s.threads.requested a
  | _ => []

def answered (s : System T W D O) : Act T W D O → List (Nat × Option Bool)
  | .io a => s.threads.answered a
  | _ => []

/-- What the workers of a scheduler take. -/
def taken (k : SchedulerId) (s : System T W D O) : Act T W D O → List FiberAndThread
  | .scheduler k' a => if k = k' then (s.scheduler k).takes a else []
  | _ => []

/-- What is scheduled on a scheduler without the manager. -/
def others (k : SchedulerId) (s : System T W D O) : Act T W D O → List FiberAndThread
  | .scheduler k' a => if k = k' then (s.scheduler k).puts a else []
  | _ => []

/-- What a scheduler has not taken yet: its queue, and the calls of the manager that it has not let
in. -/
def outstanding (s : System T W D O) (k : SchedulerId) : List FiberAndThread :=
  (s.scheduler k).fibers ++ (s.threads.io.queues k).drop (s.entered k)

end System

/-! ## Handlers are not empty -/

section

variable {d d' : Descriptor} {req : Request} {x : Effect}

/-- The handlers of a descriptor have a callback or a fiber. -/
def Loaded (d : Descriptor) : Prop := ∀ e h, d e = some h → h.entry.nonempty = true

theorem loaded_hand {es : List Event} {answer : Option Bool} (h : Loaded d)
    (hs : d.hand es answer = some (d', x)) : Loaded d' ∧ ∀ h ∈ x.handed, h.entry.nonempty = true := by
  unfold Descriptor.hand at hs
  split at hs
  · cases hs
    refine ⟨fun e handler he ↦ ?_, fun handler hmem ↦ ?_⟩
    · dsimp only at he
      split at he
      · cases he
      · exact h e handler he
    · obtain ⟨e, -, he⟩ := List.mem_filterMap.mp hmem
      exact h e handler he
  · cases hs

theorem loaded_update {event : Event} {v : Option Handler} (h : Loaded d)
    (hv : ∀ handler ∈ v, handler.entry.nonempty = true) : Loaded (Function.update d event v) := by
  intro e handler he
  by_cases hevent : e = event
  · subst hevent
    rw [Function.update_self] at he
    exact hv handler he
  · rw [Function.update_of_ne hevent] at he
    exact h e handler he

theorem loaded_newHandler {caller : Caller} {cb : Option Callback} {ec : EventContext}
    (h : newHandler caller cb = .ok ec) : ec.handler.entry.nonempty = true := by
  have hloaded := (newHandler_loaded h).1
  unfold EventContext.Loaded at hloaded
  unfold EventContext.handler
  cases hcb : ec.cb with
  | some cb => rfl
  | none =>
      rw [hcb] at hloaded
      cases hf : ec.fiber with
      | some f => rfl
      | none =>
          rw [hf] at hloaded
          exact absurd rfl hloaded

theorem loaded_step (h : Loaded d) (hs : d.step req = some (d', x)) :
    Loaded d' ∧ ∀ h ∈ x.handed, h.entry.nonempty = true := by
  have hsame : ∀ {answer : Option Bool}, some (d, Effect.nothing answer) = some (d', x) →
      Loaded d' ∧ ∀ h ∈ x.handed, h.entry.nonempty = true := by
    intro answer heq
    cases heq
    exact ⟨h, nofun⟩
  cases req with
  | add event caller cb ok =>
      dsimp only [Descriptor.step] at hs
      split at hs
      · cases hs
      · split at hs
        · obtain ⟨ec, hec, heq⟩ := Option.map_eq_some_iff.mp hs
          cases heq
          refine ⟨loaded_update h fun handler hmem ↦ ?_, nofun⟩
          cases hmem
          exact loaded_newHandler (Fallible.toOption_eq_some hec)
        · exact hsame hs
  | remove event ok =>
      dsimp only [Descriptor.step] at hs
      split at hs
      · cases hs
        exact ⟨loaded_update h nofun, nofun⟩
      · exact hsame hs
  | cancel event ok =>
      dsimp only [Descriptor.step] at hs
      split at hs
      · split at hs
        · exact loaded_hand h hs
        · cases hs
      · exact hsame hs
  | cancelAll ok =>
      dsimp only [Descriptor.step] at hs
      split at hs
      · exact loaded_hand h hs
      · exact hsame hs
  | report events ok =>
      dsimp only [Descriptor.step] at hs
      split at hs
      · exact loaded_hand h hs
      · exact hsame hs

end

/-! ## One step -/

namespace System

variable {T W D O : Type} [DecidableEq T] [DecidableEq W] [DecidableEq D] [DecidableEq O]
  {s s' : System T W D O} {a : Act T W D O} {as : List (Act T W D O)} {notifyFd : Fd}
  {k : SchedulerId} {c : FiberAndThread → Bool}

/-- The manager is in order, has made every call of `schedule` that was let in, and each with a
task. -/
structure Paced (notifyFd : Fd) (s : System T W D O) : Prop where
  steady : Threads.Steady notifyFd s.threads
  entered : ∀ k, s.entered k ≤ (s.threads.io.queues k).length
  loaded : ∀ fd, Loaded (s.threads.io.descriptor fd)
  nonempty : ∀ k, ∀ ft ∈ s.threads.io.queues k, ft.nonempty = true

/-- What a step of the system does to the outstanding tasks of a scheduler: the manager adds
`handed`, and the scheduler's own step adds some and takes one. -/
structure Moves (s : System T W D O) (a : Act T W D O) (s' : System T W D O) (k : SchedulerId)
    (handed : List FiberAndThread) : Prop where
  queues : s'.threads.io.queues k = s.threads.io.queues k ++ handed
  perm : (s.outstanding k ++ handed ++ s.others k a).Perm (s.taken k a ++ s'.outstanding k)
  order : ∀ c : FiberAndThread → Bool, (∀ ft, c ft = true → Machine.isCallback (-1) ft = true) →
    (s.others k a).filter c = [] →
    (s.outstanding k ++ handed).filter c = (s.taken k a).filter c ++ (s'.outstanding k).filter c

omit [DecidableEq T] [DecidableEq W] [DecidableEq D] [DecidableEq O] in
/-- Entries of handlers that are not empty. -/
theorem nonempty_entriesFor {hs : List Handler} (h : ∀ x ∈ hs, x.entry.nonempty = true) :
    ∀ ft ∈ entriesFor k hs, ft.nonempty = true := by
  intro ft hft
  obtain ⟨x, hx, rfl⟩ := List.mem_map.mp hft
  exact h x (List.mem_filter.mp hx).1

omit [DecidableEq W] [DecidableEq D] [DecidableEq O] in
/-- A step with the manager. -/
theorem Paced.io {threads : Threads T} {b : IOManager.Act T} (h : s.Paced notifyFd)
    (hok : s.threads.Calm b) (hs : s.threads.step b = some threads) :
    ({ s with threads := threads } : System T W D O).Paced notifyFd ∧
      Served s.threads.io (s.threads.requested b) (s.threads.answered b) threads.io := by
  obtain ⟨hsteady, hserved⟩ := h.steady.step hok hs
  refine ⟨?_, hserved⟩
  obtain ⟨xs, hexec, -, hqueues, -⟩ := hserved
  -- what is handed over was registered, and is not empty
  obtain ⟨hloaded, hhanded⟩ := Family.exec_invariant
    (I := fun d ↦ ∀ fd, Loaded (d fd)) (P := fun o ↦ ∀ h ∈ o.2.handed, h.entry.nonempty = true)
    (fun d r d' o hd hstep ↦ by
      obtain ⟨⟨d₁, x⟩, hx, heq⟩ := Option.map_eq_some_iff.mp hstep
      cases heq
      obtain ⟨hd₁, hhanded⟩ := loaded_step (hd r.1) hx
      refine ⟨fun fd ↦ ?_, hhanded⟩
      by_cases hfd : fd = r.1
      · rw [hfd, Function.update_self]
        exact hd₁
      · rw [Function.update_of_ne hfd]
        exact hd fd) hexec h.loaded
  refine ⟨hsteady, fun k ↦ ?_, hloaded, fun k ft hft ↦ ?_⟩
  · dsimp only
    rw [hqueues, List.length_append]
    exact Nat.le_add_right_of_le (h.entered k)
  · dsimp only at hft
    rw [hqueues] at hft
    rcases List.mem_append.mp hft with hft | hft
    · exact h.nonempty k ft hft
    · refine nonempty_entriesFor (fun x hx ↦ ?_) ft hft
      obtain ⟨o, ho, hx⟩ := List.mem_flatMap.mp hx
      exact hhanded o ho x hx

omit [DecidableEq T] [DecidableEq W] [DecidableEq D] [DecidableEq O] in
/-- Nothing is taken or scheduled, and the outstanding tasks are what they were and what is handed
over. -/
theorem Moves.of_outstanding {handed : List FiberAndThread}
    (hqueues : s'.threads.io.queues k = s.threads.io.queues k ++ handed)
    (houtstanding : s'.outstanding k = s.outstanding k ++ handed) (htaken : s.taken k a = [])
    (hothers : s.others k a = []) : Moves s a s' k handed := by
  refine ⟨hqueues, ?_, fun c _ _ ↦ ?_⟩
  · rw [houtstanding, htaken, hothers, List.append_nil, List.nil_append]
  · rw [houtstanding, htaken, List.filter_nil, List.nil_append]

theorem Paced.enter {j : SchedulerId} (h : s.Paced notifyFd) (hs : s.step (.enter j) = some s') :
    s'.Paced notifyFd ∧ s'.threads = s.threads ∧ ∀ k, Moves s (.enter j) s' k [] := by
  unfold step at hs
  dsimp only at hs
  split at hs
  · rename_i ft hft
    obtain ⟨m, hm, rfl⟩ := Option.map_eq_some_iff.mp hs
    obtain ⟨hlt, hget⟩ := List.getElem?_eq_some_iff.mp hft
    -- the entry is not empty, so `scheduleNoLock` puts it into the queue
    have hfibers : m.fibers = (s.scheduler j).fibers ++ [ft] := by
      cases Machine.step_queueChange hm with
      | put hfibers _ _ =>
          rw [hfibers, Machine.puts, List.filter_eq_self.mpr]
          intro x hx
          rw [List.mem_singleton.mp hx]
          exact h.nonempty j ft (List.mem_of_getElem? hft)
      | took _ _ ha => cases ha
    refine ⟨⟨h.steady, fun k ↦ ?_, h.loaded, h.nonempty⟩, rfl, fun k ↦ ?_⟩
    · dsimp only
      by_cases hk : k = j
      · rw [hk, Function.update_self]
        exact hlt
      · rw [Function.update_of_ne hk]
        exact h.entered k
    · refine .of_outstanding (List.append_nil _).symm ?_ rfl rfl
      rw [List.append_nil, outstanding, outstanding]
      dsimp only
      by_cases hk : k = j
      · subst hk
        rw [Function.update_self, Function.update_self, hfibers, List.append_assoc,
          List.drop_eq_getElem_cons hlt, hget, List.singleton_append]
      · rw [Function.update_of_ne hk, Function.update_of_ne hk]
  · cases hs

theorem Paced.scheduler {j : SchedulerId} {b : Action W D O} (h : s.Paced notifyFd)
    (hs : s.step (.scheduler j b) = some s') :
    s'.Paced notifyFd ∧ s'.threads = s.threads ∧ ∀ k, Moves s (.scheduler j b) s' k [] := by
  obtain ⟨m, hm, rfl⟩ := Option.map_eq_some_iff.mp hs
  refine ⟨⟨h.steady, h.entered, h.loaded, h.nonempty⟩, rfl, fun k ↦ ?_⟩
  have hchange := Machine.step_queueChange hm
  by_cases hk : k = j
  · subst hk
    have htaken : s.taken k (.scheduler k b) = (s.scheduler k).takes b := if_pos rfl
    have hothers : s.others k (.scheduler k b) = (s.scheduler k).puts b := if_pos rfl
    refine ⟨(List.append_nil _).symm, ?_, fun c hc hnone ↦ ?_⟩
    · rw [htaken, hothers, outstanding, outstanding, List.append_nil]
      dsimp only
      rw [Function.update_self, ← List.append_assoc]
      -- what is scheduled meanwhile comes before the manager's calls that wait
      refine List.Perm.trans ?_ (hchange.perm.append_right _)
      rw [List.append_assoc, List.append_assoc]
      exact List.perm_append_comm.append_left _
    · have hcallbacks := hchange.callbacks hc
      rw [hothers] at hnone
      rw [hnone, List.append_nil] at hcallbacks
      rw [htaken, outstanding, outstanding, List.append_nil]
      dsimp only
      rw [Function.update_self, List.filter_append, List.filter_append, hcallbacks, List.append_assoc]
  · refine .of_outstanding (List.append_nil _).symm ?_ (if_neg hk) (if_neg hk)
    rw [List.append_nil, outstanding, outstanding]
    dsimp only
    rw [Function.update_of_ne hk]

theorem Paced.step (h : s.Paced notifyFd) (hok : s.Calm a) (hs : s.step a = some s') :
    s'.Paced notifyFd ∧ Served s.threads.io (s.requested a) (s.answered a) s'.threads.io ∧
      ∀ k, ∃ handed, Moves s a s' k handed := by
  cases a with
  | io b =>
      obtain ⟨threads, hthreads, rfl⟩ := Option.map_eq_some_iff.mp hs
      obtain ⟨hpaced, hserved⟩ := h.io hok hthreads
      refine ⟨hpaced, hserved, fun k ↦ ?_⟩
      obtain ⟨xs, -, -, hqueues, -⟩ := hserved
      refine ⟨_, .of_outstanding (hqueues k) ?_ rfl rfl⟩
      rw [outstanding, outstanding]
      dsimp only
      rw [hqueues, List.drop_append_of_le_length (h.entered k), List.append_assoc]
  | enter j =>
      obtain ⟨hpaced, hthreads, hmoves⟩ := h.enter hs
      refine ⟨hpaced, ?_, fun k ↦ ⟨[], hmoves k⟩⟩
      rw [hthreads]
      exact .same rfl rfl rfl
  | scheduler j b =>
      obtain ⟨hpaced, hthreads, hmoves⟩ := h.scheduler hs
      refine ⟨hpaced, ?_, fun k ↦ ⟨[], hmoves k⟩⟩
      rw [hthreads]
      exact .same rfl rfl rfl

/-! ## Runs -/

theorem run_served (h : Run (Guarded (Of step) Calm) s as s') (hpaced : s.Paced notifyFd) :
    Served s.threads.io (trace step requested s as) (trace step answered s as) s'.threads.io := by
  induction h with
  | nil => exact .same rfl rfl rfl
  | @cons s s₁ s' a as hs hrest ih =>
      obtain ⟨hpaced₁, hserved, -⟩ := hpaced.step hs.2 hs.1
      rw [trace, trace, show s.step a = some s₁ from hs.1]
      exact hserved.append (ih hpaced₁)

/-- What steps do one after the other to the outstanding tasks. -/
theorem run_moves (h : Run (Guarded (Of step) Calm) s as s') (hpaced : s.Paced notifyFd)
    (k : SchedulerId) :
    ∃ handed, s'.threads.io.queues k = s.threads.io.queues k ++ handed ∧
      (s.outstanding k ++ handed ++ trace step (others k) s as).Perm
        (trace step (taken k) s as ++ s'.outstanding k) ∧
      ∀ c : FiberAndThread → Bool, (∀ ft, c ft = true → Machine.isCallback (-1) ft = true) →
        (trace step (others k) s as).filter c = [] →
        (s.outstanding k ++ handed).filter c =
          (trace step (taken k) s as).filter c ++ (s'.outstanding k).filter c := by
  induction h with
  | nil s =>
      refine ⟨[], (List.append_nil _).symm, ?_, fun c _ _ ↦ ?_⟩
      · rw [trace, trace, List.append_nil, List.append_nil, List.nil_append]
      · rw [trace, List.append_nil, List.filter_nil, List.nil_append]
  | @cons s s₁ s' a as hs hrest ih =>
      obtain ⟨hpaced₁, -, hmoves⟩ := hpaced.step hs.2 hs.1
      obtain ⟨handed, hqueues, hperm, horder⟩ := hmoves k
      obtain ⟨handed', hqueues', hperm', horder'⟩ := ih hpaced₁
      rw [trace, trace, show s.step a = some s₁ from hs.1]
      refine ⟨handed ++ handed', ?_, ?_, fun c hc hnone ↦ ?_⟩
      · rw [hqueues', hqueues, List.append_assoc]
      · classical
        -- what is handed over later only adds to both sides
        rw [List.perm_iff_count] at *
        intro ft
        have hcount := hperm ft
        have hcount' := hperm' ft
        simp only [List.count_append] at *
        omega
      · rw [List.filter_append, List.append_eq_nil_iff] at hnone
        have hfirst := horder c hc hnone.1
        have hrest := horder' c hc hnone.2
        calc (s.outstanding k ++ (handed ++ handed')).filter c
            = (s.outstanding k ++ handed).filter c ++ handed'.filter c := by
              rw [← List.append_assoc, List.filter_append]
          _ = (s.taken k a).filter c ++ (s₁.outstanding k ++ handed').filter c := by
              rw [hfirst, List.filter_append, List.append_assoc]
          _ = _ := by rw [hrest, List.filter_append, List.append_assoc]

omit [DecidableEq T] [DecidableEq W] [DecidableEq D] [DecidableEq O] in
theorem start_paced (notifyFd : Fd) (thread : SchedulerId → W → Int) :
    (start notifyFd thread : System T W D O).Paced notifyFd := by
  refine ⟨Threads.start_steady notifyFd, fun _ ↦ Nat.zero_le _, fun fd e handler he ↦ ?_,
    fun k ft hft ↦ ?_⟩
  · have hempty : (start notifyFd thread : System T W D O).threads.io.descriptor fd = .empty :=
      construct_descriptor notifyFd fd
    rw [hempty] at he
    cases he
  · cases hft

instance (s : System T W D O) : (a : Act T W D O) → Decidable (s.Calm a)
  | .io a => inferInstanceAs (Decidable (s.threads.Calm a))
  | .enter _ | .scheduler _ _ => .isTrue trivial

/-- Two workers of each scheduler. -/
def ids (_ : SchedulerId) (w : Bool) : Int := if w then 2 else 1

/-- An event is registered with a callback and happens, and a worker takes the callback. -/
def handling : List (Act Bool Bool Unit Unit) :=
  [.io (.begin false (.addEvent 5 .read someCaller (some 7) true)), .io (.enter false),
    .io (.begin true (.idle ⟨EPOLLIN, .ptr 5⟩ true)), .enter 0, .scheduler 0 (.work true)]

end System

end Server.Events
