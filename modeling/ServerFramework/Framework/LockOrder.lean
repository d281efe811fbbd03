import ServerFramework.Library.SharedLocks
import ServerFramework.Log.Locks

/-!
# The locks of the framework

The configuration, the loggers, the schedulers and the `IOManager`s lock each other's mutexes:
listeners configure loggers, an event is scheduled with the lock of its fd held, and almost
everything logs.  What decides about no lock is left out, and what a call finds is a part of the
operation, so an operation with any outcome may be begun at any time.
-/

namespace Server.Framework

open Runs Locks Prog SharedLocks Log

abbrev ArgId := Nat

abbrev SchedulerId := Nat

inductive Mutex where
  /-- `ConfigMgr::getMutex()` -/
  | config
  /-- `ConfigArg::m_mutex` -/
  | arg (a : ArgId)
  /-- `IOManager::m_mtx` -/
  | table (s : SchedulerId)
  /-- `FdContext::mtx` -/
  | fd (s : SchedulerId) (fd : Nat)
  /-- `Scheduler::m_mutex` -/
  | scheduler (s : SchedulerId)
  /-- those of the loggers -/
  | log (m : Log.Mutex)
  deriving DecidableEq, Repr

/-- The event of a `SERVER_LOG_…`. -/
structure Line where
  logger : LoggerId
  level : Level
  event : LogEvent
  deriving DecidableEq, Repr

/-- What a listener does; that of `logs` logs a line and sets up loggers. -/
inductive Duty where
  | say (line : Line)
  | log (o : LogOp)
  deriving DecidableEq, Repr

/-- What happens in `setValue` to a value that is not the old one. -/
structure Change where
  /-- what the listeners do -/
  duties : List Duty
  /-- whether one of them throws in the end -/
  throws : Bool
  deriving DecidableEq, Repr

/-- What `fromString` makes of its string: an exception of the converter, or a value, which may be
the old one; an exception leads to the line. -/
structure Conversion where
  value : Option (Option Change)
  line : Line
  deriving DecidableEq, Repr

/-- What `lookUp(name, default_value)` finds. -/
inductive LookUp where
  | invalid (line : Line)
  | exists (line : Line)
  /-- an argument of another type, whose value is logged -/
  | conflict (line : Line) (a : ArgId) (error : Option Line)
  | stored
  deriving DecidableEq, Repr

/-- What becomes of an fd's event, once its lock is held. -/
inductive Outcome where
  /-- there is nothing to do -/
  | nothing
  /-- `epoll_ctl` fails -/
  | error (line : Line)
  /-- `addEvent` and `delEvent` -/
  | done
  /-- `triggerEvent`, for one event or for both, with the line that `notify` logs -/
  | triggered (events : List (SchedulerId × Option Line))
  deriving DecidableEq, Repr

inductive Op where
  /-- the operations of loggers -/
  | log (o : LogOp)
  /-- `SERVER_LOG_…` -/
  | say (line : Line)
  /-- `ConfigArg::toString`; `error` is logged when the converter throws -/
  | toString (a : ArgId) (error : Option Line)
  | getValue (a : ArgId)
  /-- `addListener`, `delListener`, `getListener`, `clearListener` -/
  | listeners (a : ArgId)
  /-- `setValue`, of the old value or of another one -/
  | setValue (a : ArgId) (change : Option Change)
  | fromString (a : ArgId) (c : Conversion)
  | lookUp (found : LookUp)
  /-- `lookUp(name)`, `lookUpBase` -/
  | find
  /-- `Visit`, with a callback that converts the arguments -/
  | visit (args : List (ArgId × Option Line))
  /-- the loop of `loadFromYaml`, for the keys that name arguments and for the others -/
  | load (args : List (Option (ArgId × Conversion)))
  /-- `schedule`, with the line that `Scheduler::notify` logs; `IOManager::notify` logs none -/
  | schedule (s : SchedulerId) (line : Option Line)
  /-- the section of `run`, `Scheduler::stopped`, the section of `stop` -/
  | queue (s : SchedulerId)
  /-- `start`, with the line of a failed `pthread_create` -/
  | start (s : SchedulerId) (error : Option Line)
  | addEvent (s : SchedulerId) (fd : Nat) (grow : Bool) (outcome : Outcome)
  /-- `delEvent`, `cancelEvent`, `cancelAll`, for an fd in the table or not -/
  | changeEvent (s : SchedulerId) (fd : Nat) (inTable : Bool) (outcome : Outcome)
  /-- a report of `epoll_wait` in `idle` -/
  | report (s : SchedulerId) (fd : Nat) (outcome : Outcome)
  deriving DecidableEq, Repr

abbrev FrameProg := Prog (Mutex × Mode) Shared Op

/-- A scoped lock of a `Mutex`, or a `WriteLock`. -/
def exclusively (m : Mutex) (p : FrameProg) : FrameProg := locked (m, .exclusive) p

/-- A `ReadLock`. -/
def reading (m : Mutex) (p : FrameProg) : FrameProg := locked (m, .shared) p

/-! ## The programs -/

def sayIf (line : Option Line) : FrameProg :=
  match line with
  | some line => invoke (.say line)
  | none => .ret

def fulfil : Duty → FrameProg
  | .say line => invoke (.say line)
  | .log o => invoke (.log o)

/-- The section with the lock of an fd. -/
def onFd (s : SchedulerId) (fd : Nat) (outcome : Outcome) : FrameProg :=
  exclusively (.fd s fd)
    (match outcome with
    | .nothing | .done => .ret
    | .error line => invoke (.say line)
    -- the fiber or the callback goes to the scheduler that registered it
    | .triggered events => each events fun (s', line) ↦ invoke (.schedule s' line))

def body : Op → FrameProg
  | .log o => embed .log id (fun x _ ↦ x) .log (Locking.body o)
  | .say line =>
    load fun s ↦
      if (s.logger line.logger).level.value ≤ line.level.value then
        invoke (.log (.log line.logger line.level line.event))
      else .ret
  | .toString a error => (reading (.arg a) .ret).seq (sayIf error)
  | .getValue a => reading (.arg a) .ret
  -- they write `m_cbs` under the read lock
  | .listeners a => reading (.arg a) .ret
  | .setValue a change =>
    match change with
    | none => reading (.arg a) .ret
    | some c =>
      (reading (.arg a) (each c.duties fulfil)).seq
        (if c.throws then .ret else exclusively (.arg a) .ret)
  | .fromString a c =>
    match c.value with
    | none => invoke (.say c.line)
    | some change =>
      (invoke (.setValue a change)).seq
        (if change.elim false Change.throws then invoke (.say c.line) else .ret)
  | .lookUp found =>
    reading .config
      (match found with
      | .invalid line => invoke (.say line)
      | .exists line => invoke (.say line)
      -- the line is written when all its parts have been evaluated
      | .conflict line a error => (invoke (.toString a error)).seq (invoke (.say line))
      | .stored => .ret)
  | .find => reading .config .ret
  | .visit args => reading .config (each args fun (a, error) ↦ invoke (.toString a error))
  | .load args => each args fun arg ↦
      (invoke .find).seq (arg.elim .ret fun (a, c) ↦ invoke (.fromString a c))
  | .schedule s line => (exclusively (.scheduler s) .ret).seq (sayIf line)
  | .queue s => exclusively (.scheduler s) .ret
  | .start s error => exclusively (.scheduler s) (sayIf error)
  | .addEvent s fd grow outcome =>
    ((reading (.table s) .ret).seq (if grow then exclusively (.table s) .ret else .ret)).seq
      (onFd s fd outcome)
  | .changeEvent s fd inTable outcome =>
    (reading (.table s) .ret).seq (if inTable then onFd s fd outcome else .ret)
  | .report s fd outcome => onFd s fd outcome

/-! ## Their order -/

/-- The configuration comes first, then the fds and the schedulers, and the loggers come last. -/
def rank : Mutex → Nat
  | .config => 0
  | .arg _ => 1
  | .table _ => 2
  | .fd _ _ => 3
  | .scheduler _ => 4
  | .log m => 5 + Locking.rank m

/-- The rank of the first lock of an operation. -/
def need : Op → Nat
  | .log o => 5 + Locking.rank (Locking.first o)
  | .say line => 5 + Locking.rank (.logger line.logger)
  | .lookUp _ | .find | .visit _ | .load _ => 0
  | .toString _ _ | .getValue _ | .listeners _ | .setValue _ _ | .fromString _ _ => 1
  | .addEvent _ _ _ _ | .changeEvent _ _ _ _ => 2
  | .report _ _ _ => 3
  | .schedule _ _ | .queue _ | .start _ _ => 4

variable {held : List (Mutex × Mode)} {p : FrameProg} {s : SchedulerId} {a : ArgId} {fd n : Nat}

/-- The programs that hold the same locks in the end as in the beginning. -/
abbrev Keeps (held : List (Mutex × Mode)) (p : FrameProg) : Prop :=
  Fits (fun x ↦ rank x.1) need Locking.Rooted held p held

/-- All locks that are held come before the rank `n`. -/
def Below (held : List (Mutex × Mode)) (n : Nat) : Prop := ∀ x ∈ held, rank x.1 < n

theorem Below.mono {n' : Nat} (h : Below held n) (hn : n ≤ n') : Below held n' :=
  fun x hx ↦ (h x hx).trans_le hn

theorem Below.cons {m : Mutex} {mode : Mode} (h : Below held (rank m)) (hm : rank m < n) :
    Below ((m, mode) :: held) n := by
  intro x hx
  rcases List.mem_cons.mp hx with rfl | hx
  · exact hm
  · exact h.mono hm.le x hx

theorem keeps_invoke {o : Op} (h : Below held (need o)) : Keeps held (invoke o) := fits_invoke h

theorem keeps_reading {m : Mutex} (h : Below held (rank m)) (hp : Keeps ((m, .shared) :: held) p) :
    Keeps held (reading m p) :=
  fits_locked h hp

theorem keeps_exclusively {m : Mutex} (h : Below held (rank m))
    (hp : Keeps ((m, .exclusive) :: held) p) : Keeps held (exclusively m p) :=
  fits_locked h hp

theorem keeps_say (h : Below held 5) (line : Line) : Keeps held (invoke (.say line)) :=
  keeps_invoke (h.mono (Nat.le_add_right 5 _))

theorem keeps_sayIf (h : Below held 5) (line : Option Line) : Keeps held (sayIf line) := by
  cases line with
  | none => exact fits_ret
  | some line => exact keeps_say h line

theorem keeps_fulfil (h : Below held 5) (d : Duty) : Keeps held (fulfil d) := by
  cases d with
  | say line => exact keeps_say h line
  | log o => exact keeps_invoke (h.mono (Nat.le_add_right 5 _))

theorem keeps_onFd (h : Below held 3) (outcome : Outcome) : Keeps held (onFd s fd outcome) := by
  have h : Below held (rank (.fd s fd)) := h
  apply keeps_exclusively h
  cases outcome with
  | nothing | done => exact fits_ret
  | error line => exact keeps_say (h.cons (by simp [rank])) line
  | triggered events =>
      apply fits_each
      rintro ⟨s', line⟩ -
      exact keeps_invoke (h.cons (by simp [rank, need]))

/-- The operations of loggers fit under all the other locks. -/
theorem keeps_log (o : LogOp) (h : Below held (need (.log o))) : Keeps held (body (.log o)) := by
  have hbase : ∀ m ∈ held.filterMap (fun x ↦ match x.1 with | .log m => some m | _ => none),
      Locking.rank m < Locking.rank (Locking.first o) := by
    intro m hm
    obtain ⟨⟨m', mode⟩, hx, hm'⟩ := List.mem_filterMap.mp hm
    have hlt := h _ hx
    cases m' with
    | log m' =>
        obtain rfl := Option.some.inj hm'
        exact Nat.lt_of_add_lt_add_left hlt
    | _ => cases hm'
  -- a lock that is held is a logger's, or comes before all of them
  have hbelow : ∀ x ∈ held, ∀ n,
      (∀ b ∈ held.filterMap (fun x ↦ match x.1 with | .log m => some m | _ => none),
      Locking.rank b < n) → rank x.1 < 5 + n := by
    rintro ⟨m, mode⟩ hx n hn
    cases m with
    | log m => exact Nat.add_lt_add_left (hn m (List.mem_filterMap.mpr ⟨_, hx, rfl⟩)) 5
    | _ => simp only [rank]; omega
  refine fits_embed Mutex.log Op.log ?_ ?_ (fun x hx l hl ↦ ?_) (fun x hx o ho ↦ ?_) (fun _ hs ↦ hs)
    (fun _ _ _ hx ↦ hx) (Locking.fits_body o [] nofun) (Locking.fits_body o _ hbase)
  · exact fun l l' hl ↦ Nat.add_lt_add_left hl 5
  · exact fun l o hl ↦ Nat.add_lt_add_left hl 5
  · exact hbelow x hx _ hl
  · exact hbelow x hx _ ho

theorem keeps_setValue (h : Below held (rank (.arg a))) (change : Option Change) :
    Keeps held (body (.setValue a change)) := by
  cases change with
  | none => exact keeps_reading h fits_ret
  | some c =>
      refine Fits.seq (keeps_reading h (fits_each fun d _ ↦ ?_)) ?_
      · exact keeps_fulfil (h.cons (by simp [rank])) d
      · split
        · exact fits_ret
        · exact keeps_exclusively h fits_ret

theorem keeps_lookUp (h : Below held (rank .config)) (found : LookUp) :
    Keeps held (body (.lookUp found)) := by
  have hsay : ∀ line, Keeps ((.config, .shared) :: held) (invoke (.say line)) :=
    keeps_say (h.cons (by simp [rank]))
  apply keeps_reading h
  cases found with
  | invalid line => exact hsay line
  | «exists» line => exact hsay line
  | conflict line a error =>
      exact (keeps_invoke (h.cons (by simp [rank, need]))).seq (hsay line)
  | stored => exact fits_ret

/-- Every operation takes its locks in the order of their ranks. -/
theorem keeps_body (o : Op) (held : List (Mutex × Mode)) (h : Below held (need o)) :
    Keeps held (body o) := by
  cases o with
  | log o => exact keeps_log o h
  | say line =>
      apply fits_load
      intro s _
      split
      · exact fits_invoke h
      · exact fits_ret
  | toString a error =>
      have h : Below held (rank (.arg a)) := h
      exact (keeps_reading h fits_ret).seq (keeps_sayIf (h.mono (by simp [rank])) error)
  | getValue a | listeners a =>
      have h : Below held (rank (.arg a)) := h
      exact keeps_reading h fits_ret
  | setValue a change => exact keeps_setValue h change
  | fromString a c =>
      have hsay := keeps_say (h.mono (by simp [need])) c.line
      simp only [body]
      split
      · exact hsay
      · refine Fits.seq (keeps_invoke h) ?_
        split
        · exact hsay
        · exact fits_ret
  | lookUp found => exact keeps_lookUp h found
  | find => exact keeps_reading (m := .config) h fits_ret
  | visit args =>
      have h : Below held (rank .config) := h
      apply keeps_reading h
      apply fits_each
      rintro ⟨a, error⟩ -
      exact keeps_invoke (h.cons (by simp [rank, need]))
  | load args =>
      apply fits_each
      intro arg _
      apply Fits.seq (keeps_invoke h)
      cases arg with
      | none => exact fits_ret
      | some arg => exact keeps_invoke (h.mono (Nat.zero_le 1))
  | schedule s line =>
      have h : Below held (rank (.scheduler s)) := h
      exact (keeps_exclusively h fits_ret).seq (keeps_sayIf (h.mono (by simp [rank])) line)
  | queue s =>
      have h : Below held (rank (.scheduler s)) := h
      exact keeps_exclusively h fits_ret
  | start s error =>
      have h : Below held (rank (.scheduler s)) := h
      exact keeps_exclusively h (keeps_sayIf (h.cons (by simp [rank])) error)
  | addEvent s fd grow outcome =>
      have h : Below held (rank (.table s)) := h
      refine ((keeps_reading h fits_ret).seq ?_).seq (keeps_onFd (h.mono (by simp [rank])) outcome)
      split
      · exact keeps_exclusively h fits_ret
      · exact fits_ret
  | changeEvent s fd inTable outcome =>
      have h : Below held (rank (.table s)) := h
      refine (keeps_reading h fits_ret).seq ?_
      split
      · exact keeps_onFd (h.mono (by simp [rank])) outcome
      · exact fits_ret
  | report s fd outcome => exact keeps_onFd h outcome

/-! ## Threads -/

abbrev Threads (T : Type) := SharedLocks.Machine Mutex Shared Op T

/-- Whatever the threads of a program do with the framework, none waits for itself, directly or
through others, and as long as there is something left to do, some thread can go on. -/
theorem framework_deadlock_free {T : Type} [DecidableEq T] [Finite T] {m : Threads T}
    {moves : List (Move Op T)}
    (h : Run (Of (SharedLocks.Machine.step body)) (SharedLocks.Machine.idle .new) moves m) :
    (∀ t, ¬ Relation.TransGen m.WaitsFor t t) ∧
      ∀ t, m.prog t ≠ .ret → ∃ u m', SharedLocks.Machine.resume body m u = some m' := by
  have hordered := SharedLocks.Machine.run_ordered keeps_body h
    (SharedLocks.Machine.idle_ordered Locking.new_rooted)
  exact ⟨hordered.acyclic, fun t ht ↦ hordered.progress ht⟩

/-- A thread sets the loggers up from a listener, which another one dumps meanwhile: the first holds
the argument and waits for the manager. -/
def setUp : List (Move Op Bool) :=
  [.start false (.setValue 0 (some ⟨[.log (.getLogger "system")], false⟩)), .resume false, .resume false,
    .resume false, .start true (.log .dumpManager), .resume true, .resume true]

theorem framework_deadlock_free_setUp : ∃ m : Threads Bool,
    Run (Of (SharedLocks.Machine.step body)) (SharedLocks.Machine.idle .new) setUp m ∧
    m.WaitsFor false true ∧ ¬ Relation.TransGen m.WaitsFor false false ∧
    ∃ u m', SharedLocks.Machine.resume body m u = some m' := by
  obtain ⟨m, hrun, hm⟩ := exists_run (SharedLocks.Machine.step (T := Bool) body) (fun _ _ ↦ true)
    (fun _ _ _ hstep _ ↦ hstep) (SharedLocks.Machine.idle .new) setUp
    (P := fun m ↦ match m.prog false with
      | .lock (l, mode) _ => l == .log .manager && mode == .exclusive &&
        (m.holders (.log .manager)).contains (true, .exclusive)
      | _ => false) (by decide +kernel)
  have hfree := framework_deadlock_free hrun
  split at hm
  · rename_i l mode k hprog
    obtain ⟨hwaits, hholds⟩ := Bool.and_eq_true_iff.mp hm
    obtain ⟨hl, hmode⟩ := Bool.and_eq_true_iff.mp hwaits
    obtain rfl := beq_iff_eq.mp hl
    obtain rfl := beq_iff_eq.mp hmode
    refine ⟨m, hrun, ?_, hfree.1 false, hfree.2 false (by rw [hprog]; nofun)⟩
    exact ⟨.log .manager, .exclusive, .exclusive, ⟨k, hprog⟩, List.contains_iff_mem.mp hholds, .inl rfl⟩
  · cases hm

end Server.Framework
