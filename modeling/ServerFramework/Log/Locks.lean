import ServerFramework.Log.Registry
import ServerFramework.Log.Format
import ServerFramework.Library.SharedLocks
import Mathlib.Data.List.Sort

/-!
# The locks of logging

Every logger, every appender and the `LoggerManager` has a spinlock, and `Logger::log` calls into the
appenders and the root logger while it holds the logger's.  The operations are programs over the
locks; results that decide about no lock are left out.
-/

namespace Server.Log

open Runs Locks

/-- The mutexes. -/
inductive Mutex where
  | manager
  | logger (l : LoggerId)
  | appender (a : AppenderId)
  deriving DecidableEq, Repr

/-- What a file appender or a console appender has formatted. -/
structure Output where
  appender : AppenderId
  formatter : Option LogFormatter
  logger : LoggerId
  level : Level
  event : LogEvent
  deriving DecidableEq, Repr

/-- What the threads share. -/
structure Shared extends Registry where
  /-- the keys of `m_loggers`, in their order -/
  labels : List String
  /-- `m_lastTime` of the file appenders -/
  lastTime : AppenderId → BitVec 64
  written : List Output

namespace Shared

/-- After `LoggerManager()`. -/
def new : Shared := ⟨.new, ["root"], fun _ ↦ 0, []⟩

def update (s : Shared) (f : Registry → Registry) : Shared := { s with toRegistry := f s.toRegistry }

/-- `getLogger(name)` with the lock of the manager. -/
def getLogger (name : String) (s : Shared) : Shared :=
  { s with
    toRegistry := (s.toRegistry.getLogger name).2
    labels := if (s.loggers name).isNone then s.labels.orderedInsert (· ≤ ·) name else s.labels }

end Shared

/-- The operations that take locks. -/
inductive LogOp where
  /-- `Logger::log` -/
  | log (l : LoggerId) (level : Level) (event : LogEvent)
  /-- `StdoutLogAppender::log` or `FileLogAppender::log` -/
  | write (a : AppenderId) (logger : LoggerId) (level : Level) (event : LogEvent)
  | addAppender (l : LoggerId) (a : AppenderId)
  | delAppender (l : LoggerId) (a : AppenderId)
  | clearAppenders (l : LoggerId)
  /-- `Logger::setFormatter(const std::string&)` -/
  | setPattern (l : LoggerId) (val : String)
  /-- `Logger::setFormatter(LogFormatter::ptr)` -/
  | setFormatter (l : LoggerId) (val : LogFormatter)
  /-- `Logger::toYamlString` -/
  | toYamlString (l : LoggerId)
  /-- the constructors of the appenders -/
  | makeAppender (target : Target)
  /-- `LogAppender::setFormatter` -/
  | setOwn (a : AppenderId) (val : Option LogFormatter)
  /-- `LogAppender::getFormatter` -/
  | getFormatter (a : AppenderId)
  | reopen (a : AppenderId)
  /-- `toYamlString` of an appender -/
  | dumpAppender (a : AppenderId)
  /-- `LoggerManager::getLogger` -/
  | getLogger (name : String)
  /-- `LoggerManager::toYamlString` -/
  | dumpManager
  deriving DecidableEq, Repr

namespace Locking

abbrev LogProg := Prog Mutex Shared LogOp

open Prog

/-! ## The programs -/

/-- `LogAppender::getFormatter`, with what is done with the formatter. -/
def askFormatter (a : AppenderId) (k : Option LogFormatter → LogProg) : LogProg :=
  .lock (.appender a) (load fun s ↦ .unlock (.appender a) (k (s.appender a).formatter))

/-- The critical section of `log` of an appender. -/
def format (a : AppenderId) (logger : LoggerId) (level : Level) (event : LogEvent) : LogProg :=
  locked (.appender a) (store fun s ↦
    { s with written := s.written ++ [⟨a, (s.appender a).formatter, logger, level, event⟩] })

/-- `FileLogAppender::log` reopens its file, with a lock of its own, before it takes its lock. -/
def writeFile (a : AppenderId) (logger : LoggerId) (level : Level) (event : LogEvent) : LogProg :=
  let now : BitVec 64 := event.getTime.setWidth 64
  (load fun s ↦
    if now ≥ s.lastTime a + 3 then
      (invoke (.reopen a)).seq (store fun s ↦ { s with lastTime := Function.update s.lastTime a now })
    else .ret).seq (format a logger level event)

/-- The loop of `Logger::setFormatter` over the appenders. -/
def passFormatter (l : LoggerId) (val : LogFormatter) : LogProg :=
  locked (.logger l)
    ((store (·.update fun r ↦ r.setLogger l { r.logger l with formatter := val })).seq
      (load fun s ↦ each (s.logger l).appenders fun i ↦
        locked (.appender i) (store (·.update fun r ↦ r.setAppender i ((r.appender i).inherit val)))))

def body : LogOp → LogProg
  | .log l level event =>
    load fun s ↦
      if level.value ≥ (s.logger l).level.value then
        locked (.logger l) (load fun s ↦
          if !(s.logger l).appenders.isEmpty then
            each (s.logger l).appenders fun appender ↦ invoke (.write appender l level event)
          else
            match (s.logger l).root with
            | some root => invoke (.log root level event)
            | none => .ret)
      else .ret
  | .write a logger level event =>
    load fun s ↦
      if level.value ≥ (s.appender a).level.value then
        match (s.appender a).target with
        | .file _ => writeFile a logger level event
        | .stdout => format a logger level event
      else .ret
  | .addAppender l a =>
    locked (.logger l)
      ((askFormatter a fun formatter ↦
        if formatter.isNone then
          locked (.appender a) (store (·.update fun r ↦
            r.setAppender a { r.appender a with formatter := some (r.logger l).formatter }))
        else .ret).seq
        (store (·.update fun r ↦
          r.setLogger l { r.logger l with appenders := (r.logger l).appenders ++ [a] })))
  | .delAppender l a => locked (.logger l) (store (·.update (·.delAppender l a)))
  | .clearAppenders l => locked (.logger l) (store (·.update (·.clearAppenders l)))
  | .setPattern l val =>
    let newVal := LogFormatter.init val
    if newVal.isError then .ret else invoke (.setFormatter l newVal)
  | .setFormatter l val => passFormatter l val
  | .toYamlString l =>
    locked (.logger l) (load fun s ↦ each (s.logger l).appenders fun i ↦ invoke (.dumpAppender i))
  | .makeAppender target =>
    .atomic (·.update (·.makeAppender target)) fun s ↦
      match target with
      | .file _ => invoke (.reopen s.nextAppender)
      | .stdout => .ret
  | .setOwn a val =>
    locked (.appender a)
      (store (·.update fun r ↦ r.setAppender a ((r.appender a).setFormatter val)))
  | .getFormatter a => askFormatter a fun _ ↦ .ret
  | .reopen a => locked (.appender a) .ret
  | .dumpAppender a => locked (.appender a) .ret
  | .getLogger name => locked .manager (store (Shared.getLogger name))
  | .dumpManager =>
    locked .manager (load fun s ↦
      each (s.labels.filterMap s.loggers) fun l ↦ invoke (.toYamlString l))

/-! ## Their order -/

/-- The manager's lock comes first, the root logger's after those of the other loggers, and the
appenders' come last. -/
def rank : Mutex → Nat
  | .manager => 0
  | .logger l => if l = 0 then 2 else 1
  | .appender _ => 3

/-- The first lock that an operation takes. -/
def first : LogOp → Mutex
  | .log l _ _ | .addAppender l _ | .delAppender l _ | .clearAppenders l | .setPattern l _
  | .setFormatter l _ | .toYamlString l => .logger l
  | .write a _ _ _ | .setOwn a _ | .getFormatter a | .reopen a | .dumpAppender a => .appender a
  | .makeAppender _ => .appender 0
  | .getLogger _ | .dumpManager => .manager

/-- The logger 0 is the root logger, and the others' links lead there. -/
structure Rooted (s : Shared) : Prop where
  root : s.root = 0
  exists_root : 0 < s.nextLogger
  link : ∀ l k, (s.logger l).root = some k → k = 0 ∧ l ≠ 0

variable {s : Shared} {held : List Mutex} {p : LogProg} {a : AppenderId} {l : LoggerId}

/-- The programs that hold the same locks in the end as in the beginning. -/
abbrev Keeps (held : List Mutex) (p : LogProg) : Prop :=
  Fits rank (fun o ↦ rank (first o)) Rooted held p held

theorem Rooted.setLogger (h : Rooted s) {v : LoggerObject} (hv : v.root = (s.logger l).root) :
    Rooted (s.update (·.setLogger l v)) := by
  refine ⟨h.root, h.exists_root, fun k root hk ↦ ?_⟩
  have hk : (Function.update s.logger l v k).root = some root := hk
  by_cases hkl : k = l
  · rw [hkl, Function.update_self, hv] at hk
    exact hkl ▸ h.link l root hk
  · rw [Function.update_of_ne hkl] at hk
    exact h.link k root hk

theorem Rooted.getLogger (h : Rooted s) (name : String) : Rooted (s.getLogger name) := by
  -- the labels do not matter here, only the registry
  have hsame : Rooted { s with toRegistry := (s.toRegistry.getLogger name).2 } := by
    unfold Registry.getLogger
    split
    · exact h
    · refine ⟨h.root, Nat.lt_succ_of_lt h.exists_root, fun l k hk ↦ ?_⟩
      have hk : (Function.update (Function.update s.logger s.nextLogger (.new name)) s.nextLogger
        { Function.update s.logger s.nextLogger (LoggerObject.new name) s.nextLogger with
          root := some s.root } l).root = some k := hk
      -- only the new logger gets a link, and the root logger exists already
      by_cases hl : l = s.nextLogger
      · rw [hl, Function.update_self] at hk
        exact ⟨(Option.some.inj hk).symm.trans h.root, hl ▸ Nat.ne_of_gt h.exists_root⟩
      · rw [Function.update_of_ne hl, Function.update_of_ne hl] at hk
        exact h.link l k hk
  exact ⟨hsame.root, hsame.exists_root, hsame.link⟩

theorem Rooted.setAppender (h : Rooted s) (f : Registry → AppenderId → LogAppender) :
    Rooted (s.update fun r ↦ { r with appender := f r }) :=
  ⟨h.root, h.exists_root, h.link⟩

theorem rank_logger_lt (l : LoggerId) (a : AppenderId) : rank (.logger l) < rank (.appender a) := by
  show (if l = 0 then 2 else 1) < 3
  split <;> decide

/-- A logger's lock and those taken before it come before an appender's. -/
theorem lt_appender (h : ∀ k ∈ held, rank k < rank (.logger l)) (a : AppenderId) :
    ∀ k ∈ .logger l :: held, rank k < rank (.appender a) := by
  intro k hk
  have hl := rank_logger_lt l a
  rcases List.mem_cons.mp hk with rfl | hk
  · exact hl
  · exact (h k hk).trans hl

theorem lt_root (h : ∀ k ∈ held, rank k < rank (.logger l)) (hl : l ≠ 0) :
    ∀ k ∈ .logger l :: held, rank k < rank (.logger 0) := by
  have hrank : rank (.logger l) < rank (.logger 0) := by
    show (if l = 0 then 2 else 1) < 2
    rw [if_neg hl]
    decide
  intro k hk
  rcases List.mem_cons.mp hk with rfl | hk
  · exact hrank
  · exact (h k hk).trans hrank

theorem fits_askFormatter (h : ∀ k ∈ held, rank k < rank (.appender a))
    {k : Option LogFormatter → LogProg} (hk : ∀ f, Keeps held (k f)) :
    Keeps held (askFormatter a k) :=
  ⟨h, fits_load fun _ _ ↦ ⟨held, rfl, hk _⟩⟩

theorem fits_format (h : ∀ k ∈ held, rank k < rank (.appender a)) (logger : LoggerId) (level : Level)
    (event : LogEvent) : Keeps held (format a logger level event) :=
  fits_locked h (fits_store fun _ hs ↦ ⟨hs.root, hs.exists_root, hs.link⟩)

theorem fits_writeFile (h : ∀ k ∈ held, rank k < rank (.appender a)) (logger : LoggerId)
    (level : Level) (event : LogEvent) : Keeps held (writeFile a logger level event) := by
  apply Fits.seq _ (fits_format h logger level event)
  apply fits_load
  intro s _
  split
  · exact (fits_invoke h).seq (fits_store fun _ hs ↦ ⟨hs.root, hs.exists_root, hs.link⟩)
  · exact fits_ret

theorem fits_passFormatter (h : ∀ k ∈ held, rank k < rank (.logger l)) (val : LogFormatter) :
    Keeps held (passFormatter l val) := by
  apply fits_locked h
  apply Fits.seq (fits_store fun s hs ↦ hs.setLogger rfl)
  apply fits_load
  intro s _
  apply fits_each
  intro i _
  exact fits_locked (lt_appender h i) (fits_store fun s hs ↦ hs.setAppender _)

/-- Under the logger's lock `log` takes those of the appenders, or the root logger's. -/
theorem fits_log (h : ∀ k ∈ held, rank k < rank (.logger l)) (level : Level) (event : LogEvent) :
    Keeps held (body (.log l level event)) := by
  apply fits_load
  intro s _
  split
  · apply fits_locked h
    apply fits_load
    intro s hs
    split
    · apply fits_each
      intro i _
      exact fits_invoke (lt_appender h i)
    -- `m_root->log` takes the root logger's lock under the logger's own
    · cases hroot : (s.logger l).root with
      | none => exact fits_ret
      | some root =>
          obtain ⟨rfl, hl⟩ := hs.link l root hroot
          exact fits_invoke (lt_root h hl)
  · exact fits_ret

theorem fits_addAppender (h : ∀ k ∈ held, rank k < rank (.logger l)) (a : AppenderId) :
    Keeps held (body (.addAppender l a)) := by
  have happender := lt_appender h a
  apply fits_locked h
  -- `getFormatter` and `setFormatter` take the appender's lock one after the other
  apply Fits.seq _ (fits_store fun s hs ↦ hs.setLogger rfl)
  apply fits_askFormatter happender
  intro f
  split
  · exact fits_locked happender (fits_store fun s hs ↦ hs.setAppender _)
  · exact fits_ret

/-- Every operation takes its locks in the order of their ranks. -/
theorem fits_body (o : LogOp) (held : List Mutex) (h : ∀ k ∈ held, rank k < rank (first o)) :
    Keeps held (body o) := by
  cases o with
  | log l level event => exact fits_log h level event
  | write a logger level event =>
      apply fits_load
      intro s _
      split
      · split
        · exact fits_writeFile h logger level event
        · exact fits_format h logger level event
      · exact fits_ret
  | addAppender l a => exact fits_addAppender h a
  | delAppender l a => exact fits_locked h (fits_store fun s hs ↦ hs.setLogger rfl)
  | clearAppenders l => exact fits_locked h (fits_store fun s hs ↦ hs.setLogger rfl)
  | setPattern l val =>
      unfold body
      dsimp only
      split
      · exact fits_ret
      · exact fits_invoke h
  | setFormatter l val => exact fits_passFormatter h val
  | toYamlString l =>
      apply fits_locked h
      apply fits_load
      intro s _
      apply fits_each
      intro i _
      exact fits_invoke (lt_appender h i)
  | makeAppender target =>
      intro s hs
      refine ⟨⟨hs.root, hs.exists_root, hs.link⟩, ?_⟩
      cases target with
      | file _ => exact fits_invoke h
      | stdout => exact fits_ret
  | setOwn a val => exact fits_locked h (fits_store fun s hs ↦ hs.setAppender _)
  | getFormatter a => exact fits_askFormatter h fun _ ↦ fits_ret
  | reopen a => exact fits_locked h fits_ret
  | dumpAppender a => exact fits_locked h fits_ret
  | getLogger name => exact fits_locked h (fits_store fun s hs ↦ hs.getLogger name)
  | dumpManager =>
      apply fits_locked h
      apply fits_load
      intro s _
      apply fits_each
      intro l _
      apply fits_invoke
      intro k hk
      -- the manager's lock is the only one that is held
      rcases List.mem_cons.mp hk with rfl | hk
      · show 0 < if l = 0 then 2 else 1
        split <;> decide
      · exact absurd (h k hk) (Nat.not_lt_zero _)

/-! ## Threads -/

variable {T : Type} [DecidableEq T] {m : Machine Mutex Shared LogOp T} {moves : List (Move LogOp T)}

theorem new_rooted : Rooted .new := by
  refine ⟨rfl, by decide, fun l k hk ↦ ?_⟩
  have hl : ∀ l, (Registry.new.logger l).root = none := by
    intro l
    show (Function.update (Function.update (fun _ ↦ LoggerObject.new "") 0 (.new "root")) 0
      _ l).root = none
    by_cases hl : l = 0
    · rw [hl, Function.update_self]
      rfl
    · rw [Function.update_of_ne hl, Function.update_of_ne hl]
      rfl
  have hk : (Registry.new.logger l).root = some k := hk
  rw [hl] at hk
  cases hk

/-- However threads log and change loggers, none waits for itself, directly or through others. -/
theorem logging_acyclic (h : Run (Of (Machine.step body)) (.idle .new) moves m) :
    (∀ t, ¬ Relation.TransGen m.WaitsFor t t) ∧ ∀ t l, m.Waits t l → m.owner l ≠ some t := by
  have hacyclic := SharedLocks.Machine.ofOwners_acyclic fits_body h new_rooted
  exact ⟨hacyclic, fun t l hwaits howner ↦ hacyclic t (.single ⟨l, hwaits, howner⟩)⟩

/-- One thread logs to the root logger while another one waits to attach an appender to it. -/
theorem logging_acyclic_waiting : ∃ (moves : List (Move LogOp Bool)) (m : Machine Mutex Shared LogOp Bool),
    Run (Of (Machine.step body)) (.idle .new) moves m ∧ m.WaitsFor true false ∧
      ¬ Relation.TransGen m.WaitsFor true true := by
  obtain ⟨m, hrun, hm⟩ := exists_run (Machine.step (T := Bool) body) (fun _ _ ↦ true)
    (fun _ _ _ hstep _ ↦ hstep) (.idle .new)
    [.start false (.log 0 .info ⟨"", 0, 0, 0, 0, 0, "", "", ""⟩), .resume false, .resume false,
      .resume false, .start true (.addAppender 0 0), .resume true]
    (P := fun m ↦ match m.prog true with
      | .lock l _ => l == .logger 0 && m.owner (.logger 0) == some false
      | _ => false) (by decide +kernel)
  refine ⟨_, m, hrun, ?_, (logging_acyclic hrun).1 true⟩
  split at hm
  · rename_i l k hprog
    obtain ⟨hl, howner⟩ := Bool.and_eq_true_iff.mp hm
    obtain rfl := beq_iff_eq.mp hl
    exact ⟨.logger 0, ⟨k, hprog⟩, beq_iff_eq.mp howner⟩
  · cases hm

end Locking

end Server.Log
