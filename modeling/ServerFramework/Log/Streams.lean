import ServerFramework.Library.Sections
import ServerFramework.Log.Dispatch
import ServerFramework.Log.Locks

/-!
# What reaches the streams

An appender writes a record item by item, and `Logger::log` calls the appenders one by one, while
other threads do the same.  The programs of `Locking` are refined here to single insertions into the
streams.
-/

namespace Server.Log.Records

open Runs Locks Locks.Machine Prog Locking

/-- Where an appender writes to. -/
inductive Stream where
  | cout
  /-- its own `m_filestream` -/
  | filestream
  deriving DecidableEq, Repr

/-- One insertion into a stream, with the call of `format` that it belongs to. -/
structure Chunk (T : Type) where
  thread : T
  stream : Stream
  call : Output
  text : List Char
  deriving DecidableEq, Repr

/-- What the threads share, with what the streams have got. -/
structure Sinks (T : Type) where
  shared : Shared
  /-- how often the file of an appender has been opened -/
  opens : AppenderId → Nat
  chunks : List (Chunk T)

/-- The operations, each with the thread that executes it. -/
abbrev Call (T : Type) := T × LogOp

abbrev StreamProg (T : Type) := Prog Mutex (Sinks T) (Call T)

/-- What the threads cannot influence: the environment of the format items, and whether the `n`-th
`open` of an appender's file succeeds. -/
structure Host where
  env : Environment
  disk : AppenderId → Nat → Bool

variable {T : Type}

namespace Sinks

def put (shared : Shared) (s : Sinks T) : Sinks T := { s with shared := shared }

def write (s : Sinks T) (chunk : Chunk T) : Sinks T := { s with chunks := s.chunks ++ [chunk] }

def reopen (s : Sinks T) (a : AppenderId) : Sinks T :=
  { s with opens := Function.update s.opens a (s.opens a + 1) }

end Sinks

/-! ## The programs -/

/-- The insertions of `m_formatter->format`. -/
def recordOf (h : Host) (t : T) (stream : Stream) (o : Output) : List (Chunk T) :=
  -- a null pointer ends the process, and what comes after it does not matter
  (o.formatter.elim [] LogFormatter.items).map fun i ↦
    ⟨t, stream, o, i.format h.env o.level o.event⟩

/-- The stream that `log` of an appender hands to its formatter. -/
def streamOf : Target → Stream
  | .stdout => .cout
  | .file _ => .filestream

/-- A file stream that is not open takes nothing, and `FileLogAppender::log` says so. -/
def failure (t : T) (o : Output) : List (Chunk T) :=
  ["error".toList, ['\n']].map fun text ↦ ⟨t, .cout, o, text⟩

/-- The insertions of an appender for an event. -/
def output (h : Host) (s : Sinks T) (t : T) (a : AppenderId) (logger : LoggerId) (level : Level)
    (event : LogEvent) : List (Chunk T) :=
  let appender := s.shared.appender a
  let o : Output := ⟨a, appender.formatter, logger, level, event⟩
  let record := recordOf h t (streamOf appender.target) o
  match appender.target with
  | .stdout => record
  | .file _ => if appender.formatter.isNone || h.disk a (s.opens a) then record else failure t o

/-- The critical section of `log` of an appender, item by item. -/
def format (h : Host) (t : T) (a : AppenderId) (logger : LoggerId) (level : Level) (event : LogEvent) :
    StreamProg T :=
  locked (.appender a) (load fun s ↦
    each (output h s t a logger level event) fun chunk ↦ store (·.write chunk))

/-- What `FileLogAppender::log` does before it takes its lock. -/
def reopenDue (t : T) (a : AppenderId) (event : LogEvent) : StreamProg T :=
  let now : BitVec 64 := event.getTime.setWidth 64
  load fun s ↦
    if now ≥ s.shared.lastTime a + 3 then
      (invoke (t, .reopen a)).seq (store fun s ↦
        s.put { s.shared with lastTime := Function.update s.shared.lastTime a now })
    else .ret

/-- The operations of `Locking`, those of the appenders in single insertions. -/
def body (h : Host) : Call T → StreamProg T
  | (t, .write a logger level event) =>
    load fun s ↦
      if level.value ≥ (s.shared.appender a).level.value then
        match (s.shared.appender a).target with
        | .file _ => (reopenDue t a event).seq (format h t a logger level event)
        | .stdout => format h t a logger level event
      else .ret
  | (_, .reopen a) => locked (.appender a) (store (·.reopen a))
  | (t, o) => (Locking.body o).zoom Sinks.shared Sinks.put fun o ↦ (t, o)

/-- The output of the threads. -/
def outlet (inv : Sinks T → Prop) : Outlet (Sinks T) (Chunk T) := ⟨inv, Sinks.chunks⟩

variable {h : Host} {s : Sinks T} {t : T} {a b : AppenderId} {logger : LoggerId} {level : Level}
  {event : LogEvent}

theorem write_outlet {inv : Sinks T → Prop} (hinv : ∀ s chunk, inv s → inv (s.write chunk))
    (chunk : Chunk T) (s : Sinks T) (hs : (outlet inv).inv s) :
    (outlet inv).inv (s.write chunk) ∧
      (outlet inv).out (s.write chunk) = (outlet inv).out s ++ [chunk] :=
  ⟨hinv s chunk hs, rfl⟩

theorem mem_recordOf {stream : Stream} {o : Output} {chunk : Chunk T}
    (hc : chunk ∈ recordOf h t stream o) : chunk.thread = t ∧ chunk.call = o := by
  obtain ⟨i, -, rfl⟩ := List.mem_map.mp hc
  exact ⟨rfl, rfl⟩

theorem mem_failure {o : Output} {chunk : Chunk T} (hc : chunk ∈ failure t o) :
    chunk.thread = t ∧ chunk.call = o := by
  obtain ⟨text, -, rfl⟩ := List.mem_map.mp hc
  exact ⟨rfl, rfl⟩

/-- An appender inserts one record, or says that it cannot. -/
theorem output_cases (h : Host) (s : Sinks T) (t : T) (a : AppenderId) (logger : LoggerId)
    (level : Level) (event : LogEvent) : ∃ o : Output, o.appender = a ∧ o.logger = logger ∧
    (output h s t a logger level event = failure t o ∨
      ∃ stream, output h s t a logger level event = recordOf h t stream o) := by
  refine ⟨⟨a, (s.shared.appender a).formatter, logger, level, event⟩, rfl, rfl, ?_⟩
  unfold output
  dsimp only
  split
  · exact .inr ⟨_, rfl⟩
  · split
    · exact .inr ⟨_, rfl⟩
    · exact .inl rfl

theorem mem_output {chunk : Chunk T} (hc : chunk ∈ output h s t a logger level event) :
    chunk.thread = t ∧ chunk.call.appender = a ∧ chunk.call.logger = logger := by
  obtain ⟨o, ha, hlogger, hout⟩ := output_cases h s t a logger level event
  have hcall : chunk.thread = t ∧ chunk.call = o := by
    rcases hout with hout | ⟨stream, hout⟩
    · exact mem_failure (hout ▸ hc)
    · exact mem_recordOf (hout ▸ hc)
  rw [hcall.2]
  exact ⟨hcall.1, ha, hlogger⟩

end Server.Log.Records
