import ServerFramework.Log.Dispatch
import ServerFramework.Log.Records

/-!
# Many threads log

While the loggers and the appenders stay as they are and the files can be opened, what a thread logs
reaches every appender that `Logger::log` offers it to, once and in the order of the calls.  A
logger's lock is held over the whole of its `log`, so its appenders get the events in one order.
-/

namespace Server.Log.Records

open Runs Locks Locks.Machine Prog Locking

variable {T : Type} {h : Host} {r : Registry} {s : Sinks T} {t : T} {a : AppenderId}
  {k l logger : LoggerId} {level : Level} {event : LogEvent} {built : List LoggerId}
  {calls : List RegistryCall}

/-! ## What a call writes -/

/-- What an appender writes for an event. -/
def record (h : Host) (r : Registry) (t : T) (a : AppenderId) (logger : LoggerId) (level : Level)
    (event : LogEvent) : List (Chunk T) :=
  if level.value ≥ (r.appender a).level.value then
    recordOf h t (streamOf (r.appender a).target) ⟨a, (r.appender a).formatter, logger, level, event⟩
  else []

def recordOfCall (h : Host) (r : Registry) (t : T) : LogCall LogEvent → List (Chunk T)
  | .appender a self level event => record h r t a self level event
  | .root _ _ _ => []

/-- What an operation writes that changes no logger and no appender. -/
def emitted (h : Host) (r : Registry) : Call T → List (Chunk T)
  | (t, .log l level event) => ((r.log level event 2 l).getD []).flatMap (recordOfCall h r t)
  | (t, .write a logger level event) => record h r t a logger level event
  | _ => []

/-- The operations that change no logger and no appender, on loggers that exist. -/
def Reads (r : Registry) : LogOp → Prop
  | .log l _ _ => l < r.nextLogger
  | .write _ _ _ _ | .reopen _ | .toYamlString _ | .getFormatter _ | .dumpAppender _
  | .dumpManager => True
  | _ => False

/-- The loggers and the appenders stay as they are. -/
def fixed (r : Registry) (s : Sinks T) : Prop := s.shared.toRegistry = r

theorem fixed_write (s : Sinks T) (chunk : Chunk T) (hs : fixed r s) : fixed r (s.write chunk) := hs

theorem mem_record {chunk : Chunk T} (hc : chunk ∈ record h r t a logger level event) :
    chunk.thread = t ∧ chunk.call.appender = a ∧ chunk.call.logger = logger := by
  unfold record at hc
  split at hc
  · obtain ⟨hthread, hcall⟩ := mem_recordOf hc
    rw [hcall]
    exact ⟨hthread, rfl, rfl⟩
  · cases hc

/-- When the files can be opened, an appender writes the record. -/
theorem output_record (hdisk : ∀ a n, h.disk a n = true) (hs : fixed r s)
    (hlevel : level.value ≥ (r.appender a).level.value) :
    output h s t a logger level event = record h r t a logger level event := by
  obtain rfl : s.shared.toRegistry = r := hs
  unfold output record
  rw [if_pos hlevel]
  dsimp only
  split
  · rfl
  · rw [hdisk, Bool.or_true, if_pos rfl]

/-! ## The programs of logging -/

theorem body_log : body h (t, .log l level event) = load fun s ↦
    if level.value ≥ (s.shared.logger l).level.value then
      locked (.logger l) (load fun s ↦
        if !(s.shared.logger l).appenders.isEmpty then
          each (s.shared.logger l).appenders fun appender ↦ invoke (t, .write appender l level event)
        else
          match (s.shared.logger l).root with
          | some root => invoke (t, .log root level event)
          | none => .ret)
    else .ret := by
  have hput : ∀ s : Sinks T, Sinks.put s.shared s = s := fun _ ↦ rfl
  show (Locking.body (.log l level event)).zoom Sinks.shared Sinks.put (fun o ↦ (t, o)) = _
  rw [Locking.body, zoom_load hput]
  refine congrArg load (funext fun s ↦ ?_)
  split
  · refine (zoom_locked _ _).trans (congrArg (locked _) ?_)
    refine (zoom_load hput _).trans (congrArg load (funext fun s ↦ ?_))
    split
    · exact zoom_each _ _
    · cases (s.shared.logger l).root <;> rfl
  · rfl

theorem body_toYamlString : body h (t, .toYamlString l) = locked (.logger l) (load fun s ↦
    each (s.shared.logger l).appenders fun i ↦ invoke (t, .dumpAppender i)) := by
  show (Locking.body (.toYamlString l)).zoom Sinks.shared Sinks.put (fun o ↦ (t, o)) = _
  rw [Locking.body, zoom_locked, zoom_load fun _ ↦ rfl]
  exact congrArg (locked _) (congrArg load (funext fun s ↦ zoom_each _ _))

theorem body_dumpManager : body h (t, .dumpManager) = locked .manager (load fun s ↦
    each (s.shared.labels.filterMap s.shared.loggers) fun l ↦ invoke (t, .toYamlString l)) := by
  show (Locking.body .dumpManager).zoom Sinks.shared Sinks.put (fun o ↦ (t, o)) = _
  rw [Locking.body, zoom_locked, zoom_load fun _ ↦ rfl]
  exact congrArg (locked _) (congrArg load (funext fun s ↦ zoom_each _ _))

/-! ## What reaches the appenders -/

/-- The operations that a thread may begin. -/
def Own (r : Registry) (t : T) (o : Call T) : Prop := o.1 = t ∧ Reads r o.2

/-- A program writes these insertions of a thread, and nothing else. -/
abbrev Writes (h : Host) (r : Registry) (t : T) (p : StreamProg T) (v : List (Chunk T)) : Prop :=
  ∀ g, Safe (outlet (fixed r)) (collecting Mutex Chunk.thread t) (emission (emitted h r) (Own r) t) p
    (· = g ++ v) g

theorem writes_ret : Writes h r t .ret [] := fun g ↦ (List.append_nil g).symm

theorem writes_load {k : Sinks T → StreamProg T} {v : List (Chunk T)}
    (hk : ∀ s, fixed r s → Writes h r t (k s) v) : Writes h r t (load k) v :=
  fun g ↦ safe_load ⟨nofun, (List.append_nil g).symm⟩ fun s hs ↦ hk s hs g

theorem writes_locked {m : Mutex} {p : StreamProg T} {v : List (Chunk T)} (hp : Writes h r t p v) :
    Writes h r t (locked m p) v :=
  fun g ↦ safe_locked rfl ((hp g).mono fun g' hg' ↦ ⟨g', rfl, hg'⟩)

theorem writes_seq {p q : StreamProg T} {v w : List (Chunk T)} (hp : Writes h r t p v)
    (hq : Writes h r t q w) : Writes h r t (p.seq q) (v ++ w) := by
  refine fun g ↦ Safe.seq ((hp g).mono ?_)
  rintro _ rfl
  refine (hq _).mono fun g' hg' ↦ ?_
  rw [hg', List.append_assoc]

theorem writes_invoke {o : LogOp} (ho : Reads r o) : Writes h r t (invoke (t, o)) (emitted h r (t, o)) :=
  fun _ ↦ safe_invoke ⟨rfl, ho⟩ fun _ hg' ↦ hg'

/-- What writes nothing and leaves the loggers and the appenders as they are. -/
theorem writes_store {f : Sinks T → Sinks T} (hf : ∀ s, fixed r s → fixed r (f s))
    (hchunks : ∀ s, (f s).chunks = s.chunks) : Writes h r t (store f) [] := by
  refine fun g ↦ safe_store fun s hs ↦ ⟨hf s hs, [], g, ?_, ?_, (List.append_nil g).symm⟩
  · exact (hchunks s).trans (List.append_nil _).symm
  · exact ⟨nofun, (List.append_nil g).symm⟩

theorem writes_each {α : Type*} {xs : List α} {p : α → StreamProg T} {v : α → List (Chunk T)}
    (hp : ∀ x ∈ xs, Writes h r t (p x) (v x)) : Writes h r t (each xs p) (xs.flatMap v) := by
  induction xs with
  | nil => exact writes_ret
  | cons x xs ih =>
      have hrest := ih fun y hy ↦ hp y (List.mem_cons_of_mem _ hy)
      exact writes_seq (hp x List.mem_cons_self) hrest

theorem writes_each_nil {α : Type*} {xs : List α} {p : α → StreamProg T}
    (hp : ∀ x, Writes h r t (p x) []) : Writes h r t (each xs p) [] := by
  have hall : Writes h r t (each xs p) (xs.flatMap fun _ ↦ []) := writes_each fun x _ ↦ hp x
  rwa [List.flatMap_eq_nil_iff.mpr fun _ _ ↦ rfl] at hall

theorem writes_format (hdisk : ∀ a n, h.disk a n = true)
    (hlevel : level.value ≥ (r.appender a).level.value) :
    Writes h r t (format h t a logger level event) (record h r t a logger level event) := by
  refine writes_locked (writes_load fun s hs g ↦ ?_)
  rw [output_record hdisk hs hlevel]
  exact collecting_each (write_outlet fixed_write) (fun chunk hc ↦ (mem_record hc).1) rfl

theorem writes_reopenDue : Writes h r t (reopenDue t a event) [] := by
  refine writes_load fun s _ ↦ ?_
  split
  · exact writes_seq (writes_invoke (o := .reopen a) trivial)
      (writes_store (fun _ hs ↦ hs) fun _ ↦ rfl)
  · exact writes_ret

theorem writes_write (hdisk : ∀ a n, h.disk a n = true) :
    Writes h r t (body h (t, .write a logger level event)) (record h r t a logger level event) := by
  refine writes_load fun s hs ↦ ?_
  have hs : s.shared.toRegistry = r := hs
  rw [hs]
  split
  · rename_i hlevel
    split
    · exact writes_seq writes_reopenDue (writes_format hdisk hlevel)
    · exact writes_format hdisk hlevel
  · rename_i hlevel
    rw [record, if_neg hlevel]
    exact writes_ret

theorem emitted_below (hlevel : ¬ level.value ≥ (r.logger l).level.value) :
    emitted h r (t, .log l level event) = [] := by
  rw [emitted, Registry.log, if_neg hlevel]
  rfl

theorem emitted_offers (hlevel : level.value ≥ (r.logger l).level.value)
    (happenders : (r.logger l).appenders ≠ []) :
    emitted h r (t, .log l level event) =
      (r.logger l).appenders.flatMap fun a ↦ record h r t a l level event := by
  rw [emitted, Registry.log_accepted hlevel, if_pos happenders, Option.getD_some, Registry.offers,
    List.flatMap_map]
  rfl

theorem eq_root_of_link (hlinked : r.Linked built) (hl : l < r.nextLogger)
    (hk : (r.logger l).root = some k) : k = r.root ∧ l ≠ r.root := by
  rw [hlinked.link l hl] at hk
  split at hk
  · cases hk
  · rename_i hne
    exact ⟨(Option.some.inj hk).symm, fun heq ↦ hne (.inl heq)⟩

theorem emitted_nowhere (hlevel : level.value ≥ (r.logger l).level.value)
    (happenders : (r.logger l).appenders = []) (hlink : (r.logger l).root = none) :
    emitted h r (t, .log l level event) = [] := by
  rw [emitted, Registry.log_accepted hlevel, if_neg (not_not_intro happenders), hlink]
  rfl

/-- A logger without appenders leaves its events to the root logger. -/
theorem emitted_root (hlinked : r.Linked built) (hl : l < r.nextLogger)
    (hlevel : level.value ≥ (r.logger l).level.value) (happenders : (r.logger l).appenders = [])
    (hlink : (r.logger l).root = some k) :
    emitted h r (t, .log l level event) = emitted h r (t, .log k level event) := by
  obtain ⟨rfl, -⟩ := eq_root_of_link hlinked hl hlink
  have hroot : (r.logger r.root).root = none := by
    rw [hlinked.link _ hlinked.root_lt, if_pos (.inl rfl)]
  rw [emitted, emitted, Registry.log_accepted hlevel, if_neg (not_not_intro happenders), hlink]
  dsimp only
  rw [Registry.log_root hroot, Registry.log_root hroot]
  rfl

theorem writes_log (hlinked : r.Linked built) (hl : l < r.nextLogger) :
    Writes h r t (body h (t, .log l level event)) (emitted h r (t, .log l level event)) := by
  rw [body_log]
  refine writes_load fun s hs ↦ ?_
  have hs : s.shared.toRegistry = r := hs
  rw [hs]
  split
  · rename_i hlevel
    refine writes_locked (writes_load fun s hs ↦ ?_)
    have hs : s.shared.toRegistry = r := hs
    rw [hs]
    split
    · rename_i happenders
      have hne : (r.logger l).appenders ≠ [] := by simpa using happenders
      rw [emitted_offers hlevel hne]
      exact writes_each fun a _ ↦ writes_invoke trivial
    · rename_i happenders
      have hnil : (r.logger l).appenders = [] := by simpa using happenders
      -- without appenders the event goes to the root logger, if the link is there
      cases hlink : (r.logger l).root with
      | none =>
          rw [emitted_nowhere hlevel hnil hlink]
          exact writes_ret
      | some k =>
          rw [emitted_root hlinked hl hlevel hnil hlink]
          obtain ⟨rfl, -⟩ := eq_root_of_link hlinked hl hlink
          exact writes_invoke (o := .log r.root level event) hlinked.root_lt
  · rename_i hlevel
    rw [emitted_below hlevel]
    exact writes_ret

theorem writes_body (hlinked : r.Linked built) (hdisk : ∀ a n, h.disk a n = true) {o : LogOp}
    (ho : Reads r o) : Writes h r t (body h (t, o)) (emitted h r (t, o)) := by
  cases o with
  | log l level event => exact writes_log hlinked ho
  | write a logger level event => exact writes_write hdisk
  | reopen a => exact writes_locked (writes_store (fun _ hs ↦ hs) fun _ ↦ rfl)
  | toYamlString l =>
      rw [body_toYamlString]
      exact writes_locked (writes_load fun s _ ↦ writes_each_nil fun i ↦ writes_invoke trivial)
  | getFormatter a => exact writes_locked (writes_load fun s _ ↦ writes_ret)
  | dumpAppender a => exact writes_locked writes_ret
  | dumpManager =>
      rw [body_dumpManager]
      exact writes_locked (writes_load fun s _ ↦ writes_each_nil fun l ↦ writes_invoke trivial)
  | _ => exact ho.elim

variable [DecidableEq T] {m : Machine Mutex (Sinks T) (Call T) T} {moves : List (Move (Call T) T)}
  {shared : Shared} {opens : AppenderId → Nat}

/-- Nothing that a thread logs gets lost, is written twice or out of order, whatever the other
threads log meanwhile. -/
theorem thread_records (hr : Run (Of Registry.step) .new calls r) (hshared : shared.toRegistry = r)
    (hdisk : ∀ a n, h.disk a n = true)
    (hrun : Run (Guarded (Of (step (body h))) (Admitted (Own r))) (idle ⟨shared, opens, []⟩) moves m)
    (t : T) :
    m.shared.chunks.filter (·.thread = t) <+: (begun moves t).flatMap (emitted h r) ∧
      (m.prog t = .ret →
        m.shared.chunks.filter (·.thread = t) = (begun moves t).flatMap (emitted h r)) := by
  have hlinked := Registry.run_linked hr Registry.new_linked
  have hinv : (outlet (T := T) (fixed r)).inv ⟨shared, opens, []⟩ := hshared
  have hbody : ∀ t (o : Call T), Own r t o → Writes h r t (body h o) (emitted h r o) := by
    rintro t ⟨t', o⟩ ⟨rfl, ho⟩
    exact writes_body hlinked hdisk ho
  exact run_written hbody hinv rfl hrun t

/-- A root logger whose appender has a formatter of its own. -/
def configured : Registry := Registry.new.perform (.setOwn 0 (some messageFormatter))

/-- Two threads log to the root logger, and the first one is in the middle of its record. -/
def rootMoves : List (Move (Call Bool) Bool) :=
  [.start false (false, .log 0 .info (eventOf "a")), .start true (true, .log 0 .info (eventOf "b"))] ++
    List.replicate 12 (.resume true) ++ List.replicate 9 (.resume false)

def logsToRoot : Call Bool → Bool
  | (_, .log l _ _) => l == 0
  | _ => false

/-- Runs of threads that log exist once evaluating them succeeds. -/
theorem exists_reading (ok : T → Call T → Prop) (allowed : Call T → Bool)
    (hok : ∀ o, allowed o = true → ok o.1 o) (h : Host) (s : Sinks T) (moves : List (Move (Call T) T))
    {P : Machine Mutex (Sinks T) (Call T) T → Bool}
    (hP : (exec (checked (step (body h)) fun _ move ↦ ownMove move && match move with
      | .start _ o => allowed o
      | .resume _ => true) (idle s) moves).map P = some true) :
    ∃ m, Run (Guarded (Of (step (body h))) (Admitted ok)) (idle s) moves m ∧ P m = true := by
  refine exists_run (step (body h)) _ ?_ _ _ hP
  rintro s (⟨t, o⟩ | t) s' hstep hboth
  · obtain ⟨hown, hallowed⟩ := Bool.and_eq_true_iff.mp hboth
    have hown : o.1 = t := of_decide_eq_true hown
    exact ⟨hstep, show ok t o from hown ▸ hok o hallowed⟩
  · exact ⟨hstep, trivial⟩

theorem configured_run : Run (Of Registry.step) .new [.setOwn 0 (some messageFormatter)] configured :=
  .cons rfl (.nil _)

/-- The second thread is done, and its record is there. -/
theorem thread_records_two : ∃ m : Machine Mutex (Sinks Bool) (Call Bool) Bool,
    Run (Guarded (Of (step (body exampleHost))) (Admitted (Own configured)))
      (idle ⟨{ Shared.new with toRegistry := configured }, fun _ ↦ 1, []⟩) rootMoves m ∧
    m.prog true = .ret ∧ m.shared.chunks.map Chunk.text = [['b'], ['\n'], ['a']] ∧
    m.shared.chunks.filter (·.thread = true) =
      (begun rootMoves true).flatMap (emitted exampleHost configured) := by
  obtain ⟨m, hrun, hm⟩ := exists_reading (Own configured) logsToRoot
    (by
      rintro ⟨t, o⟩ ho
      cases o with
      | log l level event =>
          obtain rfl : l = 0 := beq_iff_eq.mp ho
          exact ⟨rfl, Nat.zero_lt_one⟩
      | _ => cases ho)
    exampleHost ⟨{ Shared.new with toRegistry := configured }, fun _ ↦ 1, []⟩ rootMoves
    (P := fun m ↦ (match m.prog true with
      | .ret => true
      | .lock .. | .unlock .. | .atomic .. | .call .. => false) &&
      m.shared.chunks.map Chunk.text == [['b'], ['\n'], ['a']]) (by decide +kernel)
  obtain ⟨hret, htexts⟩ := Bool.and_eq_true_iff.mp hm
  have hret : m.prog true = .ret := by
    cases hprog : m.prog true with
    | ret => rfl
    | _ =>
        rw [hprog] at hret
        cases hret
  have hrecords := thread_records configured_run rfl (fun _ _ ↦ rfl) hrun true
  exact ⟨m, hrun, hret, beq_iff_eq.mp htexts, hrecords.2 hret⟩

/-! ## One order for all appenders -/

/-- What a logger's appenders insert for an event of a thread. -/
def records (h : Host) (r : Registry) (l : LoggerId) (e : T × Level × LogEvent) : List (Chunk T) :=
  (r.logger l).appenders.flatMap fun a ↦ record h r e.1 a l e.2.1 e.2.2

/-- The insertions on behalf of a logger. -/
def isBy (l : LoggerId) (chunk : Chunk T) : Bool := chunk.call.logger = l

def Section (h : Host) (r : Registry) (l : LoggerId) (d : List (Chunk T)) : Prop :=
  d = [] ∨ ∃ e, d = records h r l e

/-- What may be called while a thread holds the lock of a logger, or does not. -/
def Allowed (r : Registry) (l : LoggerId) (c : Option (List (Chunk T))) : LogOp → Prop
  | .log k _ _ => k < r.nextLogger ∧ (c = none ∨ k ≠ l ∧ k = r.root)
  | .write _ k _ _ => c = none → k ≠ l
  | .reopen _ | .getFormatter _ | .dumpAppender _ => True
  | .toYamlString _ | .dumpManager => c = none
  | _ => False

/-- What an operation adds to the section that it is called in. -/
def added (h : Host) (r : Registry) : Call T → List (Chunk T)
  | (t, .write a k level event) => record h r t a k level event
  | _ => []

def within (h : Host) (r : Registry) (l : LoggerId) (t : T) :
    Contract (Call T) (Option (List (Chunk T))) where
  pre o c := o.1 = t ∧ Allowed r l c o.2
  post o c c' := c' = c.map (· ++ (added h r o).filter (isBy l))

omit [DecidableEq T] in
theorem map_append_nil (c : Option (List (Chunk T))) : c.map (· ++ []) = c := by
  cases c with
  | none => rfl
  | some d => exact congrArg some (List.append_nil d)

/-- From a section with `c` a program gets to one with `c'`. -/
abbrev Leads (h : Host) (r : Registry) (l : LoggerId) (t : T) (p : StreamProg T)
    (c c' : Option (List (Chunk T))) : Prop :=
  Safe (outlet (fixed r)) (sectioned (.logger l) (isBy l) (Section h r l)) (within h r l t) p (· = c') c

variable {c c' c'' : Option (List (Chunk T))}

omit [DecidableEq T]

theorem leads_load {p : Sinks T → StreamProg T} (hp : ∀ s, fixed r s → Leads h r l t (p s) c c') :
    Leads h r l t (load p) c c' :=
  safe_load ⟨(map_append_nil c).symm, fun _ ↦ rfl⟩ hp

theorem leads_seq {p q : StreamProg T} (hp : Leads h r l t p c c') (hq : Leads h r l t q c' c'') :
    Leads h r l t (p.seq q) c c'' := by
  refine Safe.seq (hp.mono ?_)
  rintro _ rfl
  exact hq

theorem leads_store {f : Sinks T → Sinks T} (hf : ∀ s, fixed r s → fixed r (f s))
    (hchunks : ∀ s, (f s).chunks = s.chunks) : Leads h r l t (store f) c c := by
  refine safe_store fun s hs ↦ ⟨hf s hs, [], c, ?_, ⟨(map_append_nil c).symm, fun _ ↦ rfl⟩, rfl⟩
  exact (hchunks s).trans (List.append_nil _).symm

theorem leads_invoke {o : LogOp} (ho : Allowed r l c o)
    (hc : c' = c.map (· ++ (added h r (t, o)).filter (isBy l))) :
    Leads h r l t (invoke (t, o)) c c' :=
  safe_invoke ⟨rfl, ho⟩ fun _ hg ↦ hg.trans hc.symm

/-- What adds nothing. -/
theorem leads_quiet {o : LogOp} (ho : Allowed r l c o)
    (hadded : (added h r (t, o)).filter (isBy l) = []) :
    Leads h r l t (invoke (t, o)) c c :=
  leads_invoke ho (by rw [hadded, map_append_nil])

theorem leads_each {α : Type*} {xs : List α} {p : α → StreamProg T}
    (hp : ∀ x, Leads h r l t (p x) c c) : Leads h r l t (each xs p) c c := by
  refine safe_each (fun _ c' ↦ c' = c) ?_ rfl
  rintro x xs _ rfl
  exact hp x

/-- A critical section under another lock. -/
theorem leads_locked_ne {k : Mutex} {p : StreamProg T} (hk : k ≠ .logger l)
    (hp : Leads h r l t p c c') : Leads h r l t (locked k p) c c' :=
  safe_locked ((sectioned_lock_ne hk).mpr rfl)
    (hp.mono fun c'' hc ↦ ⟨c'', (sectioned_unlock_ne hk).mpr rfl, hc⟩)

/-- A critical section under the lock of the logger. -/
theorem leads_locked {p : StreamProg T} {d : List (Chunk T)} (hd : Section h r l d)
    (hp : Leads h r l t p (some []) (some d)) : Leads h r l t (locked (.logger l) p) none none := by
  refine safe_locked (sectioned_lock.mpr ⟨rfl, rfl⟩) (hp.mono ?_)
  rintro _ rfl
  exact ⟨none, sectioned_unlock.mpr ⟨⟨d, rfl, hd⟩, rfl⟩, rfl⟩

theorem filter_record (a : AppenderId) (k : LoggerId) (level : Level) (event : LogEvent) :
    (record h r t a k level event).filter (isBy l) =
      if k = l then record h r t a k level event else [] := by
  split
  · rename_i hk
    exact List.filter_eq_self.mpr fun chunk hc ↦ decide_eq_true ((mem_record hc).2.2.trans hk)
  · rename_i hk
    exact List.filter_eq_nil_iff.mpr fun chunk hc heq ↦
      hk ((mem_record hc).2.2.symm.trans (of_decide_eq_true heq))

theorem leads_reopenDue : Leads h r l t (reopenDue t a event) c c := by
  refine leads_load fun s _ ↦ ?_
  split
  · exact leads_seq (leads_quiet (o := .reopen a) trivial rfl)
      (leads_store (fun _ hs ↦ hs) fun _ ↦ rfl)
  · rfl

theorem leads_format (hdisk : ∀ a n, h.disk a n = true)
    (hlevel : level.value ≥ (r.appender a).level.value) (hc : c = none → k ≠ l) :
    Leads h r l t (format h t a k level event) c
      (c.map (· ++ (record h r t a k level event).filter (isBy l))) := by
  refine leads_locked_ne nofun (leads_load fun s hs ↦ ?_)
  rw [output_record hdisk hs hlevel]
  refine sectioned_each (write_outlet fixed_write) (fun hnone ↦ ?_) rfl
  rw [filter_record, if_neg (hc hnone)]

theorem leads_write (hdisk : ∀ a n, h.disk a n = true) (hc : c = none → k ≠ l) :
    Leads h r l t (body h (t, .write a k level event)) c
      (c.map (· ++ (record h r t a k level event).filter (isBy l))) := by
  refine leads_load fun s hs ↦ ?_
  have hs : s.shared.toRegistry = r := hs
  rw [hs]
  split
  · rename_i hlevel
    split
    · exact leads_seq leads_reopenDue (leads_format hdisk hlevel hc)
    · exact leads_format hdisk hlevel hc
  · rename_i hlevel
    rw [record, if_neg hlevel]
    exact (map_append_nil c).symm

/-- The loop of `Logger::log` makes a section. -/
theorem leads_offers (as : List AppenderId) (d : List (Chunk T)) :
    Leads h r l t (each as fun a ↦ invoke (t, .write a l level event)) (some d)
      (some (d ++ as.flatMap fun a ↦ record h r t a l level event)) := by
  induction as generalizing d with
  | nil => exact congrArg some (List.append_nil d).symm
  | cons a as ih =>
      have hfirst : Leads h r l t (invoke (t, .write a l level event)) (some d)
          (some (d ++ record h r t a l level event)) := by
        refine leads_invoke (o := .write a l level event) nofun ?_
        show _ = some (d ++ (record h r t a l level event).filter (isBy l))
        rw [filter_record, if_pos rfl]
      have hrest := leads_seq hfirst (ih (d ++ record h r t a l level event))
      rw [List.append_assoc] at hrest
      exact hrest

/-- `log` of the logger. -/
theorem leads_log (hlinked : r.Linked built) (hl : l < r.nextLogger) :
    Leads h r l t (body h (t, .log l level event)) none none := by
  rw [body_log]
  refine leads_load fun s _ ↦ ?_
  split
  · -- the lock is taken before the appenders are looked at
    by_cases happenders : (r.logger l).appenders = []
    · refine leads_locked (.inl rfl) (leads_load fun s hs ↦ ?_)
      have hs : s.shared.toRegistry = r := hs
      rw [hs, happenders, if_neg (by decide)]
      cases hlink : (r.logger l).root with
      | none => rfl
      | some k =>
          obtain ⟨rfl, hne⟩ := eq_root_of_link hlinked hl hlink
          refine leads_quiet (o := .log r.root level event) ⟨hlinked.root_lt, .inr ⟨hne.symm, rfl⟩⟩ rfl
    · refine leads_locked (.inr ⟨(t, level, event), rfl⟩) (leads_load fun s hs ↦ ?_)
      have hs : s.shared.toRegistry = r := hs
      rw [hs, if_pos (by simpa using happenders)]
      exact leads_offers _ []
  · rfl

/-- `log` of another logger, which may be the root logger in a section of the logger. -/
theorem leads_log_ne (hlinked : r.Linked built) (hk : k < r.nextLogger) (hkl : k ≠ l)
    (hc : c = none ∨ k = r.root) : Leads h r l t (body h (t, .log k level event)) c c := by
  rw [body_log]
  refine leads_load fun s _ ↦ ?_
  split
  · refine leads_locked_ne (fun heq ↦ hkl (Mutex.logger.inj heq)) (leads_load fun s hs ↦ ?_)
    have hs : s.shared.toRegistry = r := hs
    rw [hs]
    split
    · refine leads_each fun a ↦ leads_quiet (o := .write a k level event) (fun _ ↦ hkl) ?_
      rw [added, filter_record, if_neg hkl]
    · cases hlink : (r.logger k).root with
      | none => rfl
      | some k' =>
          obtain ⟨rfl, hne⟩ := eq_root_of_link hlinked hk hlink
          have hc : c = none := hc.resolve_right hne
          exact leads_quiet (o := .log r.root level event) ⟨hlinked.root_lt, .inl hc⟩ rfl
  · rfl

theorem leads_body (hlinked : r.Linked built) (hdisk : ∀ a n, h.disk a n = true) {o : LogOp}
    (ho : Allowed r l c o) :
    Leads h r l t (body h (t, o)) c (c.map (· ++ (added h r (t, o)).filter (isBy l))) := by
  -- all but `write` add nothing
  have hquiet : (added h r (t, o)).filter (isBy l) = [] → Leads h r l t (body h (t, o)) c c →
      Leads h r l t (body h (t, o)) c (c.map (· ++ (added h r (t, o)).filter (isBy l))) := by
    intro hnil hsafe
    rwa [hnil, map_append_nil]
  cases o with
  | log k level event =>
      refine hquiet rfl ?_
      -- the logger in question opens a section for the event; another one does not touch it
      by_cases hkl : k = l
      · obtain rfl := ho.2.resolve_right fun hne ↦ hne.1 hkl
        subst hkl
        exact leads_log hlinked ho.1
      · exact leads_log_ne hlinked ho.1 hkl (ho.2.imp_right And.right)
  | write a k level event => exact leads_write hdisk ho
  | reopen a => exact hquiet rfl (leads_locked_ne nofun (leads_store (fun _ hs ↦ hs) fun _ ↦ rfl))
  | toYamlString k =>
      obtain rfl : c = none := ho
      refine hquiet rfl ?_
      have hloop : ∀ (c : Option (List (Chunk T))) (as : List AppenderId),
          Leads h r l t (each as fun i ↦ invoke (t, .dumpAppender i)) c c :=
        fun c as ↦ leads_each fun i ↦ leads_quiet (o := .dumpAppender i) trivial rfl
      rw [body_toYamlString]
      by_cases hkl : k = l
      · rw [hkl]
        exact leads_locked (.inl rfl) (leads_load fun s _ ↦ hloop _ _)
      · exact leads_locked_ne (fun heq ↦ hkl (Mutex.logger.inj heq)) (leads_load fun s _ ↦ hloop _ _)
  | getFormatter a =>
      exact hquiet rfl (leads_locked_ne (k := .appender a) (p := load fun _ ↦ .ret) nofun
        (leads_load fun s _ ↦ rfl))
  | dumpAppender a =>
      exact hquiet rfl (leads_locked_ne (k := .appender a) (p := .ret) nofun rfl)
  | dumpManager =>
      obtain rfl : c = none := ho
      refine hquiet rfl ?_
      rw [body_dumpManager]
      exact leads_locked_ne nofun (leads_load fun s _ ↦
        leads_each fun k ↦ leads_quiet (o := .toYamlString k) rfl rfl)
  | _ => exact ho.elim

/-- The insertions on behalf of a logger are those for one event after the other, each of them in
all its appenders, so no appender gets the events in an order of its own. -/
theorem appenders_agree [DecidableEq T] {m : Machine Mutex (Sinks T) (Call T) T}
    {moves : List (Move (Call T) T)} {shared : Shared} {opens : AppenderId → Nat}
    (hr : Run (Of Registry.step) .new calls r) (hshared : shared.toRegistry = r)
    (hdisk : ∀ a n, h.disk a n = true)
    (hrun : Run (Guarded (Of (step (body h)))
        (Admitted fun t o ↦ Own r t o ∧ ∀ a level event, o.2 ≠ .write a l level event))
      (idle ⟨shared, opens, []⟩) moves m) :
    ∃ (events : List (T × Level × LogEvent)) (d : List (Chunk T)),
      m.shared.chunks.filter (isBy l) = events.flatMap (records h r l) ++ d ∧
      (m.owner (.logger l) = none → d = []) ∧ (d = [] ∨ ∃ e d', d ++ d' = records h r l e) := by
  have hlinked := Registry.run_linked hr Registry.new_linked
  have hinv : (outlet (T := T) (fixed r)).inv ⟨shared, opens, []⟩ := hshared
  have hok : ∀ t (o : Call T), (Own r t o ∧ ∀ a level event, o.2 ≠ .write a l level event) →
      (within h r l t).pre o none ∧ ∀ c', (within h r l t).post o none c' → c' = none := by
    rintro t ⟨t', o⟩ ⟨⟨hthread, hreads⟩, hwrite⟩
    refine ⟨⟨hthread, ?_⟩, fun c' hc' ↦ hc'⟩
    cases o with
    | log k level event => exact ⟨hreads, .inl rfl⟩
    | write a k level event =>
        rintro - rfl
        exact hwrite a level event rfl
    | toYamlString _ | dumpManager => rfl
    | reopen _ | getFormatter _ | dumpAppender _ => trivial
    | _ => exact hreads.elim
  have hbody : ∀ t (o : Call T) c, (within h r l t).pre o c →
      Safe (outlet (fixed r)) (sectioned (.logger l) (isBy l) (Section h r l)) (within h r l t)
        (body h o) ((within h r l t).post o c) c := by
    rintro t ⟨t', o⟩ c ⟨rfl, ho⟩
    exact leads_body hlinked hdisk ho
  -- each section of the logger's lock is the insertions for one event, or none
  obtain ⟨bs, d, hbs, hchunks, hfree, hd⟩ := run_sections hinv rfl hbody
    (fun t o d _ ↦ ⟨_, rfl⟩) hok hrun
  -- the sections without insertions are left out
  have hevents : ∃ events : List (T × Level × LogEvent),
      bs.flatten = events.flatMap (records h r l) := by
    clear hchunks
    induction bs with
    | nil => exact ⟨[], rfl⟩
    | cons b bs ih =>
        obtain ⟨hb, hbs⟩ := List.forall_mem_cons.mp hbs
        obtain ⟨events, hevents⟩ := ih hbs
        rcases hb with rfl | ⟨e, rfl⟩
        · exact ⟨events, hevents⟩
        · refine ⟨e :: events, ?_⟩
          rw [List.flatten_cons, hevents]
          rfl
  obtain ⟨events, hevents⟩ := hevents
  refine ⟨events, d, hchunks.trans (congrArg (· ++ d) hevents), hfree, ?_⟩
  rcases hd with rfl | ⟨d', hnil | ⟨e, he⟩⟩
  · exact .inl rfl
  · exact .inl (List.append_eq_nil_iff.mp hnil).1
  · exact .inr ⟨e, d', he⟩

theorem appenders_agree_two : ∃ m : Machine Mutex (Sinks Bool) (Call Bool) Bool,
    m.owner (.logger 0) = some false ∧ m.shared.chunks.map Chunk.text = [['b'], ['\n'], ['a']] ∧
    ∃ (events : List (Bool × Level × LogEvent)) (d : List (Chunk Bool)),
      m.shared.chunks.filter (isBy 0) = events.flatMap (records exampleHost configured 0) ++ d ∧
      (m.owner (.logger 0) = none → d = []) ∧
      (d = [] ∨ ∃ e d', d ++ d' = records exampleHost configured 0 e) := by
  obtain ⟨m, hrun, hm⟩ := exists_reading
    (fun t o ↦ Own configured t o ∧ ∀ a level event, o.2 ≠ .write a 0 level event) logsToRoot
    (by
      rintro ⟨t, o⟩ ho
      cases o with
      | log l level event =>
          obtain rfl : l = 0 := beq_iff_eq.mp ho
          exact ⟨⟨rfl, Nat.zero_lt_one⟩, nofun⟩
      | _ => cases ho)
    exampleHost ⟨{ Shared.new with toRegistry := configured }, fun _ ↦ 1, []⟩ rootMoves
    (P := fun m ↦ m.owner (.logger 0) == some false &&
      m.shared.chunks.map Chunk.text == [['b'], ['\n'], ['a']]) (by decide +kernel)
  obtain ⟨howner, htexts⟩ := Bool.and_eq_true_iff.mp hm
  exact ⟨m, beq_iff_eq.mp howner, beq_iff_eq.mp htexts,
    appenders_agree configured_run rfl (fun _ _ ↦ rfl) hrun⟩

end Server.Log.Records
