import ServerFramework.Log.Streams

/-!
# Records are not torn

An appender inserts under its lock all that it has to say about an event, so each file is a sequence
of whole records, whatever else the threads do and while the configuration changes.  `std::cout` has
no lock of its own: the appenders that write to it have one each.
-/

namespace Server.Log.Records

open Runs Locks Locks.Machine Prog Locking

variable {T : Type} {h : Host} {s : Sinks T} {t : T} {a b : AppenderId} {logger : LoggerId}
  {level : Level} {event : LogEvent}

/-- All that an appender inserts in one call. -/
def Whole (h : Host) (a : AppenderId) (d : List (Chunk T)) : Prop :=
  d = [] ∨ ∃ t o, o.appender = a ∧ (d = failure t o ∨ ∃ stream, d = recordOf h t stream o)

theorem whole_output : Whole h a (output h s t a logger level event) := by
  obtain ⟨o, ha, -, hout⟩ := output_cases h s t a logger level event
  exact .inr ⟨t, o, ha, hout⟩

/-- The insertions of an appender. -/
def isOf (a : AppenderId) (chunk : Chunk T) : Bool := chunk.call.appender = a

theorem filter_output : (output h s t b logger level event).filter (isOf a) =
    if b = a then output h s t b logger level event else [] := by
  split
  · rename_i hba
    exact List.filter_eq_self.mpr fun chunk hc ↦ decide_eq_true ((mem_output hc).2.1.trans hba)
  · rename_i hba
    exact List.filter_eq_nil_iff.mpr fun chunk hc heq ↦
      hba ((mem_output hc).2.1.symm.trans (of_decide_eq_true heq))

/-- Nothing is called while an appender's lock is held. -/
def outside : Contract (Call T) (Option (List (Chunk T))) := ⟨fun _ c ↦ c = none, fun _ _ c ↦ c = none⟩

/-- The invariant of the locks. -/
def rooted (s : Sinks T) : Prop := Rooted s.shared

theorem rooted_write (s : Sinks T) (chunk : Chunk T) (hs : rooted s) : rooted (s.write chunk) := hs

/-- A program keeps the sections of an appender whole. -/
abbrev KeepsWhole (h : Host) (a : AppenderId) (p : StreamProg T) : Prop :=
  Safe (outlet rooted) (sectioned (.appender a) (isOf a) (Whole h a)) outside p (· = none) none

theorem keepsWhole_format : KeepsWhole h a (format h t b logger level event) := by
  by_cases hba : b = a
  · subst hba
    refine safe_locked (sectioned_lock.mpr ⟨rfl, rfl⟩) (safe_load ⟨rfl, nofun⟩ fun s hs ↦ ?_)
    refine sectioned_each (write_outlet rooted_write) nofun
      ⟨none, sectioned_unlock.mpr ⟨⟨_, rfl, ?_⟩, rfl⟩, rfl⟩
    rw [filter_output, if_pos rfl]
    exact whole_output
  · have hlock : Mutex.appender b ≠ .appender a := fun heq ↦ hba (Mutex.appender.inj heq)
    refine safe_locked ((sectioned_lock_ne hlock).mpr rfl) (safe_load ⟨rfl, fun _ ↦ rfl⟩ fun s hs ↦ ?_)
    refine sectioned_each (write_outlet rooted_write) (fun _ ↦ ?_)
      ⟨none, (sectioned_unlock_ne hlock).mpr rfl, rfl⟩
    rw [filter_output, if_neg hba]

theorem keepsWhole_reopen : KeepsWhole h a (body h (t, .reopen b)) := by
  have hreopens : ∀ s : Sinks T, (outlet rooted).out (s.reopen b) = (outlet rooted).out s ++ [] :=
    fun _ ↦ (List.append_nil _).symm
  by_cases hba : b = a
  · subst hba
    refine safe_locked (sectioned_lock.mpr ⟨rfl, rfl⟩)
      (safe_store fun s hs ↦ ⟨hs, [], some [], hreopens s, ⟨rfl, nofun⟩, none, ?_, rfl⟩)
    exact sectioned_unlock.mpr ⟨⟨[], rfl, .inl rfl⟩, rfl⟩
  · have hlock : Mutex.appender b ≠ .appender a := fun heq ↦ hba (Mutex.appender.inj heq)
    -- another appender's section, of which this one sees nothing
    refine safe_locked ((sectioned_lock_ne hlock).mpr rfl)
      (safe_store fun s hs ↦ ⟨hs, [], none, hreopens s, ⟨rfl, fun _ ↦ rfl⟩, none, ?_, rfl⟩)
    exact (sectioned_unlock_ne hlock).mpr rfl

theorem keepsWhole_reopenDue : KeepsWhole h a (reopenDue t b event) := by
  refine safe_load ⟨rfl, fun _ ↦ rfl⟩ fun s hs ↦ ?_
  split
  · refine Safe.seq (safe_invoke rfl fun c hc ↦ ?_)
    obtain rfl : c = none := hc
    -- only the time of the last opening is written
    refine safe_store fun s hs ↦ ⟨⟨hs.root, hs.exists_root, hs.link⟩, [], none, ?_, ?_, rfl⟩
    · exact (List.append_nil _).symm
    · exact ⟨rfl, fun _ ↦ rfl⟩
  · rfl

/-- The appender's lock comes last in the order of the locks, and the other operations write
nothing. -/
theorem keepsWhole_silent (o : LogOp) : KeepsWhole (T := T) h a
    ((Locking.body o).zoom Sinks.shared Sinks.put fun o ↦ (t, o)) := by
  have hleaf : ∀ o, ¬ rank (.appender a) < rank (first o) := by
    intro o
    have hle : ∀ l, rank l ≤ 3 := by
      intro l
      unfold rank
      grind
    exact Nat.not_lt.mpr (hle _)
  have hempty : Whole (T := T) h a [] := .inl rfl
  have hget : ∀ s : Sinks T, (outlet rooted).inv s → Rooted s.shared := fun _ hs ↦ hs
  have hput : ∀ (s : Sinks T) (x : Shared), (outlet rooted).inv s → Rooted x →
      (outlet rooted).inv (s.put x) := fun _ _ _ hx ↦ hx
  have hcall : ∀ o : LogOp, (outside (T := T)).pre (t, o) none ∧
      ∀ c, (outside (T := T)).post (t, o) none c → c = none := fun _ ↦ ⟨rfl, fun _ hc ↦ hc⟩
  exact safe_of_fits hleaf hempty hget hput (fun _ _ ↦ rfl) hcall
    (fits_body o [] nofun) List.nodup_nil

theorem keepsWhole_body (o : LogOp) : KeepsWhole h a (body h (t, o)) := by
  cases o with
  | write b logger level event =>
      -- `FileLogAppender::log` may reopen its file first, and that in a section of its own
      refine safe_load ⟨rfl, fun _ ↦ rfl⟩ fun s hs ↦ ?_
      split
      · split
        · refine Safe.seq (keepsWhole_reopenDue.mono fun c hc ↦ ?_)
          obtain rfl : c = none := hc
          exact keepsWhole_format
        · exact keepsWhole_format
      · rfl
  | reopen b => exact keepsWhole_reopen
  | _ => exact keepsWhole_silent _

/-! ## Files -/

variable [DecidableEq T] {m : Machine Mutex (Sinks T) (Call T) T} {moves : List (Move (Call T) T)}
  {shared : Shared} {opens : AppenderId → Nat}

/-- The threads begin operations of their own, whichever they like. -/
abbrev Logs (h : Host) (shared : Shared) (opens : AppenderId → Nat) (moves : List (Move (Call T) T))
    (m : Machine Mutex (Sinks T) (Call T) T) : Prop :=
  Run (Guarded (Of (step (body h))) (Admitted fun t o ↦ o.1 = t)) (idle ⟨shared, opens, []⟩) moves m

theorem appender_whole (hshared : Rooted shared) (hrun : Logs h shared opens moves m)
    (a : AppenderId) :
    ∃ (bs : List (List (Chunk T))) (d : List (Chunk T)), (∀ b ∈ bs, Whole h a b) ∧
      m.shared.chunks.filter (isOf a) = bs.flatten ++ d ∧
      (m.owner (.appender a) = none → d = []) ∧ (d = [] ∨ ∃ d', Whole h a (d ++ d')) := by
  have hinv : (outlet (T := T) rooted).inv ⟨shared, opens, []⟩ := hshared
  have hok : ∀ (t : T) (o : Call T), o.1 = t →
      outside.pre o none ∧ ∀ c', outside.post o none c' → c' = none :=
    fun t o _ ↦ ⟨rfl, fun _ hc ↦ hc⟩
  refine run_sections (C := fun _ ↦ outside) hinv rfl ?_ (fun t o d hd ↦ nomatch hd) hok hrun
  rintro t ⟨t', o⟩ c hc
  obtain rfl : c = none := hc
  exact keepsWhole_body o

/-- The insertions into files. -/
def filed (d : List (Chunk T)) : List (Chunk T) := d.filter fun chunk ↦ chunk.stream = .filestream

/-- The insertions into the file of an appender. -/
def Sinks.inFile (s : Sinks T) (a : AppenderId) : List (Chunk T) := filed (s.chunks.filter (isOf a))

/-- The file of an appender. -/
def Sinks.file (s : Sinks T) (a : AppenderId) : List Char := (s.inFile a).flatMap Chunk.text

/-- What `m_formatter->format` writes for an event. -/
def line (h : Host) (o : Output) : List Char :=
  o.formatter.elim [] fun f ↦ f.format h.env o.level o.event

/-- The insertions of a call of `log` of a `FileLogAppender`, by a thread. -/
def fileRecord (h : Host) (x : T × Output) : List (Chunk T) := recordOf h x.1 .filestream x.2

omit [DecidableEq T] in
theorem filed_append (d d' : List (Chunk T)) : filed (d ++ d') = filed d ++ filed d' :=
  List.filter_append _ _

omit [DecidableEq T] in
theorem filed_fileRecord (x : T × Output) : filed (fileRecord h x) = fileRecord h x := by
  refine List.filter_eq_self.mpr fun chunk hc ↦ ?_
  obtain ⟨i, -, rfl⟩ := List.mem_map.mp hc
  rfl

omit [DecidableEq T] in
theorem text_fileRecord (x : T × Output) : (fileRecord h x).flatMap Chunk.text = line h x.2 := by
  unfold fileRecord recordOf line
  rw [List.flatMap_map]
  cases x.2.formatter with
  | none => rfl
  | some f => rfl

omit [DecidableEq T] in
theorem filed_cout {d : List (Chunk T)} (hd : ∀ chunk ∈ d, chunk.stream = .cout) : filed d = [] := by
  refine List.filter_eq_nil_iff.mpr fun chunk hc heq ↦ ?_
  rw [hd chunk hc] at heq
  cases of_decide_eq_true heq

/-- These calls of an appender have come to their first insertion. -/
def Made (s : Sinks T) (a : AppenderId) (xs : List (T × Output)) : Prop :=
  ∀ x ∈ xs, x.2.appender = a ∧ ∃ chunk ∈ s.inFile a, chunk.thread = x.1 ∧ chunk.call = x.2

omit [DecidableEq T] in
/-- A call of an appender leaves a whole record in its file, or nothing. -/
theorem filed_whole {d : List (Chunk T)} (hd : Whole h a d) : filed d = [] ∨
    ∃ x : T × Output, x.2.appender = a ∧ filed d = fileRecord h x := by
  rcases hd with rfl | ⟨t, o, ho, rfl | ⟨stream, rfl⟩⟩
  · exact .inl rfl
  · refine .inl (filed_cout fun chunk hc ↦ ?_)
    obtain ⟨text, -, rfl⟩ := List.mem_map.mp hc
    rfl
  · cases stream with
    | cout =>
        refine .inl (filed_cout fun chunk hc ↦ ?_)
        obtain ⟨i, -, rfl⟩ := List.mem_map.mp hc
        rfl
    | filestream => exact .inr ⟨(t, o), ho, filed_fileRecord (h := h) (t, o)⟩

omit [DecidableEq T] in
theorem filed_flatten {bs : List (List (Chunk T))} (hbs : ∀ b ∈ bs, Whole h a b) :
    ∃ xs : List (T × Output), (∀ x ∈ xs, x.2.appender = a ∧ fileRecord h x ≠ []) ∧
      filed bs.flatten = xs.flatMap (fileRecord h) := by
  induction bs with
  | nil => exact ⟨[], nofun, rfl⟩
  | cons b bs ih =>
      obtain ⟨hb, hbs⟩ := List.forall_mem_cons.mp hbs
      obtain ⟨xs, hxs, hchunks⟩ := ih hbs
      rw [List.flatten_cons, filed_append, hchunks]
      -- calls that insert nothing into the file are left out of the list
      by_cases hnil : filed b = []
      · exact ⟨xs, hxs, by rw [hnil, List.nil_append]⟩
      · obtain ⟨x, hx, hrecord⟩ := (filed_whole hb).resolve_left hnil
        refine ⟨x :: xs, List.forall_mem_cons.mpr ⟨⟨hx, hrecord ▸ hnil⟩, hxs⟩, ?_⟩
        rw [hrecord, List.flatMap_cons]

omit [DecidableEq T] in
/-- A record that is in the file was inserted by its call. -/
theorem made_of_inFile {s : Sinks T} {xs : List (T × Output)} {d : List (Chunk T)}
    (hxs : ∀ x ∈ xs, x.2.appender = a ∧ fileRecord h x ≠ [])
    (hfile : s.inFile a = xs.flatMap (fileRecord h) ++ d) : Made s a xs := by
  intro x hx
  obtain ⟨ha, hne⟩ := hxs x hx
  obtain ⟨chunk, hc⟩ := List.exists_mem_of_ne_nil _ hne
  refine ⟨ha, chunk, ?_, mem_recordOf hc⟩
  rw [hfile]
  exact List.mem_append_left _ (List.mem_flatMap.mpr ⟨x, hx, hc⟩)

/-- A message and the end of the line. -/
def messageFormatter : LogFormatter := ⟨"%m%n", [.item .message [], .item .newLine []], false⟩

/-- After `LoggerManager()`, with appenders that have formatters. -/
def appending (target : Target) : Shared :=
  { Shared.new with appender := fun _ ↦ ⟨target, some messageFormatter, .debug, true⟩ }

def exampleHost : Host := ⟨⟨fun _ ↦ ⟨0, 0, 0, 0, 0, 0⟩, fun _ _ ↦ [], []⟩, fun _ _ ↦ true⟩

def eventOf (content : String) : LogEvent := ⟨"", 0, 0, 0, 0, 0, "", content, ""⟩

/-- The moves of threads that begin operations of their own. -/
def ownMove : Move (Call T) T → Bool
  | .start t o => o.1 = t
  | .resume _ => true

theorem exists_logs (h : Host) (shared : Shared) (opens : AppenderId → Nat)
    (moves : List (Move (Call T) T)) {P : Machine Mutex (Sinks T) (Call T) T → Bool}
    (hP : (exec (checked (step (body h)) fun _ ↦ ownMove) (idle ⟨shared, opens, []⟩) moves).map P =
      some true) : ∃ m, Logs h shared opens moves m ∧ P m = true := by
  refine exists_run (step (body h)) (fun _ ↦ ownMove) ?_ _ _ hP
  rintro s (⟨t, o⟩ | t) s' hstep hok
  · have hown : o.1 = t := of_decide_eq_true hok
    exact ⟨hstep, hown⟩
  · exact ⟨hstep, trivial⟩

/-- Two console appenders, as in `bin/config/log.yaml`, do not exclude each other. -/
example : ((exec (checked (step (body exampleHost)) fun _ ↦ ownMove)
    (idle ⟨appending .stdout, fun _ ↦ 0, []⟩)
    ([.start false (false, .write 0 0 .info (eventOf "a")),
      .start true (true, .write 1 1 .info (eventOf "b"))] ++
      List.replicate 5 (.resume false) ++ List.replicate 7 (.resume true) ++
      List.replicate 2 (.resume false))).map fun m ↦ m.shared.chunks.flatMap Chunk.text) =
    some "ab\n\n".toList := by
  decide +kernel

end Server.Log.Records
