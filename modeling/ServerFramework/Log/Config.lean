import ServerFramework.Log.Logger
import ServerFramework.Library.KeyedFold
import Mathlib.Data.String.Basic
import Mathlib.Data.List.Induction

/-!
# Configuring the loggers

`setValue` on the `logs` argument calls the listener of `LogIniter` with the old and the new set of
definitions, and the listener applies the difference to the loggers.
-/

namespace Server.Log

open KeyedFold

/-- A `std::set<LogDefine>`, ordered by name, as `LexicalCast` produces it. -/
structure LogDefines where
  defines : List LogDefine
  sorted : defines.Pairwise fun i j ↦ i.name < j.name
  typed : ∀ i ∈ defines, ∀ a ∈ i.appenders, a.type = 1 ∨ a.type = 2

namespace LogDefines

instance : DecidableEq LogDefines := fun S T ↦
  decidable_of_iff (S.defines = T.defines) (by cases S; cases T; simp)

def empty : LogDefines := ⟨[], .nil, nofun⟩

/-- `std::set::find`, which compares names. -/
def find (S : LogDefines) (name : String) : Option LogDefine := S.defines.find? (·.name == name)

end LogDefines

/-! ## The listener -/

/-- The appender for a definition; a pointer stays null when the type is neither 1 nor 2. -/
def newAppender (a : LogAppenderDefine) : Option LogAppender :=
  if a.type = 1 then some (.new (.file a.file))
  else if a.type = 2 then some (.new .stdout)
  else none

def applyAppender (logger : Logger) (a : LogAppenderDefine) : Option Logger := do
  let ap ← newAppender a
  let ap := ap.setLevel a.level
  let fmt := LogFormatter.init a.formatter
  let ap := if !a.formatter.isEmpty && !fmt.isError then ap.setFormatter (some fmt) else ap
  return logger.addAppender ap

/-- What the listener does to the logger of a new or modified definition. -/
def configure (logger : Logger) (i : LogDefine) : Option Logger :=
  let logger := logger.setLevel i.level
  -- without a formatter, or with an invalid one, the logger keeps the one it has
  let logger := if !i.formatter.isEmpty then logger.setFormatter i.formatter else logger
  i.appenders.foldlM applyAppender logger.clearAppenders

/-- Whether the first loop goes on with a definition, which is new or modified. -/
def changed (oldValue : LogDefines) (i : LogDefine) : Bool :=
  match oldValue.find i.name with
  | none => true
  | some it => i != it

/-- One iteration of the first loop. -/
def applyNew (oldValue : LogDefines) (m : LoggerManager) (i : LogDefine) : Option LoggerManager :=
  if changed oldValue i then
    (configure ((m i.name).getD (Logger.new i.name)) i).map fun logger ↦
      Function.update m i.name (some logger)
  else some m

/-- One iteration of the second loop. -/
def applyDeleted (newValue : LogDefines) (m : LoggerManager) (i : LogDefine) : LoggerManager :=
  match newValue.find i.name with
  | some _ => m
  -- the logger is deleted, but not its formatter
  | none => m.modify i.name fun logger ↦ (logger.setLevel .unknown).clearAppenders

def onChange (oldValue newValue : LogDefines) (m : LoggerManager) : Option LoggerManager :=
  (newValue.defines.foldlM (applyNew oldValue) m).map fun m ↦
    oldValue.defines.foldl (applyDeleted newValue) m

/-- The `logs` argument and the loggers. -/
structure LogConfig where
  val : LogDefines
  loggers : LoggerManager

/-- `ConfigArg::setValue` -/
def LogConfig.setValue (s : LogConfig) (val : LogDefines) : Option LogConfig :=
  if s.val = val then some s
  else (onChange s.val val s.loggers).map fun loggers ↦ ⟨val, loggers⟩

def LogConfig.start : LogConfig := ⟨.empty, .new⟩

/-! ## What a definition makes of its logger -/

/-- The formatter for a pattern that is given and valid. -/
def ownFormatter (pattern : String) : Option LogFormatter :=
  let fmt := LogFormatter.init pattern
  if !pattern.isEmpty && !fmt.isError then some fmt else none

/-- The formatter for a pattern, or the one there was. -/
def chosen (fmt : LogFormatter) (pattern : String) : LogFormatter := (ownFormatter pattern).getD fmt

def targetOf (a : LogAppenderDefine) : Target := if a.type = 1 then .file a.file else .stdout

def appenderOf (fmt : LogFormatter) (a : LogAppenderDefine) : LogAppender :=
  ⟨targetOf a, some (chosen fmt a.formatter), a.level, (ownFormatter a.formatter).isSome⟩

/-- The logger of a definition, with the formatter that it has in the end. -/
def loggerOf (fmt : LogFormatter) (i : LogDefine) : Logger :=
  ⟨i.name, i.level, fmt, i.appenders.map (appenderOf fmt)⟩

theorem newAppender_eq {a : LogAppenderDefine} (h : a.type = 1 ∨ a.type = 2) :
    newAppender a = some (.new (targetOf a)) := by
  unfold newAppender targetOf
  split
  · rfl
  · rename_i hne
    rw [if_pos (h.resolve_left hne)]

theorem applyAppender_eq {logger : Logger} {a : LogAppenderDefine} (h : a.type = 1 ∨ a.type = 2) :
    applyAppender logger a =
      some { logger with appenders := logger.appenders ++ [appenderOf logger.formatter a] } := by
  unfold applyAppender
  rw [newAppender_eq h]
  show some _ = some _
  unfold appenderOf chosen ownFormatter
  dsimp only
  split <;> rfl

theorem foldlM_applyAppender (as : List LogAppenderDefine) {logger : Logger}
    (h : ∀ a ∈ as, a.type = 1 ∨ a.type = 2) :
    as.foldlM applyAppender logger =
      some { logger with
        appenders := logger.appenders ++ as.map (appenderOf logger.formatter) } := by
  induction as generalizing logger with
  | nil =>
      rw [List.map_nil, List.append_nil]
      rfl
  | cons a as ih =>
      rw [List.foldlM_cons, applyAppender_eq (h a List.mem_cons_self)]
      show as.foldlM applyAppender _ = _
      rw [ih fun b hb ↦ h b (List.mem_cons_of_mem _ hb), List.append_assoc]
      rfl

theorem setFormatter_formatter (logger : Logger) (val : String) :
    (if !val.isEmpty then logger.setFormatter val else logger).formatter =
        chosen logger.formatter val ∧
      (if !val.isEmpty then logger.setFormatter val else logger).name = logger.name ∧
      (if !val.isEmpty then logger.setFormatter val else logger).level = logger.level := by
  unfold chosen ownFormatter Logger.setFormatter
  dsimp only
  cases val.isEmpty
  · cases (LogFormatter.init val).isError <;> exact ⟨rfl, rfl, rfl⟩
  · exact ⟨rfl, rfl, rfl⟩

theorem configure_eq {logger : Logger} {i : LogDefine}
    (h : ∀ a ∈ i.appenders, a.type = 1 ∨ a.type = 2) :
    configure logger i =
      some { loggerOf (chosen logger.formatter i.formatter) i with name := logger.name } := by
  obtain ⟨hformatter, hname, hlevel⟩ := setFormatter_formatter (logger.setLevel i.level) i.formatter
  unfold configure loggerOf
  rw [foldlM_applyAppender i.appenders h]
  dsimp only [Logger.clearAppenders]
  rw [hformatter, hname, hlevel, List.nil_append]
  rfl

/-! ## What the listener does to one logger -/

variable {S T oldValue newValue : LogDefines} {i : LogDefine} {m : LoggerManager} {n : String}

namespace LogDefines

theorem pairwise_ne (S : LogDefines) : S.defines.Pairwise fun i j ↦ i.name ≠ j.name :=
  S.sorted.imp fun h ↦ ne_of_lt h

theorem find_eq_some_iff : S.find n = some i ↔ i ∈ S.defines ∧ i.name = n := by
  unfold find
  constructor
  · intro h
    have hname := List.find?_some h
    exact ⟨List.mem_of_find?_eq_some h, beq_iff_eq.mp hname⟩
  · rintro ⟨hmem, rfl⟩
    cases hfind : S.defines.find? (·.name == i.name) with
    | none => exact absurd (List.find?_eq_none.mp hfind i hmem) (by simp)
    | some j =>
        have hname : (j.name == i.name) = true :=
          List.find?_some (p := fun j : LogDefine ↦ j.name == i.name) hfind
        rw [eq_of_key S.pairwise_ne (List.mem_of_find?_eq_some hfind) hmem (beq_iff_eq.mp hname)]

theorem find_eq_none_iff : S.find n = none ↔ ∀ i ∈ S.defines, i.name ≠ n := by
  unfold find
  rw [List.find?_eq_none]
  simp only [beq_iff_eq, ne_eq]

end LogDefines

/-- What the first loop makes of the entry of a definition. -/
def entryNew (oldValue : LogDefines) (i : LogDefine) (v : Option Logger) : Option Logger :=
  let logger := v.getD (Logger.new i.name)
  if changed oldValue i then
    some { loggerOf (chosen logger.formatter i.formatter) i with name := logger.name }
  else v

/-- What the second loop makes of it. -/
def entryDeleted (newValue : LogDefines) (i : LogDefine) (v : Option Logger) : Option Logger :=
  match newValue.find i.name with
  | some _ => v
  | none => some (((v.getD (Logger.new i.name)).setLevel .unknown).clearAppenders)

theorem onChange_eq : onChange oldValue newValue m =
    some (apply LogDefine.name (entryDeleted newValue)
      (apply LogDefine.name (entryNew oldValue) m newValue.defines) oldValue.defines) := by
  have hnew : newValue.defines.foldlM (applyNew oldValue) m =
      some (apply LogDefine.name (entryNew oldValue) m newValue.defines) := by
    apply foldlM_eq_some
    intro i hi m
    unfold applyNew entryNew
    dsimp only
    split
    · rw [configure_eq (newValue.typed i hi)]
      rfl
    · rw [Function.update_eq_self]
  have hdeleted : ∀ m i, applyDeleted newValue m i =
      Function.update m i.name (entryDeleted newValue i (m i.name)) := by
    intro m i
    unfold applyDeleted entryDeleted LoggerManager.modify
    split
    · rw [Function.update_eq_self]
    · rfl
  unfold onChange
  rw [hnew, Option.map_some]
  have hfold : (fun m i ↦ applyDeleted newValue m i) =
      fun m i ↦ Function.update m i.name (entryDeleted newValue i (m i.name)) :=
    funext fun m ↦ funext (hdeleted m)
  show some (oldValue.defines.foldl (fun m i ↦ applyDeleted newValue m i) _) = _
  rw [hfold]
  rfl

/-- The logger of a definition in the new value. -/
theorem onChange_of_mem {m' : LoggerManager} (h : onChange oldValue newValue m = some m')
    (hi : i ∈ newValue.defines) : m' i.name = entryNew oldValue i (m i.name) := by
  rw [onChange_eq] at h
  cases h
  have hnew := apply_of_mem (f := entryNew oldValue) (m := m) newValue.pairwise_ne hi
  -- the second loop leaves the names of the new value alone
  by_cases hold : ∃ j ∈ oldValue.defines, j.name = i.name
  · obtain ⟨j, hj, hname⟩ := hold
    rw [← hname, apply_of_mem oldValue.pairwise_ne hj]
    unfold entryDeleted
    rw [hname, LogDefines.find_eq_some_iff.mpr ⟨hi, rfl⟩, hnew]
  · rw [apply_of_ne fun j hj hname ↦ hold ⟨j, hj, hname⟩, hnew]

/-- A logger that the new value does not name keeps its name and its formatter. -/
theorem onChange_of_find_none {m' : LoggerManager} (h : onChange oldValue newValue m = some m')
    (hn : newValue.find n = none) :
    m' n = m n ∨
      m' n = some ((((m n).getD (Logger.new n)).setLevel .unknown).clearAppenders) := by
  rw [onChange_eq] at h
  cases h
  have hnew : apply LogDefine.name (entryNew oldValue) m newValue.defines n = m n :=
    apply_of_ne (LogDefines.find_eq_none_iff.mp hn)
  by_cases hold : ∃ j ∈ oldValue.defines, j.name = n
  · obtain ⟨j, hj, rfl⟩ := hold
    right
    rw [apply_of_mem oldValue.pairwise_ne hj, hnew]
    unfold entryDeleted
    rw [hn]
  · left
    rw [apply_of_ne fun j hj hname ↦ hold ⟨j, hj, hname⟩, hnew]

/-! ## Histories of configurations -/

/-- The last given and valid formatter for a name, or the default. -/
def lastFormatter (n : String) (hist : List LogDefines) : LogFormatter :=
  hist.foldl (fun fmt S ↦ ((S.find n).map fun i ↦ chosen fmt i.formatter).getD fmt) defaultFormatter

/-- The loggers after a history of configurations. -/
structure Configured (hist : List LogDefines) (s : LogConfig) : Prop where
  named : ∀ n l, s.loggers n = some l → l.name = n
  formatter : ∀ n, ((s.loggers n).getD (Logger.new n)).formatter = lastFormatter n hist
  kept : ∀ i ∈ s.val.defines,
    chosen (lastFormatter i.name hist) i.formatter = lastFormatter i.name hist
  made : ∀ i ∈ s.val.defines, s.loggers i.name = some (loggerOf (lastFormatter i.name hist) i)

variable {hist : List LogDefines} {s : LogConfig}

theorem lastFormatter_concat : lastFormatter n (hist ++ [S]) =
    ((S.find n).map fun i ↦ chosen (lastFormatter n hist) i.formatter).getD
      (lastFormatter n hist) := by
  unfold lastFormatter
  rw [List.foldl_append]
  rfl

theorem lastFormatter_of_mem (hi : i ∈ S.defines) :
    lastFormatter i.name (hist ++ [S]) = chosen (lastFormatter i.name hist) i.formatter := by
  rw [lastFormatter_concat, LogDefines.find_eq_some_iff.mpr ⟨hi, rfl⟩]
  rfl

theorem lastFormatter_of_find_none (hn : S.find n = none) :
    lastFormatter n (hist ++ [S]) = lastFormatter n hist := by
  rw [lastFormatter_concat, hn]
  rfl

theorem chosen_chosen {fmt : LogFormatter} {pattern : String} :
    chosen (chosen fmt pattern) pattern = chosen fmt pattern := by
  unfold chosen
  cases ownFormatter pattern <;> rfl

theorem Configured.name_getD (h : Configured hist s) :
    ((s.loggers n).getD (Logger.new n)).name = n := by
  cases hn : s.loggers n with
  | none => rfl
  | some l => exact h.named n l hn

/-- The loop leaves the logger of a definition as the definition says, modified or not. -/
theorem Configured.entry (h : Configured hist s) (hi : i ∈ S.defines) :
    entryNew s.val i (s.loggers i.name) =
      some (loggerOf (lastFormatter i.name (hist ++ [S])) i) := by
  rw [lastFormatter_of_mem hi]
  unfold entryNew
  dsimp only
  split
  · rw [h.formatter, h.name_getD]
    rfl
  · -- an unchanged definition is passed over, and its logger was made from it before
    rename_i hsame
    have hfind : s.val.find i.name = some i := by
      unfold changed at hsame
      cases hfind : s.val.find i.name with
      | none =>
          rw [hfind] at hsame
          exact absurd rfl hsame
      | some it =>
          rw [hfind] at hsame
          rw [not_not.mp (mt bne_iff_ne.mpr hsame)]
    have hmem := (LogDefines.find_eq_some_iff.mp hfind).1
    rw [h.kept i hmem]
    exact h.made i hmem

theorem Configured.setValue (h : Configured hist s) (S : LogDefines) :
    ∃ s', s.setValue S = some s' ∧ s'.val = S ∧ Configured (hist ++ [S]) s' := by
  -- `setValue` returns at once when the value is the same
  by_cases heq : s.val = S
  · refine ⟨s, if_pos heq, heq, h.named, fun n ↦ ?_, fun i hi ↦ ?_, fun i hi ↦ ?_⟩
    · rw [h.formatter]
      cases hn : S.find n with
      | none => exact (lastFormatter_of_find_none hn).symm
      | some i =>
          obtain ⟨hi, rfl⟩ := LogDefines.find_eq_some_iff.mp hn
          rw [lastFormatter_of_mem hi, h.kept i (heq ▸ hi)]
    · rw [lastFormatter_of_mem (heq ▸ hi), chosen_chosen]
    · rw [lastFormatter_of_mem (heq ▸ hi), h.kept i hi]
      exact h.made i hi
  · -- otherwise the listener runs, and goes through every name of the old and the new value
    obtain ⟨m', hm'⟩ : ∃ m', onChange s.val S s.loggers = some m' := ⟨_, onChange_eq⟩
    have hmade : ∀ i ∈ S.defines,
        m' i.name = some (loggerOf (lastFormatter i.name (hist ++ [S])) i) :=
      fun i hi ↦ (onChange_of_mem hm' hi).trans (h.entry hi)
    refine ⟨⟨S, m'⟩, ?_, rfl, fun n l hl ↦ ?_, fun n ↦ ?_, fun i hi ↦ ?_, hmade⟩
    · unfold LogConfig.setValue
      rw [if_neg heq, hm']
      rfl
    · cases hn : S.find n with
      | none =>
          rcases onChange_of_find_none hm' hn with hsame | hreset
          · exact h.named n l (hsame ▸ hl)
          · cases hreset.symm.trans hl
            exact h.name_getD
      | some i =>
          obtain ⟨hi, rfl⟩ := LogDefines.find_eq_some_iff.mp hn
          cases (hmade i hi).symm.trans hl
          rfl
    · cases hn : S.find n with
      | none =>
          rw [lastFormatter_of_find_none hn, ← h.formatter]
          rcases onChange_of_find_none hm' hn with hsame | hreset
          · show ((m' n).getD _).formatter = _
            rw [hsame]
          · show ((m' n).getD _).formatter = _
            rw [hreset]
            rfl
      | some i =>
          obtain ⟨hi, rfl⟩ := LogDefines.find_eq_some_iff.mp hn
          show ((m' i.name).getD _).formatter = _
          rw [hmade i hi]
          rfl
    · rw [lastFormatter_of_mem hi, chosen_chosen]

theorem start_configured : Configured [] .start := by
  have hnone : ∀ n, n ≠ "root" → LogConfig.start.loggers n = none := by
    intro n hn
    show Function.update (fun _ ↦ none) "root" _ n = none
    rw [Function.update_of_ne hn]
  refine ⟨fun n l hl ↦ ?_, fun n ↦ ?_, nofun, nofun⟩
  · by_cases hn : n = "root"
    · subst hn
      cases hl
      rfl
    · rw [hnone n hn] at hl
      cases hl
  · by_cases hn : n = "root"
    · subst hn
      rfl
    · rw [hnone n hn]
      rfl

/-- Applies a history of configurations, the first one first. -/
def applyAll (hist : List LogDefines) : Option LogConfig :=
  hist.foldlM LogConfig.setValue .start

theorem applyAll_concat (h : applyAll hist = some s) :
    applyAll (hist ++ [S]) = s.setValue S := by
  unfold applyAll at h ⊢
  rw [List.foldlM_append, h]
  show [S].foldlM LogConfig.setValue s = s.setValue S
  rw [List.foldlM_cons]
  cases s.setValue S <;> rfl

theorem applyAll_configured (hist : List LogDefines) :
    ∃ s, applyAll hist = some s ∧ Configured hist s := by
  induction hist using List.reverseRecOn with
  | nil => exact ⟨.start, rfl, start_configured⟩
  | append_singleton hist S ih =>
      obtain ⟨s, hs, h⟩ := ih
      obtain ⟨s', hs', -, h'⟩ := h.setValue S
      exact ⟨s', (applyAll_concat hs).trans hs', h'⟩

/-- After a history the logger of each definition in its last value is made from that definition. -/
theorem applyAll_logger (hist : List LogDefines) (S : LogDefines) :
    ∃ s, applyAll (hist ++ [S]) = some s ∧
      ∀ i ∈ S.defines, s.loggers i.name = some (loggerOf (lastFormatter i.name (hist ++ [S])) i) := by
  obtain ⟨s, hs, h⟩ := applyAll_configured hist
  obtain ⟨s', hs', rfl, h'⟩ := h.setValue S
  exact ⟨s', (applyAll_concat hs).trans hs', h'.made⟩

/-- What an appender has of its own. -/
def LogAppender.own (a : LogAppender) : Target × Level × Option LogFormatter :=
  (a.target, a.level, if a.hasFormatter then a.formatter else none)

theorem own_appenderOf {fmt fmt' : LogFormatter} {a : LogAppenderDefine} :
    (appenderOf fmt a).own = (appenderOf fmt' a).own := by
  unfold LogAppender.own appenderOf chosen
  dsimp only
  cases ownFormatter a.formatter <;> rfl

theorem inherits_appenderOf {fmt : LogFormatter} {a : LogAppenderDefine}
    (h : (appenderOf fmt a).hasFormatter = false) : (appenderOf fmt a).formatter = some fmt := by
  unfold appenderOf chosen at h ⊢
  dsimp only at h ⊢
  rw [Option.isSome_eq_false_iff, Option.isNone_iff_eq_none] at h
  rw [h]
  rfl

/-- The level of a logger, and its appenders up to inherited formatters, depend on the last value
alone; its formatter is the last one given for it that is valid. -/
theorem logger_of_last (hist : List LogDefines) (S : LogDefines) :
    ∃ s f, applyAll (hist ++ [S]) = some s ∧ applyAll [S] = some f ∧
      ∀ i ∈ S.defines, ∃ l l', s.loggers i.name = some l ∧ f.loggers i.name = some l' ∧
        l.level = l'.level ∧ l.appenders.map LogAppender.own = l'.appenders.map LogAppender.own ∧
        l.formatter = lastFormatter i.name (hist ++ [S]) ∧
        (∀ a ∈ l.appenders, a.hasFormatter = false → a.formatter = some l.formatter) ∧
        ((ownFormatter i.formatter).isSome = true → l = l') := by
  obtain ⟨s, hs, hmade⟩ := applyAll_logger hist S
  obtain ⟨f, hf, hfresh⟩ := applyAll_logger [] S
  refine ⟨s, f, hs, hf, fun i hi ↦ ⟨_, _, hmade i hi, hfresh i hi, rfl, ?_, rfl, ?_, fun hown ↦ ?_⟩⟩
  · unfold loggerOf
    rw [List.map_map, List.map_map]
    exact List.map_congr_left fun a _ ↦ own_appenderOf
  · intro a ha
    obtain ⟨d, -, rfl⟩ := List.mem_map.mp ha
    exact inherits_appenderOf
  · obtain ⟨fmt, hfmt⟩ := Option.isSome_iff_exists.mp hown
    -- a valid formatter in the last value hides all earlier ones
    have hlast : ∀ hist : List LogDefines, lastFormatter i.name (hist ++ [S]) = fmt := by
      intro hist
      rw [lastFormatter_of_mem hi]
      unfold chosen
      rw [hfmt]
      rfl
    rw [hlast hist, hlast []]

/-- One logger with one appender to the console, and a formatter. -/
def oneLogger (formatter : String) : LogDefines :=
  ⟨[⟨"system", .info, formatter, [⟨2, .unknown, "", ""⟩]⟩], List.pairwise_singleton _ _, by
    intro i hi a ha
    rw [List.mem_singleton.mp hi] at ha
    rw [List.mem_singleton.mp ha]
    exact .inr rfl⟩

/-- A formatter that is replaced by another one leaves nothing behind. -/
theorem logger_of_last_replaced : ∃ s f l,
    applyAll ([oneLogger "%m"] ++ [oneLogger "%m%n"]) = some s ∧
      applyAll [oneLogger "%m%n"] = some f ∧
      s.loggers "system" = some l ∧ f.loggers "system" = some l := by
  obtain ⟨s, f, hs, hf, h⟩ := logger_of_last [oneLogger "%m"] (oneLogger "%m%n")
  obtain ⟨l, l', hl, hl', -, -, -, -, hsame⟩ := h _ List.mem_cons_self
  obtain rfl := hsame (by decide +kernel)
  exact ⟨s, f, l, hs, hf, hl, hl'⟩

/-- A formatter that the last value no longer gives stays. -/
theorem formatter_survives : ∃ s f l l',
    applyAll [oneLogger "%m", oneLogger ""] = some s ∧ applyAll [oneLogger ""] = some f ∧
      s.loggers "system" = some l ∧ f.loggers "system" = some l' ∧
      l.formatter.pattern = "%m" ∧ l'.formatter.pattern ≠ "%m" := by
  obtain ⟨s, hs, h⟩ := applyAll_logger [oneLogger "%m"] (oneLogger "")
  obtain ⟨f, hf, h'⟩ := applyAll_logger [] (oneLogger "")
  refine ⟨s, f, _, _, hs, hf, h _ List.mem_cons_self, h' _ List.mem_cons_self, ?_, ?_⟩
  · decide +kernel
  · decide +kernel

end Server.Log
