import ServerFramework.Log.Registry
import ServerFramework.Log.Config

/-!
# The listener and the objects it changes

The listener of `LogIniter` with the loggers and the appenders as objects, which other labels and
other loggers may share.
-/

namespace Server.Log

open Runs

namespace Registry

/-! ## The listener -/

/-- An appender of a definition. -/
def applyAppender (l : LoggerId) (r : Registry) (a : LogAppenderDefine) : Option Registry := do
  let new ← newAppender a
  let ap := r.nextAppender
  let r := r.makeAppender new.target
  let r := r.setAppender ap ((r.appender ap).setLevel a.level)
  let fmt := LogFormatter.init a.formatter
  let r :=
    if !a.formatter.isEmpty && !fmt.isError then
      r.setAppender ap ((r.appender ap).setFormatter (some fmt))
    else r
  return r.addAppender l ap

/-- What the first loop does for a definition that is new or modified. -/
def configure (r : Registry) (i : LogDefine) : Option Registry :=
  let (l, r) := r.getLogger i.name
  let r := r.setLevel l i.level
  let r := if !i.formatter.isEmpty then r.setFormatter l i.formatter else r
  i.appenders.foldlM (applyAppender l) (r.clearAppenders l)

/-- One iteration of the first loop. -/
def applyNew (oldValue : LogDefines) (r : Registry) (i : LogDefine) : Option Registry :=
  if changed oldValue i then r.configure i else some r

/-- One iteration of the second loop. -/
def applyDeleted (newValue : LogDefines) (r : Registry) (i : LogDefine) : Registry :=
  match newValue.find i.name with
  | some _ => r
  | none =>
    let (l, r) := r.getLogger i.name
    (r.setLevel l .unknown).clearAppenders l

def onChange (oldValue newValue : LogDefines) (r : Registry) : Option Registry :=
  (newValue.defines.foldlM (applyNew oldValue) r).map fun r ↦
    oldValue.defines.foldl (applyDeleted newValue) r

end Registry

/-- What the listener can change of a logger. -/
structure Settings where
  level : Level
  formatter : LogFormatter
  appenders : List AppenderId
  deriving DecidableEq, Repr

/-- What is left of a logger whose definition is deleted. -/
def LogDefine.deleted (i : LogDefine) : LogDefine := ⟨i.name, .unknown, "", []⟩

/-- The definitions that the listener applies, one after the other. -/
def changes (oldValue newValue : LogDefines) : List LogDefine :=
  newValue.defines.filter (changed oldValue) ++
    (oldValue.defines.filter fun i ↦ (newValue.find i.name).isNone).map LogDefine.deleted

/-- What a logger with a new formatter passes to an appender. -/
def LogAppender.passed (a : LogAppender) (i : LogDefine) : LogAppender :=
  match ownFormatter i.formatter with
  | some fmt => a.inherit fmt
  | none => a

namespace Registry

variable {r r' r₁ r₂ : Registry} {l : LoggerId} {a : AppenderId} {name : String} {i : LogDefine}
  {is : List LogDefine} {call : RegistryCall}

def settings (r : Registry) (l : LoggerId) : Settings :=
  ⟨(r.logger l).level, (r.logger l).formatter, (r.logger l).appenders⟩

/-- The definitions for the labels of one logger. -/
def definesOf (r : Registry) (is : List LogDefine) (l : LoggerId) : List LogDefine :=
  is.filter fun i ↦ r.loggers i.name == some l

/-- Whether the logger of a definition still has the appender that it had before the listener ran,
when the definition gives it a formatter. -/
def passes (r r' : Registry) (is : List LogDefine) (a : AppenderId) (i : LogDefine) : Bool :=
  match r'.loggers i.name with
  | some l => (r'.definesOf is l).head? == some i && (r.settings l).appenders.contains a
  | none => false

/-- The definitions `is`, applied to the loggers of `r` in this order, lead to `r'`. -/
structure Applied (r : Registry) (is : List LogDefine) (r' : Registry) : Prop where
  nextLogger : r.nextLogger ≤ r'.nextLogger
  nextAppender : r.nextAppender ≤ r'.nextAppender
  /-- labels keep their loggers -/
  kept : ∀ name l, r.loggers name = some l → r'.loggers name = some l
  /-- every definition has a logger, and nothing else gets one -/
  named : ∀ i ∈ is, ∃ l, r'.loggers i.name = some l
  other : ∀ name, (∀ i ∈ is, i.name ≠ name) → r'.loggers name = r.loggers name
  /-- a label without a logger gets a new one of its own -/
  made : ∀ name l, r.loggers name = none → r'.loggers name = some l →
    r.nextLogger ≤ l ∧ ∀ label, r'.loggers label = some l → label = name
  unchanged : ∀ l, r'.definesOf is l = [] → r'.settings l = r.settings l
  formatter : ∀ l, (r'.settings l).formatter =
    (r'.definesOf is l).foldl (fun fmt i ↦ chosen fmt i.formatter) (r.settings l).formatter
  /-- the last definition counts -/
  level : ∀ l i, (r'.definesOf is l).getLast? = some i → (r'.settings l).level = i.level
  appenders : ∀ l i, (r'.definesOf is l).getLast? = some i →
    (r'.settings l).appenders.map r'.appender =
      i.appenders.map (appenderOf (r'.settings l).formatter)
  /-- these appenders are new ones -/
  fresh : ∀ l, r'.definesOf is l ≠ [] →
    (r'.settings l).appenders.Nodup ∧ ∀ a ∈ (r'.settings l).appenders, r.nextAppender ≤ a
  alone : ∀ l k a, l ≠ k → a ∈ (r'.settings l).appenders → a ∈ (r'.settings k).appenders →
    a < r.nextAppender
  /-- what happens to the appenders that were there -/
  appender : ∀ a < r.nextAppender,
    r'.appender a = (is.filter (passes r r' is a)).foldl LogAppender.passed (r.appender a)

/-! ## States of the registry -/

/-- Labels and loggers refer to objects that exist. -/
structure Valid (r : Registry) : Prop where
  labelled : ∀ label l, r.loggers label = some l → l < r.nextLogger
  unused : ∀ l, r.nextLogger ≤ l → r.settings l = ⟨.debug, defaultFormatter, []⟩
  attached : ∀ l, ∀ a ∈ (r.settings l).appenders, a < r.nextAppender

theorem settings_update {v : LoggerObject} (k : LoggerId) :
    (r.setLogger l v).settings k =
      if k = l then ⟨v.level, v.formatter, v.appenders⟩ else r.settings k := by
  unfold settings setLogger
  dsimp only
  split
  · rename_i hk
    rw [hk, Function.update_self]
  · rename_i hk
    rw [Function.update_of_ne hk]

theorem Valid.setLogger (h : Valid r) (hl : l < r.nextLogger) {v : LoggerObject}
    (hv : ∀ a ∈ v.appenders, a < r.nextAppender) : Valid (r.setLogger l v) := by
  constructor
  · exact h.labelled
  · intro k hk
    rw [settings_update, if_neg (Nat.ne_of_gt (Nat.lt_of_lt_of_le hl hk))]
    exact h.unused k hk
  · intro k a ha
    rw [settings_update] at ha
    split at ha
    · exact hv a ha
    · exact h.attached k a ha

theorem Valid.setAppenders (h : Valid r) (f : AppenderId → LogAppender) :
    Valid { r with appender := f } :=
  ⟨h.labelled, h.unused, h.attached⟩

theorem Valid.makeLogger (h : Valid r) (name : String) : Valid (r.makeLogger name) := by
  constructor
  · intro label l hl
    exact Nat.lt_succ_of_lt (h.labelled label l hl)
  · intro k hk
    show (r.setLogger r.nextLogger (.new name)).settings k = _
    have hk : r.nextLogger + 1 ≤ k := hk
    rw [settings_update, if_neg (Nat.ne_of_gt hk)]
    exact h.unused k (Nat.le_of_lt hk)
  · intro k a ha
    have ha : a ∈ ((r.setLogger r.nextLogger (.new name)).settings k).appenders := ha
    rw [settings_update] at ha
    split at ha
    · cases ha
    · exact h.attached k a ha

theorem Valid.setLabel (h : Valid r) (hl : l < r.nextLogger) (label : String) :
    Valid { r with loggers := Function.update r.loggers label (some l) } := by
  refine ⟨fun k m hm ↦ ?_, h.unused, h.attached⟩
  have hm : Function.update r.loggers label (some l) k = some m := hm
  by_cases hk : k = label
  · rw [hk, Function.update_self] at hm
    rw [← Option.some.inj hm]
    exact hl
  · rw [Function.update_of_ne hk] at hm
    exact h.labelled k m hm

theorem Valid.getLogger (h : Valid r) (name : String) : Valid (r.getLogger name).2 := by
  unfold Registry.getLogger
  split
  · exact h
  · have hlt : r.nextLogger < (r.makeLogger name).nextLogger := Nat.lt_succ_self _
    apply ((h.makeLogger name).setLogger hlt _).setLabel hlt
    intro a ha
    exact (h.makeLogger name).attached r.nextLogger a ha

theorem Valid.addAppender (h : Valid r) (hl : l < r.nextLogger) (ha : a < r.nextAppender) :
    Valid (r.addAppender l a) := by
  have hmem : ∀ b ∈ (r.logger l).appenders ++ [a], b < r.nextAppender := by
    intro b hb
    rcases List.mem_append.mp hb with hb | hb
    · exact h.attached l b hb
    · rw [List.mem_singleton.mp hb]
      exact ha
  unfold Registry.addAppender
  dsimp only
  split
  · exact (h.setAppenders (Function.update r.appender a _)).setLogger hl hmem
  · exact h.setLogger hl hmem

theorem Valid.assignFormatter (h : Valid r) (hl : l < r.nextLogger) (val : LogFormatter) :
    Valid (r.assignFormatter l val) :=
  (h.setLogger hl (v := { r.logger l with formatter := val }) (h.attached l)).setAppenders _

theorem Valid.step (h : Valid r) (hstep : r.step call = some r') : Valid r' := by
  unfold Registry.step at hstep
  split at hstep
  · rename_i hargs
    obtain rfl := Option.some.inj hstep
    obtain ⟨hloggers, happenders⟩ := hargs
    cases call with
    | getLogger name => exact h.getLogger name
    | makeLogger name => exact h.makeLogger name
    | storeLogger label l =>
        show Valid (r.storeLogger label l).2
        unfold Registry.storeLogger
        split
        · exact h
        · exact h.setLabel (hloggers l List.mem_cons_self) label
    | makeAppender target =>
        refine ⟨h.labelled, h.unused, fun k a ha ↦ ?_⟩
        exact Nat.lt_succ_of_lt (h.attached k a ha)
    | setAppenderLevel _ _ | setOwn _ _ => exact h.setAppenders _
    | addAppender l a =>
        exact h.addAppender (hloggers l List.mem_cons_self) (happenders a List.mem_cons_self)
    | delAppender l a =>
        apply h.setLogger (hloggers l List.mem_cons_self)
        intro b hb
        exact h.attached l b (List.mem_of_mem_erase hb)
    | clearAppenders l => exact h.setLogger (hloggers l List.mem_cons_self) nofun
    | setLevel l level => exact h.setLogger (hloggers l List.mem_cons_self) (h.attached l)
    | setFormatter l val => exact h.assignFormatter (hloggers l List.mem_cons_self) val
    | setPattern l val =>
        show Valid (r.setFormatter l val)
        unfold Registry.setFormatter
        dsimp only
        split
        · exact h
        · exact h.assignFormatter (hloggers l List.mem_cons_self) _
  · cases hstep

theorem new_valid : Valid new := by
  have hempty : Valid empty := ⟨nofun, fun _ _ ↦ rfl, nofun⟩
  have hroot := hempty.makeLogger "root"
  have happender : Valid ((empty.makeLogger "root").makeAppender .stdout) :=
    ⟨hroot.labelled, hroot.unused, fun k a ha ↦ Nat.lt_succ_of_lt (hroot.attached k a ha)⟩
  have hadd := happender.addAppender (l := 0) (a := 0) (by decide) (by decide)
  have hlabel := hadd.setLabel (l := 0) (by decide) "root"
  exact ⟨hlabel.labelled, hlabel.unused, hlabel.attached⟩

/-! ## One definition -/

theorem applyAppender_eq {a : LogAppenderDefine} (h : a.type = 1 ∨ a.type = 2) :
    applyAppender l r a = some { r with
      logger := Function.update r.logger l
        { r.logger l with appenders := (r.logger l).appenders ++ [r.nextAppender] }
      appender := Function.update r.appender r.nextAppender (appenderOf (r.logger l).formatter a)
      nextAppender := r.nextAppender + 1 } := by
  unfold applyAppender
  rw [newAppender_eq h]
  show some _ = some _
  unfold appenderOf chosen ownFormatter addAppender setLogger setAppender makeAppender
  dsimp only [setAppender]
  split
  · simp only [Function.update_self, Function.update_idem]
    rfl
  · simp only [Function.update_self, Function.update_idem]
    rfl

/-- A logger `l` after the appenders of a definition are attached. -/
structure Appended (r : Registry) (l : LoggerId) (as : List LogAppenderDefine) (r' : Registry) :
    Prop where
  logger : r'.logger = Function.update r.logger l { r.logger l with
    appenders := (r.logger l).appenders ++ List.range' r.nextAppender as.length }
  nextAppender : r'.nextAppender = r.nextAppender + as.length
  old : ∀ a < r.nextAppender, r'.appender a = r.appender a
  values : (List.range' r.nextAppender as.length).map r'.appender =
    as.map (appenderOf (r.logger l).formatter)
  loggers : r'.loggers = r.loggers
  nextLogger : r'.nextLogger = r.nextLogger

theorem foldlM_applyAppender (as : List LogAppenderDefine) (h : ∀ a ∈ as, a.type = 1 ∨ a.type = 2) :
    ∃ r', as.foldlM (applyAppender l) r = some r' ∧ Appended r l as r' := by
  induction as generalizing r with
  | nil =>
      refine ⟨r, rfl, ?_, rfl, fun _ _ ↦ rfl, rfl, rfl, rfl⟩
      show r.logger = Function.update r.logger l { r.logger l with
        appenders := (r.logger l).appenders ++ [] }
      rw [List.append_nil, Function.update_eq_self]
  | cons a as ih =>
      rw [List.foldlM_cons, applyAppender_eq (h a List.mem_cons_self)]
      obtain ⟨r', hr', happended⟩ := ih (r := { r with
        logger := Function.update r.logger l
          { r.logger l with appenders := (r.logger l).appenders ++ [r.nextAppender] }
        appender := Function.update r.appender r.nextAppender (appenderOf (r.logger l).formatter a)
        nextAppender := r.nextAppender + 1 }) fun b hb ↦ h b (List.mem_cons_of_mem _ hb)
      refine ⟨r', hr', ?_, ?_, ?_, ?_, happended.loggers, happended.nextLogger⟩
      · rw [happended.logger]
        dsimp only
        rw [Function.update_idem, Function.update_self, List.append_assoc]
        rfl
      · rw [happended.nextAppender, List.length_cons]
        exact Nat.succ_add_eq_add_succ r.nextAppender as.length
      · intro b hb
        rw [happended.old b (Nat.lt_succ_of_lt hb)]
        exact Function.update_of_ne (Nat.ne_of_lt hb) _ _
      · have hhead : r'.appender r.nextAppender = appenderOf (r.logger l).formatter a := by
          rw [happended.old r.nextAppender (Nat.lt_succ_self _)]
          exact Function.update_self _ _ _
        have htail := happended.values
        dsimp only at htail
        rw [Function.update_self] at htail
        rw [List.length_cons, List.range'_succ, List.map_cons, List.map_cons, hhead, htail]

theorem Appended.settings {as : List LogAppenderDefine} (h : Appended r l as r') (k : LoggerId) :
    r'.settings k =
      if k = l then { r.settings l with
        appenders := (r.settings l).appenders ++ List.range' r.nextAppender as.length }
      else r.settings k := by
  have hset : r'.settings k = (r.setLogger l { r.logger l with
      appenders := (r.logger l).appenders ++ List.range' r.nextAppender as.length }).settings k := by
    unfold Registry.settings
    rw [h.logger]
    rfl
  rw [hset]
  exact settings_update k

theorem setFormatter_eq (val : String) :
    (if !val.isEmpty then r.setFormatter l val else r) =
      match ownFormatter val with
      | some fmt => r.assignFormatter l fmt
      | none => r := by
  unfold setFormatter ownFormatter
  dsimp only
  cases val.isEmpty
  · cases (LogFormatter.init val).isError <;> rfl
  · rfl

theorem setLevel_settings (level : Level) (k : LoggerId) : (r.setLevel l level).settings k =
    if k = l then { r.settings l with level := level } else r.settings k :=
  settings_update k

theorem clearAppenders_settings (k : LoggerId) : (r.clearAppenders l).settings k =
    if k = l then { r.settings l with appenders := [] } else r.settings k :=
  settings_update k

theorem assignFormatter_settings (val : LogFormatter) (k : LoggerId) :
    (r.assignFormatter l val).settings k =
      if k = l then { r.settings l with formatter := val } else r.settings k :=
  settings_update k

theorem assignFormatter_appender (val : LogFormatter) (a : AppenderId) :
    (r.assignFormatter l val).appender a =
      if a ∈ (r.settings l).appenders then (r.appender a).inherit val else r.appender a := by
  show Attachment.inheritAll val r.appender (Function.update r.logger l _ l).appenders a = _
  rw [Attachment.inheritAll_apply, Function.update_self]
  rfl

/-- What is done for a definition before its appenders are attached. -/
def prepare (r : Registry) (l : LoggerId) (i : LogDefine) : Registry :=
  let r := r.setLevel l i.level
  let r := if !i.formatter.isEmpty then r.setFormatter l i.formatter else r
  r.clearAppenders l

/-- The appenders that a logger had get its formatter, and then it has none. -/
structure Prepared (r : Registry) (l : LoggerId) (i : LogDefine) (r' : Registry) : Prop where
  settings : ∀ k, r'.settings k =
    if k = l then ⟨i.level, chosen (r.settings l).formatter i.formatter, []⟩ else r.settings k
  appender : ∀ a, r'.appender a =
    if a ∈ (r.settings l).appenders then (r.appender a).passed i else r.appender a
  nextAppender : r'.nextAppender = r.nextAppender
  loggers : r'.loggers = r.loggers
  nextLogger : r'.nextLogger = r.nextLogger

theorem prepare_spec (r : Registry) (l : LoggerId) (i : LogDefine) :
    Prepared r l i (r.prepare l i) := by
  have hlevel := setLevel_settings (r := r) (l := l) i.level
  have hself := hlevel l
  rw [if_pos rfl] at hself
  unfold prepare
  dsimp only
  rw [setFormatter_eq]
  cases hown : ownFormatter i.formatter with
  | none =>
      refine ⟨fun k ↦ ?_, fun a ↦ ?_, rfl, rfl, rfl⟩
      · dsimp only
        rw [clearAppenders_settings, hself, hlevel, chosen, hown]
        split <;> rfl
      · rw [LogAppender.passed, hown]
        exact (ite_self _).symm
  | some fmt =>
      refine ⟨fun k ↦ ?_, fun a ↦ ?_, rfl, rfl, rfl⟩
      · dsimp only
        rw [clearAppenders_settings, assignFormatter_settings, assignFormatter_settings, if_pos rfl,
          hself, hlevel, chosen, hown]
        split <;> rfl
      · show ((r.setLevel l i.level).assignFormatter l fmt).appender a = _
        rw [assignFormatter_appender, hself, LogAppender.passed, hown]
        rfl

/-- The logger of a name, which is made if there is none, and nothing else. -/
structure Got (r : Registry) (name : String) (l : LoggerId) (r' : Registry) : Prop where
  loggers : r'.loggers = Function.update r.loggers name (some l)
  origin : r.loggers name = some l ∧ r'.nextLogger = r.nextLogger ∨
    r.loggers name = none ∧ l = r.nextLogger ∧ r'.nextLogger = r.nextLogger + 1
  settings : ∀ k, r'.settings k = r.settings k
  appender : r'.appender = r.appender
  nextAppender : r'.nextAppender = r.nextAppender

theorem getLogger_spec (h : Valid r) (name : String) :
    Got r name (r.getLogger name).1 (r.getLogger name).2 := by
  unfold getLogger
  cases hlabel : r.loggers name with
  | some l =>
      dsimp only
      refine ⟨?_, .inl ⟨hlabel, rfl⟩, fun _ ↦ rfl, rfl, rfl⟩
      rw [← hlabel, Function.update_eq_self]
  | none =>
      dsimp only
      refine ⟨rfl, .inr ⟨hlabel, rfl, rfl⟩, fun k ↦ ?_, rfl, rfl⟩
      -- a logger that does not exist yet counts as one with the default settings
      have hnew : ∀ k, (r.makeLogger name).settings k = r.settings k := by
        intro k
        show (r.setLogger r.nextLogger (.new name)).settings k = r.settings k
        rw [settings_update]
        split
        · rename_i hk
          rw [hk, h.unused _ (Nat.le_refl _)]
          rfl
        · rfl
      have hlink := settings_update (r := r.makeLogger name) (l := r.nextLogger)
        (v := { (r.makeLogger name).logger r.nextLogger with root := some r.root }) k
      have hsame : (r.makeLogger name).settings k = r.settings k := hnew k
      refine Eq.trans hlink ?_
      split
      · rename_i hk
        rw [← hsame, hk]
        rfl
      · exact hsame

/-- A registry after a definition is applied to its logger `l`. -/
structure Configured (r : Registry) (i : LogDefine) (l : LoggerId) (r' : Registry) : Prop where
  loggers : r'.loggers = Function.update r.loggers i.name (some l)
  origin : r.loggers i.name = some l ∧ r'.nextLogger = r.nextLogger ∨
    r.loggers i.name = none ∧ l = r.nextLogger ∧ r'.nextLogger = r.nextLogger + 1
  settings : ∀ k, r'.settings k =
    if k = l then
      ⟨i.level, chosen (r.settings l).formatter i.formatter,
        List.range' r.nextAppender i.appenders.length⟩
    else r.settings k
  nextAppender : r'.nextAppender = r.nextAppender + i.appenders.length
  values : (List.range' r.nextAppender i.appenders.length).map r'.appender =
    i.appenders.map (appenderOf (chosen (r.settings l).formatter i.formatter))
  appender : ∀ a < r.nextAppender, r'.appender a =
    if a ∈ (r.settings l).appenders then (r.appender a).passed i else r.appender a

theorem configure_spec (h : Valid r) (htyped : ∀ a ∈ i.appenders, a.type = 1 ∨ a.type = 2) :
    ∃ l r', r.configure i = some r' ∧ Configured r i l r' := by
  have hgot := getLogger_spec h i.name
  have hprepared := prepare_spec (r.getLogger i.name).2 (r.getLogger i.name).1 i
  obtain ⟨r', hr', happended⟩ := foldlM_applyAppender i.appenders htyped
    (r := (r.getLogger i.name).2.prepare (r.getLogger i.name).1 i) (l := (r.getLogger i.name).1)
  refine ⟨(r.getLogger i.name).1, r', hr', ?_⟩
  generalize (r.getLogger i.name).1 = l at *
  generalize (r.getLogger i.name).2 = r₁ at *
  have hnext : (r₁.prepare l i).nextAppender = r.nextAppender :=
    hprepared.nextAppender.trans hgot.nextAppender
  have hself := hprepared.settings l
  rw [if_pos rfl, hgot.settings] at hself
  have hformatter : ((r₁.prepare l i).logger l).formatter =
      chosen (r.settings l).formatter i.formatter := congrArg Settings.formatter hself
  have hvalues := happended.values
  rw [hnext, hformatter] at hvalues
  constructor
  · rw [happended.loggers, hprepared.loggers, hgot.loggers]
  · rw [happended.nextLogger, hprepared.nextLogger]
    exact hgot.origin
  · intro k
    rw [happended.settings, hself, hnext, hprepared.settings, hgot.settings k]
    split <;> rfl
  · rw [happended.nextAppender, hnext]
  · exact hvalues
  · intro a ha
    rw [happended.old a (hnext ▸ ha), hprepared.appender, hgot.settings, hgot.appender]

/-! ## One definition after the other -/

theorem Configured.nextLogger_le (h : Configured r i l r') : r.nextLogger ≤ r'.nextLogger := by
  rcases h.origin with ⟨_, hsame⟩ | ⟨_, _, hnew⟩
  · exact hsame ▸ Nat.le_refl _
  · exact hnew ▸ Nat.le_succ _

theorem Configured.kept (h : Configured r i l r') {name : String} {k : LoggerId}
    (hk : r.loggers name = some k) : r'.loggers name = some k := by
  rw [h.loggers]
  by_cases hname : name = i.name
  · rw [hname, Function.update_self]
    rcases h.origin with ⟨hlabel, _⟩ | ⟨hnone, _⟩
    · rw [← hlabel, ← hname, hk]
    · rw [hname, hnone] at hk
      cases hk
  · rw [Function.update_of_ne hname, hk]

theorem Configured.labelled (h : Configured r i l r') : r'.loggers i.name = some l := by
  rw [h.loggers, Function.update_self]

theorem Configured.valid (h : Configured r i l r') (hr : Valid r) : Valid r' := by
  have hl : l < r'.nextLogger := by
    rcases h.origin with ⟨hlabel, hsame⟩ | ⟨_, rfl, hnew⟩
    · exact hsame ▸ hr.labelled _ _ hlabel
    · exact hnew ▸ Nat.lt_succ_self _
  constructor
  · intro label k hk
    rw [h.loggers] at hk
    by_cases hname : label = i.name
    · rw [hname, Function.update_self] at hk
      exact Option.some.inj hk ▸ hl
    · rw [Function.update_of_ne hname] at hk
      exact Nat.lt_of_lt_of_le (hr.labelled _ _ hk) h.nextLogger_le
  · intro k hk
    rw [h.settings, if_neg (Nat.ne_of_gt (Nat.lt_of_lt_of_le hl hk))]
    exact hr.unused k (Nat.le_trans h.nextLogger_le hk)
  · intro k a ha
    rw [h.nextAppender]
    rw [h.settings] at ha
    split at ha
    · exact (List.mem_range'_1.mp ha).2
    · exact Nat.lt_of_lt_of_le (hr.attached k a ha) (Nat.le_add_right _ _)

/-- Definitions applied so far keep their loggers. -/
theorem Configured.definesOf (h : Configured r₁ i l r₂)
    (hnamed : ∀ j ∈ is, ∃ k, r₁.loggers j.name = some k) (k : LoggerId) :
    r₂.definesOf (is ++ [i]) k = r₁.definesOf is k ++ if k = l then [i] else [] := by
  have hold : is.filter (fun j ↦ r₂.loggers j.name == some k) =
      is.filter fun j ↦ r₁.loggers j.name == some k := by
    apply List.filter_congr
    intro j hj
    obtain ⟨m, hm⟩ := hnamed j hj
    rw [hm, h.kept hm]
  unfold Registry.definesOf
  rw [List.filter_append, hold]
  congr 1
  rw [List.filter_singleton, h.labelled]
  by_cases hk : k = l
  · rw [hk, if_pos rfl, beq_self_eq_true]
    rfl
  · rw [if_neg hk, beq_false_of_ne fun heq ↦ hk (Option.some.inj heq).symm]
    rfl

theorem Valid.applied_nil (h : Valid r) : Applied r [] r := by
  constructor
  · exact Nat.le_refl _
  · exact Nat.le_refl _
  · exact fun _ _ hl ↦ hl
  · exact fun i hi ↦ absurd hi List.not_mem_nil
  · exact fun _ _ ↦ rfl
  · intro name l hnone hsome
    rw [hnone] at hsome
    cases hsome
  · exact fun _ _ ↦ rfl
  · exact fun _ ↦ rfl
  · intro l i hi
    cases hi
  · intro l i hi
    cases hi
  · exact fun l hne ↦ absurd rfl hne
  · exact fun l k a _ ha _ ↦ h.attached l a ha
  · exact fun _ _ ↦ rfl

namespace Applied

variable {k : LoggerId}

/-- Only the definition that made a label's logger refers to it. -/
theorem made_snoc (h : Applied r is r₁) (hr : Valid r₁) (hc : Configured r₁ i l r₂)
    (hnone : r.loggers name = none) (hk : r₂.loggers name = some k) :
    r.nextLogger ≤ k ∧ ∀ label, r₂.loggers label = some k → label = name := by
  have hlabel : ∀ label, label ≠ i.name → r₂.loggers label = r₁.loggers label := by
    intro label hne
    rw [hc.loggers, Function.update_of_ne hne]
  by_cases hname : name = i.name
  · have hkl : k = l := by
      rw [hname, hc.labelled] at hk
      exact (Option.some.inj hk).symm
    subst hkl
    rcases hc.origin with ⟨hold, _⟩ | ⟨_, hnext, _⟩
    · obtain ⟨hle, honly⟩ := h.made name k hnone (hname ▸ hold)
      refine ⟨hle, fun label hlab ↦ ?_⟩
      by_cases hne : label = i.name
      · rw [hne, hname]
      · exact honly label (hlabel label hne ▸ hlab)
    · refine ⟨hnext ▸ h.nextLogger, fun label hlab ↦ ?_⟩
      by_cases hne : label = i.name
      · rw [hne, hname]
      · rw [hlabel label hne] at hlab
        exact absurd (hr.labelled label k hlab) (hnext ▸ Nat.lt_irrefl _)
  · rw [hlabel name hname] at hk
    obtain ⟨hle, honly⟩ := h.made name k hnone hk
    refine ⟨hle, fun label hlab ↦ ?_⟩
    by_cases hne : label = i.name
    · rw [hne, hc.labelled] at hlab
      obtain rfl := Option.some.inj hlab
      rcases hc.origin with ⟨hold, _⟩ | ⟨_, hnext, _⟩
      · rw [hne]
        exact honly i.name hold
      · exact absurd (hr.labelled name l hk) (hnext ▸ Nat.lt_irrefl _)
    · exact honly label (hlabel label hne ▸ hlab)

/-- An appender from before the listener ran is attached to the next logger only if no definition has
been applied to that yet. -/
theorem attached_iff (h : Applied r is r₁) (ha : a < r.nextAppender) (l : LoggerId) :
    a ∈ (r₁.settings l).appenders ↔ r₁.definesOf is l = [] ∧ a ∈ (r.settings l).appenders := by
  by_cases hnil : r₁.definesOf is l = []
  · rw [h.unchanged l hnil]
    exact (and_iff_right hnil).symm
  · apply iff_of_false
    · intro hmem
      exact absurd ((h.fresh l hnil).2 a hmem) (Nat.not_le_of_lt ha)
    · exact fun hand ↦ hnil hand.1

theorem passes_snoc (h : Applied r is r₁) (hc : Configured r₁ i l r₂) {j : LogDefine} (hj : j ∈ is) :
    passes r r₂ (is ++ [i]) a j = passes r r₁ is a j := by
  obtain ⟨k, hk⟩ := h.named j hj
  have hmem : j ∈ r₁.definesOf is k := List.mem_filter.mpr ⟨hj, by rw [hk, beq_self_eq_true]⟩
  unfold passes
  rw [hk, hc.kept hk]
  dsimp only
  rw [hc.definesOf h.named, List.head?_append_of_ne_nil _ (List.ne_nil_of_mem hmem)]

theorem passes_last (h : Applied r is r₁) (hc : Configured r₁ i l r₂)
    (hi : ∀ j ∈ is, j.name ≠ i.name) (ha : a < r.nextAppender) :
    passes r r₂ (is ++ [i]) a i = true ↔ a ∈ (r₁.settings l).appenders := by
  rw [h.attached_iff ha]
  unfold passes
  rw [hc.labelled]
  dsimp only
  rw [hc.definesOf h.named, if_pos rfl, Bool.and_eq_true, List.contains_iff_mem, beq_iff_eq]
  cases hdefs : r₁.definesOf is l with
  | nil => simp only [List.nil_append, List.head?_cons, true_and]
  | cons j js =>
      -- another definition comes first, and has another name
      have hj : j ∈ is := by
        have hmem : j ∈ r₁.definesOf is l := hdefs ▸ List.mem_cons_self
        exact (List.mem_filter.mp hmem).1
      have hne : j ≠ i := fun heq ↦ hi j hj (heq ▸ rfl)
      simp only [List.cons_append, List.head?_cons, Option.some.injEq, hne, false_and, reduceCtorEq]

/-- The appenders that were attached for an earlier definition are not touched any more. -/
theorem appenders_snoc (h : Applied r is r₁) (hr : Valid r₁) (hc : Configured r₁ i l r₂)
    (hk : k ≠ l) (hne : r₁.definesOf is k ≠ []) :
    (r₁.settings k).appenders.map r₂.appender = (r₁.settings k).appenders.map r₁.appender := by
  apply List.map_congr_left
  intro a ha
  rw [hc.appender a (hr.attached k a ha), if_neg]
  intro hmem
  have hold := h.alone k l a hk ha hmem
  exact absurd ((h.fresh k hne).2 a ha) (Nat.not_le_of_lt hold)

theorem alone_snoc (h : Applied r is r₁) (hr : Valid r₁) (hc : Configured r₁ i l r₂)
    {m : LoggerId} (hkm : k ≠ m) (ha : a ∈ (r₂.settings k).appenders)
    (ha' : a ∈ (r₂.settings m).appenders) : a < r.nextAppender := by
  rw [hc.settings] at ha ha'
  by_cases hk : k = l
  · rw [if_pos hk] at ha
    rw [if_neg fun hm ↦ hkm (hk.trans hm.symm)] at ha'
    exact absurd (hr.attached m a ha') (Nat.not_lt_of_le (List.mem_range'_1.mp ha).1)
  · rw [if_neg hk] at ha
    by_cases hm : m = l
    · rw [if_pos hm] at ha'
      exact absurd (hr.attached k a ha) (Nat.not_lt_of_le (List.mem_range'_1.mp ha').1)
    · rw [if_neg hm] at ha'
      exact h.alone k m a hkm ha ha'

theorem appender_snoc (h : Applied r is r₁) (hc : Configured r₁ i l r₂)
    (hi : ∀ j ∈ is, j.name ≠ i.name) (ha : a < r.nextAppender) :
    r₂.appender a =
      ((is ++ [i]).filter (passes r r₂ (is ++ [i]) a)).foldl LogAppender.passed (r.appender a) := by
  have hfilter : is.filter (passes r r₂ (is ++ [i]) a) = is.filter (passes r r₁ is a) :=
    List.filter_congr fun j hj ↦ h.passes_snoc hc hj
  have hlast := h.passes_last hc hi ha
  rw [hc.appender a (Nat.lt_of_lt_of_le ha h.nextAppender), h.appender a ha, List.filter_append,
    hfilter, List.foldl_append, List.filter_singleton]
  by_cases hmem : a ∈ (r₁.settings l).appenders
  · rw [if_pos hmem, hlast.mpr hmem]
    rfl
  · rw [if_neg hmem, Bool.eq_false_iff.mpr fun hpass ↦ hmem (hlast.mp hpass)]
    rfl

theorem snoc (h : Applied r is r₁) (hr : Valid r₁) (hc : Configured r₁ i l r₂)
    (hi : ∀ j ∈ is, j.name ≠ i.name) : Applied r (is ++ [i]) r₂ := by
  have hdefs := hc.definesOf h.named
  -- the logger of the last definition, and the others
  have hself : r₂.settings l = _ := (hc.settings l).trans (if_pos rfl)
  have hother : ∀ k ≠ l, r₂.settings k = r₁.settings k := fun k hk ↦ by
    rw [hc.settings, if_neg hk]
  have hdefs_self : r₂.definesOf (is ++ [i]) l = r₁.definesOf is l ++ [i] := by
    rw [hdefs, if_pos rfl]
  have hdefs_other : ∀ k ≠ l, r₂.definesOf (is ++ [i]) k = r₁.definesOf is k := fun k hk ↦ by
    rw [hdefs, if_neg hk, List.append_nil]
  constructor
  · exact Nat.le_trans h.nextLogger hc.nextLogger_le
  · rw [hc.nextAppender]
    exact Nat.le_trans h.nextAppender (Nat.le_add_right _ _)
  · exact fun name k hk ↦ hc.kept (h.kept name k hk)
  · intro j hj
    rcases List.mem_append.mp hj with hj | hj
    · obtain ⟨k, hk⟩ := h.named j hj
      exact ⟨k, hc.kept hk⟩
    · rw [List.mem_singleton.mp hj]
      exact ⟨l, hc.labelled⟩
  · intro name hname
    have hne : name ≠ i.name := (hname i (List.mem_append_right _ List.mem_cons_self)).symm
    rw [hc.loggers, Function.update_of_ne hne]
    exact h.other name fun j hj ↦ hname j (List.mem_append_left _ hj)
  · exact fun name k hnone hk ↦ h.made_snoc hr hc hnone hk
  · intro k hnil
    by_cases hk : k = l
    · rw [hk, hdefs_self] at hnil
      exact absurd hnil (List.append_ne_nil_of_right_ne_nil _ (List.cons_ne_nil _ _))
    · rw [hother k hk]
      exact h.unchanged k (hdefs_other k hk ▸ hnil)
  · intro k
    by_cases hk : k = l
    · rw [hk, hself, hdefs_self, List.foldl_append, ← h.formatter l]
      rfl
    · rw [hother k hk, hdefs_other k hk]
      exact h.formatter k
  · intro k j hj
    by_cases hk : k = l
    · rw [hk, hdefs_self, List.getLast?_concat] at hj
      rw [hk, hself, Option.some.inj hj]
    · rw [hdefs_other k hk] at hj
      rw [hother k hk]
      exact h.level k j hj
  · intro k j hj
    by_cases hk : k = l
    · rw [hk, hdefs_self, List.getLast?_concat] at hj
      rw [hk, hself, ← Option.some.inj hj]
      exact hc.values
    · rw [hdefs_other k hk] at hj
      have hne : r₁.definesOf is k ≠ [] := fun hnil ↦ by
        rw [hnil] at hj
        cases hj
      rw [hother k hk, h.appenders_snoc hr hc hk hne]
      exact h.appenders k j hj
  · intro k hne
    by_cases hk : k = l
    · rw [hk, hself]
      refine ⟨List.nodup_range', fun a ha ↦ ?_⟩
      exact Nat.le_trans h.nextAppender (List.mem_range'_1.mp ha).1
    · rw [hother k hk]
      exact h.fresh k (hdefs_other k hk ▸ hne)
  · exact fun k m a hkm ha ha' ↦ h.alone_snoc hr hc hkm ha ha'
  · exact fun a ha ↦ h.appender_snoc hc hi ha

end Applied

/-- Definitions with different names, applied one after the other. -/
theorem Valid.foldlM_configure (h : Valid r) (hnames : is.Pairwise fun i j ↦ i.name ≠ j.name)
    (htyped : ∀ i ∈ is, ∀ a ∈ i.appenders, a.type = 1 ∨ a.type = 2) :
    ∃ r', is.foldlM configure r = some r' ∧ Valid r' ∧ Applied r is r' := by
  induction is using List.reverseRecOn with
  | nil => exact ⟨r, rfl, h, h.applied_nil⟩
  | append_singleton is i ih =>
      obtain ⟨hinit, _, hlast⟩ := List.pairwise_append.mp hnames
      obtain ⟨r₁, hr₁, hvalid, happlied⟩ :=
        ih hinit fun j hj ↦ htyped j (List.mem_append_left _ hj)
      have hi := htyped i (List.mem_append_right _ List.mem_cons_self)
      obtain ⟨l, r₂, hr₂, hconfigured⟩ := configure_spec hvalid hi
      refine ⟨r₂, ?_, hconfigured.valid hvalid, ?_⟩
      · rw [List.foldlM_append, hr₁]
        show (configure r₁ i).bind some = some r₂
        rw [hr₂]
        rfl
      · exact happlied.snoc hvalid hconfigured fun j hj ↦ hlast j hj i List.mem_cons_self

/-! ## The listener -/

/-- What the library's users do to the registry, and what the configuration does. -/
inductive Act where
  | call (call : RegistryCall)
  | onChange (oldValue newValue : LogDefines)

def act (r : Registry) : Act → Option Registry
  | .call call => r.step call
  | .onChange oldValue newValue => onChange oldValue newValue r

theorem changes_typed (oldValue newValue : LogDefines) :
    ∀ i ∈ changes oldValue newValue, ∀ a ∈ i.appenders, a.type = 1 ∨ a.type = 2 := by
  intro i hi
  rcases List.mem_append.mp hi with hi | hi
  · exact newValue.typed i (List.mem_filter.mp hi).1
  · obtain ⟨j, _, rfl⟩ := List.mem_map.mp hi
    exact fun a ha ↦ absurd ha List.not_mem_nil

theorem changes_names (oldValue newValue : LogDefines) :
    (changes oldValue newValue).Pairwise fun i j ↦ i.name ≠ j.name := by
  apply List.pairwise_append.mpr
  refine ⟨newValue.pairwise_ne.filter _, ?_, ?_⟩
  · rw [List.pairwise_map]
    exact oldValue.pairwise_ne.filter _
  · intro i hi j hj
    obtain ⟨d, hd, rfl⟩ := List.mem_map.mp hj
    have hnone := Option.isNone_iff_eq_none.mp (List.mem_filter.mp hd).2
    exact LogDefines.find_eq_none_iff.mp hnone i (List.mem_filter.mp hi).1

theorem onChange_eq (oldValue newValue : LogDefines) (r : Registry) :
    onChange oldValue newValue r = (changes oldValue newValue).foldlM configure r := by
  have hdeleted : ∀ r, (oldValue.defines.filter fun i ↦ (newValue.find i.name).isNone).foldlM
      (fun r i ↦ configure r i.deleted) r =
        some (oldValue.defines.foldl (applyDeleted newValue) r) := by
    intro r
    rw [List.foldlM_filter]
    apply KeyedFold.foldlM_eq_some
    intro i _ r
    unfold applyDeleted
    cases newValue.find i.name with
    | none => rfl
    | some _ => rfl
  unfold onChange changes
  rw [List.foldlM_append, List.foldlM_filter]
  show _ = (newValue.defines.foldlM (applyNew oldValue) r).bind _
  cases newValue.defines.foldlM (applyNew oldValue) r with
  | none => rfl
  | some r =>
      rw [Option.map_some, Option.bind_some, List.foldlM_map]
      exact (hdeleted r).symm

theorem Valid.onChange (h : Valid r) (oldValue newValue : LogDefines) :
    ∃ r', Registry.onChange oldValue newValue r = some r' ∧ Valid r' ∧
      Applied r (changes oldValue newValue) r' := by
  rw [onChange_eq]
  exact h.foldlM_configure (changes_names _ _) (changes_typed _ _)

theorem run_valid {acts : List Act} (h : Run (Of act) r acts r') (hr : Valid r) : Valid r' := by
  apply h.invariant _ hr
  intro s a s' hs hstep
  cases a with
  | call call => exact hs.step hstep
  | onChange oldValue newValue =>
      obtain ⟨r', hr', hvalid, _⟩ := hs.onChange oldValue newValue
      obtain rfl := Option.some.inj (hr'.symm.trans hstep)
      exact hvalid

/-- A logger that one definition of the change applies to. -/
theorem Applied.only (h : Applied r is r') (hl : r'.definesOf is l = [i]) :
    (r'.settings l).level = i.level ∧
      (r'.settings l).formatter = chosen (r.settings l).formatter i.formatter ∧
      (r'.settings l).appenders.map r'.appender =
        i.appenders.map (appenderOf (chosen (r.settings l).formatter i.formatter)) := by
  have hlast : (r'.definesOf is l).getLast? = some i := by rw [hl]; rfl
  have hformatter := h.formatter l
  rw [hl] at hformatter
  have happenders := h.appenders l i hlast
  rw [hformatter] at happenders
  exact ⟨h.level l i hlast, hformatter, happenders⟩

/-- What the listener does in every state that the registry can get into. -/
theorem listener_effect {acts : List Act} (h : Run (Of act) new acts r)
    (oldValue newValue : LogDefines) :
    ∃ r', onChange oldValue newValue r = some r' ∧ Applied r (changes oldValue newValue) r' := by
  obtain ⟨r', hr', _, happlied⟩ := (run_valid h new_valid).onChange oldValue newValue
  exact ⟨r', hr', happlied⟩

/-- A configuration without the logger of `oneLogger`. -/
def otherLogger : LogDefines :=
  ⟨[⟨"other", .warn, "%n", []⟩], List.pairwise_singleton _ _, by
    intro i hi a ha
    rw [List.mem_singleton.mp hi] at ha
    cases ha⟩

/-- The configuration of one logger is deleted, and another one that was there is configured. -/
theorem listener_effect_system : ∃ r,
    Run (Of act) new [.call (.getLogger "other"), .onChange .empty (oneLogger "%m")] r ∧
    (r.loggers "other" = some 1 ∧ r.loggers "system" = some 2 ∧ (r.settings 2).appenders = [1]) ∧
    ∃ r', onChange (oneLogger "%m") otherLogger r = some r' ∧
      Applied r (changes (oneLogger "%m") otherLogger) r' := by
  obtain ⟨r, hrun, hr⟩ := exists_run act (fun _ _ ↦ true) (fun _ _ _ hstep _ ↦ hstep) new
    [.call (.getLogger "other"), .onChange .empty (oneLogger "%m")]
    (P := fun r ↦ decide (r.loggers "other" = some 1 ∧ r.loggers "system" = some 2 ∧
      (r.settings 2).appenders = [1])) (by decide +kernel)
  exact ⟨r, hrun, of_decide_eq_true hr, listener_effect hrun (oneLogger "%m") otherLogger⟩

/-- An appender that two loggers share gets the formatter of the one that is configured, though the
configuration does not name the other. -/
theorem listener_changes_shared : ¬ ∀ acts r, Run (Of act) new acts r →
    ∀ oldValue newValue r', onChange oldValue newValue r = some r' →
      ∀ l : LoggerId, r'.definesOf (changes oldValue newValue) l = [] →
        (r.settings l).appenders.map r'.appender = (r.settings l).appenders.map r.appender := by
  intro hall
  obtain ⟨r, hrun, hr⟩ := exists_run act (fun _ _ ↦ true) (fun _ _ _ hstep _ ↦ hstep) new
    [.call (.getLogger "system"), .call (.getLogger "other"), .call (.makeAppender .stdout),
      .call (.addAppender 1 1), .call (.addAppender 2 1)]
    (P := fun r ↦ ((onChange .empty (oneLogger "%m") r).map fun r' ↦
      decide (r'.definesOf (changes .empty (oneLogger "%m")) 2 = [] ∧
        (r.settings 2).appenders.map r'.appender ≠ (r.settings 2).appenders.map r.appender)) ==
          some true) (by decide +kernel)
  obtain ⟨r', hr', hboth⟩ := Option.map_eq_some_iff.mp (beq_iff_eq.mp hr)
  obtain ⟨hnone, hne⟩ := of_decide_eq_true hboth
  exact hne (hall _ r hrun .empty (oneLogger "%m") r' hr' 2 hnone)

end Registry

end Server.Log
