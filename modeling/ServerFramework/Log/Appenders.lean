import ServerFramework.Log.Logger
import ServerFramework.Library.Runs

/-!
# Appenders and the formatters they inherit

A logger holds shared pointers to its appenders.  An appender without a formatter of its own has a
copy of the logger's, which the logger has to keep up to date.
-/

namespace Server.Log

open Runs

/-- What the loop of `Logger::setFormatter` does to one appender. -/
def LogAppender.inherit (a : LogAppender) (val : LogFormatter) : LogAppender :=
  if !a.hasFormatter then { a with formatter := some val } else a

theorem LogAppender.inherit_inherit (a : LogAppender) (val : LogFormatter) :
    (a.inherit val).inherit val = a.inherit val := by
  unfold inherit
  cases ha : a.hasFormatter with
  | true => simp only [ha, Bool.not_true, Bool.false_eq_true, if_false]
  | false => simp only [Bool.not_false, if_true]

/-- One logger, and the appender objects `A` that it may point to. -/
structure Attachment (A : Type) where
  name : String
  level : Level
  formatter : LogFormatter
  appenders : List A
  appender : A → LogAppender

/-- The calls that attach appenders or give formatters. -/
inductive FormatterCall (A : Type) where
  | addAppender (a : A)
  | delAppender (a : A)
  | clearAppenders
  /-- `Logger::setFormatter(const std::string&)` -/
  | setPattern (val : String)
  /-- `Logger::setFormatter(LogFormatter::ptr)` -/
  | setFormatter (val : LogFormatter)
  /-- `LogAppender::setFormatter` -/
  | setOwn (a : A) (val : Option LogFormatter)
  deriving DecidableEq, Repr

namespace Attachment

variable {A : Type} [DecidableEq A]

/-- A new logger and new appenders. -/
def new (name : String) (target : A → Target) : Attachment A :=
  ⟨name, .debug, defaultFormatter, [], fun a ↦ .new (target a)⟩

def setAppender (s : Attachment A) (a : A) (v : LogAppender) : Attachment A :=
  { s with appender := Function.update s.appender a v }

def addAppender (s : Attachment A) (a : A) : Attachment A :=
  let s :=
    if (s.appender a).formatter.isNone then
      s.setAppender a { s.appender a with formatter := some s.formatter }
    else s
  { s with appenders := s.appenders ++ [a] }

/-- The loop of `Logger::setFormatter`. -/
def inheritAll (val : LogFormatter) (m : A → LogAppender) (l : List A) : A → LogAppender :=
  l.foldl (fun m i ↦ Function.update m i ((m i).inherit val)) m

def assignFormatter (s : Attachment A) (val : LogFormatter) : Attachment A :=
  { s with formatter := val, appender := inheritAll val s.appender s.appenders }

def setFormatter (s : Attachment A) (val : String) : Attachment A :=
  let newVal := LogFormatter.init val
  if newVal.isError then s else s.assignFormatter newVal

def step (s : Attachment A) : FormatterCall A → Attachment A
  | .addAppender a => s.addAppender a
  | .delAppender a => { s with appenders := s.appenders.erase a }
  | .clearAppenders => { s with appenders := [] }
  | .setPattern val => s.setFormatter val
  | .setFormatter val => s.assignFormatter val
  | .setOwn a val => s.setAppender a ((s.appender a).setFormatter val)

def Steps (s : Attachment A) (call : FormatterCall A) (s' : Attachment A) : Prop :=
  s' = s.step call

/-- The formatters that `LogAppender::setFormatter` gave last. -/
def give (given : A → Option LogFormatter) : FormatterCall A → A → Option LogFormatter
  | .setOwn a val => Function.update given a val
  | _ => given

/-- The formatter of its own that an appender has after the calls. -/
def own (calls : List (FormatterCall A)) : A → Option LogFormatter :=
  calls.foldl give fun _ ↦ none

/-- An appender that kept a formatter it once inherited is attached only while the logger has the
same one, and no attached appender has its own formatter dropped. -/
def Follows (s : Attachment A) : FormatterCall A → Prop
  | .addAppender a => (s.appender a).hasFormatter = true ∨ (s.appender a).formatter = none ∨
    (s.appender a).formatter = some s.formatter
  | .setOwn a val => val = none → a ∉ s.appenders
  | _ => True

/-- The logger by value, as the listener of the configuration builds it. -/
def toLogger (s : Attachment A) : Logger :=
  ⟨s.name, s.level, s.formatter, s.appenders.map s.appender⟩

variable {s s' : Attachment A} {a : A} {val : LogFormatter} {given : A → Option LogFormatter}

theorem inheritAll_apply (l : List A) (m : A → LogAppender) (a : A) :
    inheritAll val m l a = if a ∈ l then (m a).inherit val else m a := by
  induction l generalizing m with
  | nil => rw [if_neg List.not_mem_nil]; rfl
  | cons i l ih =>
      show inheritAll val (Function.update m i ((m i).inherit val)) l a = _
      rw [ih]
      by_cases hi : a = i
      · subst hi
        rw [Function.update_self, if_pos List.mem_cons_self]
        split
        · rw [LogAppender.inherit_inherit]
        · rfl
      · rw [Function.update_of_ne hi]
        by_cases hmem : a ∈ l
        · rw [if_pos hmem, if_pos (List.mem_cons_of_mem _ hmem)]
        · rw [if_neg hmem, if_neg fun h ↦ hmem ((List.mem_cons.mp h).resolve_left hi)]

/-! ## The logger by value -/

theorem toLogger_assignFormatter :
    (s.assignFormatter val).toLogger = s.toLogger.assignFormatter val := by
  unfold toLogger assignFormatter Logger.assignFormatter
  dsimp only
  congr 1
  rw [List.map_map]
  apply List.map_congr_left
  intro a ha
  rw [inheritAll_apply, if_pos ha]
  rfl

theorem toLogger_setFormatter (val : String) :
    (s.setFormatter val).toLogger = s.toLogger.setFormatter val := by
  unfold setFormatter Logger.setFormatter
  dsimp only
  split
  · rfl
  · exact toLogger_assignFormatter

/-- An appender that is attached a second time is not changed, if it has a formatter by then. -/
theorem toLogger_addAppender (h : a ∈ s.appenders → (s.appender a).formatter.isSome = true) :
    (s.addAppender a).toLogger = s.toLogger.addAppender (s.appender a) := by
  unfold addAppender Logger.addAppender
  by_cases hnone : (s.appender a).formatter.isNone = true
  · have hmem : a ∉ s.appenders := fun ha ↦ by
      rw [Option.isNone_iff_eq_none] at hnone
      rw [hnone] at h
      exact absurd (h ha) Bool.false_ne_true
    rw [if_pos hnone, if_pos hnone]
    unfold toLogger setAppender
    dsimp only
    rw [List.map_append, List.map_singleton, Function.update_self]
    have hmap : s.appenders.map
        (Function.update s.appender a { s.appender a with formatter := some s.formatter }) =
          s.appenders.map s.appender := by
      apply List.map_congr_left
      intro b hb
      have hne : b ≠ a := fun heq ↦ hmem (heq ▸ hb)
      exact Function.update_of_ne hne _ _
    rw [hmap]
  · rw [if_neg hnone, if_neg hnone]
    unfold toLogger
    dsimp only
    rw [List.map_append, List.map_singleton]

/-! ## The invariant -/

/-- The flag says whether an appender has a formatter of its own, and an attached one without has
the logger's. -/
structure Inherits (s : Attachment A) (given : A → Option LogFormatter) : Prop where
  flag : ∀ a, (s.appender a).hasFormatter = (given a).isSome
  own : ∀ a f, given a = some f → (s.appender a).formatter = some f
  attached : ∀ a ∈ s.appenders, given a = none → (s.appender a).formatter = some s.formatter

omit [DecidableEq A] in
theorem Inherits.formatter (h : Inherits s given) (ha : a ∈ s.appenders) :
    (s.appender a).formatter = some ((given a).getD s.formatter) := by
  cases hgiven : given a with
  | none => exact h.attached a ha hgiven
  | some f => exact h.own a f hgiven

theorem Inherits.addAppender (h : Inherits s given) (hok : Follows s (.addAppender a)) :
    Inherits (s.addAppender a) given := by
  unfold Attachment.addAppender
  by_cases hnull : (s.appender a).formatter.isNone = true
  · -- a new appender, or one that was given null, gets the logger's formatter
    rw [if_pos hnull]
    rw [Option.isNone_iff_eq_none] at hnull
    refine ⟨fun b ↦ ?_, fun b f hf ↦ ?_, fun b hb hnone ↦ ?_⟩
    · show (Function.update s.appender a _ b).hasFormatter = _
      by_cases hba : b = a
      · rw [hba, Function.update_self]
        exact h.flag a
      · rw [Function.update_of_ne hba]
        exact h.flag b
    · show (Function.update s.appender a _ b).formatter = _
      have hba : b ≠ a := by
        rintro rfl
        have hsome := h.own b f hf
        rw [hnull] at hsome
        cases hsome
      rw [Function.update_of_ne hba]
      exact h.own b f hf
    · show (Function.update s.appender a _ b).formatter = some s.formatter
      by_cases hba : b = a
      · rw [hba, Function.update_self]
      · rw [Function.update_of_ne hba]
        rcases List.mem_append.mp hb with hmem | hmem
        · exact h.attached b hmem hnone
        · exact absurd (List.mem_singleton.mp hmem) hba
  · rw [if_neg hnull]
    refine ⟨h.flag, h.own, fun b hb hnone ↦ ?_⟩
    show (s.appender b).formatter = some s.formatter
    rcases List.mem_append.mp hb with hmem | hmem
    · exact h.attached b hmem hnone
    · obtain rfl := List.mem_singleton.mp hmem
      rcases hok with hflag | hnone' | hsame
      · rw [h.flag, hnone] at hflag
        cases hflag
      · exact absurd (Option.isNone_iff_eq_none.mpr hnone') hnull
      · exact hsame

theorem Inherits.assignFormatter (h : Inherits s given) (val : LogFormatter) :
    Inherits (s.assignFormatter val) given := by
  refine ⟨fun b ↦ ?_, fun b f hf ↦ ?_, fun b hb hnone ↦ ?_⟩
  · show (inheritAll val s.appender s.appenders b).hasFormatter = _
    rw [inheritAll_apply, ← h.flag]
    unfold LogAppender.inherit
    split
    · split <;> rfl
    · rfl
  · show (inheritAll val s.appender s.appenders b).formatter = _
    have hflag : (s.appender b).hasFormatter = true := by rw [h.flag, hf]; rfl
    rw [inheritAll_apply, LogAppender.inherit, hflag, ← h.own b f hf]
    split <;> rfl
  · show (inheritAll val s.appender s.appenders b).formatter = some val
    have hflag : (s.appender b).hasFormatter = false := by rw [h.flag, hnone]; rfl
    have hmem : b ∈ s.appenders := hb
    rw [inheritAll_apply, if_pos hmem, LogAppender.inherit, hflag]
    rfl

theorem Inherits.setOwn (h : Inherits s given) {val : Option LogFormatter}
    (hok : Follows s (.setOwn a val)) :
    Inherits (s.setAppender a ((s.appender a).setFormatter val))
      (Function.update given a val) := by
  refine ⟨fun b ↦ ?_, fun b f hf ↦ ?_, fun b hb hnone ↦ ?_⟩
  · show (Function.update s.appender a _ b).hasFormatter = _
    by_cases hba : b = a
    · rw [hba, Function.update_self, Function.update_self]
      rfl
    · rw [Function.update_of_ne hba, Function.update_of_ne hba]
      exact h.flag b
  · show (Function.update s.appender a _ b).formatter = _
    by_cases hba : b = a
    · rw [hba, Function.update_self] at hf
      rw [hba, Function.update_self]
      exact hf
    · rw [Function.update_of_ne hba] at hf ⊢
      exact h.own b f hf
  · show (Function.update s.appender a _ b).formatter = some s.formatter
    by_cases hba : b = a
    · rw [hba, Function.update_self] at hnone
      exact absurd (hba ▸ hb) (hok hnone)
    · rw [Function.update_of_ne hba] at hnone ⊢
      exact h.attached b hb hnone

theorem Inherits.step (h : Inherits s given) {call : FormatterCall A} (hok : Follows s call) :
    Inherits (s.step call) (give given call) := by
  cases call with
  | addAppender a => exact h.addAppender hok
  | delAppender a => exact ⟨h.flag, h.own, fun b hb ↦ h.attached b (List.mem_of_mem_erase hb)⟩
  | clearAppenders => exact ⟨h.flag, h.own, nofun⟩
  | setPattern val =>
      show Inherits (s.setFormatter val) given
      unfold Attachment.setFormatter
      dsimp only
      split
      · exact h
      · exact h.assignFormatter _
  | setFormatter val => exact h.assignFormatter val
  | setOwn a val => exact h.setOwn hok

omit [DecidableEq A] in
theorem new_inherits (name : String) (target : A → Target) :
    Inherits (new name target) fun _ ↦ none :=
  ⟨fun _ ↦ rfl, nofun, nofun⟩

/-- The calls that no appender comes out of with an outdated formatter, or without one. -/
def Followed : Attachment A → FormatterCall A → Attachment A → Prop := Guarded Steps Follows

theorem run_inherits {calls : List (FormatterCall A)} (h : Run Followed s calls s')
    (hs : Inherits s given) : Inherits s' (calls.foldl give given) := by
  induction h generalizing given with
  | nil => exact hs
  | cons hstep _ ih =>
      obtain ⟨rfl, hok⟩ := hstep
      exact ih (hs.step hok)

/-- Every attached appender has a formatter: its own, or the one that the logger has now. -/
theorem appender_formatter {name : String} {target : A → Target} {calls : List (FormatterCall A)}
    (h : Run Followed (new name target) calls s) (ha : a ∈ s.appenders) :
    (s.appender a).formatter = some ((own calls a).getD s.formatter) :=
  (run_inherits h (new_inherits name target)).formatter ha

/-! ## Runs on fixed inputs -/

instance (s : Attachment A) (call : FormatterCall A) : Decidable (Follows s call) :=
  match call with
  | .addAppender _ => inferInstanceAs (Decidable (_ ∨ _))
  | .setOwn _ _ => inferInstanceAs (Decidable (_ → _))
  | .delAppender _ | .clearAppenders | .setPattern _ | .setFormatter _ => isTrue trivial

theorem exists_followed (s : Attachment A) (calls : List (FormatterCall A))
    {P : Attachment A → Bool}
    (h : (exec (checked (fun s call ↦ some (step s call)) fun s call ↦ decide (Follows s call)) s
      calls).map P = some true) : ∃ s', Run Followed s calls s' ∧ P s' = true :=
  exists_run _ _ (fun _ _ _ hs hok ↦ ⟨(Option.some.inj hs).symm, of_decide_eq_true hok⟩) s calls h

abbrev console : Attachment Bool := new "system" fun _ ↦ .stdout

/-- An appender with a formatter of its own and one without, while the logger's changes. -/
theorem appender_formatter_two : ∃ s : Attachment Bool,
    Run Followed console
      [.setOwn true (some (.init "%m")), .addAppender true, .addAppender false,
        .setPattern "%m%n"] s ∧
      (s.appender true).formatter = some (.init "%m") ∧
      (s.appender false).formatter = some s.formatter := by
  obtain ⟨s, h, hP⟩ := exists_followed console
    [.setOwn true (some (.init "%m")), .addAppender true, .addAppender false, .setPattern "%m%n"]
    (P := fun s ↦ decide (s.appenders = [true, false])) (by decide +kernel)
  have happenders : s.appenders = [true, false] := of_decide_eq_true hP
  refine ⟨s, h, ?_, ?_⟩
  · apply appender_formatter h
    rw [happenders]
    decide
  · apply appender_formatter h
    rw [happenders]
    decide

/-- An appender that comes back has the formatter that the logger once had, and one whose own
formatter is dropped while it is attached has none. -/
theorem appender_outdated :
    (∃ s : Attachment Bool,
      Run Steps console
        [.addAppender true, .delAppender true, .setPattern "%m", .addAppender true] s ∧
        true ∈ s.appenders ∧ (s.appender true).formatter ≠
          some ((own [.addAppender true, .delAppender true, .setPattern "%m", .addAppender true]
            true).getD s.formatter)) ∧
    ∃ s : Attachment Bool,
      Run Steps console
        [.setOwn true (some (.init "%m")), .addAppender true, .setOwn true none] s ∧
        true ∈ s.appenders ∧ (s.appender true).formatter = none := by
  constructor
  · exact ⟨_, .cons rfl (.cons rfl (.cons rfl (.cons rfl (.nil _)))), by decide +kernel,
      by decide +kernel⟩
  · exact ⟨_, .cons rfl (.cons rfl (.cons rfl (.nil _))), by decide +kernel, by decide +kernel⟩

end Attachment

end Server.Log
