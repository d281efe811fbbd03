import ServerFramework.Log.Registry

/-!
# Where an event goes

`Logger::log` offers an event to the logger's appenders, and falls back on the root logger when there
are none.  The fallback follows `m_root`, which only `getLogger` sets.
-/

namespace Server.Log

open Runs

/-- A call that `Logger::log` makes. -/
inductive LogCall (E : Type) where
  /-- `appender->log(self, level, event)` -/
  | appender (a : AppenderId) (self : LoggerId) (level : Level) (event : E)
  /-- `m_root->log(level, event)` -/
  | root (l : LoggerId) (level : Level) (event : E)
  deriving DecidableEq, Repr

namespace Registry

variable {E : Type} {r r' : Registry} {l : LoggerId} {call : RegistryCall} {calls : List RegistryCall}
  {built : List LoggerId} {level : Level} {event : E} {name : String}

/-- The calls on the appenders of a logger. -/
def offers (r : Registry) (l : LoggerId) (level : Level) (event : E) : List (LogCall E) :=
  (r.logger l).appenders.map fun appender ↦ .appender appender l level event

/-- `Logger::log`, and the calls that it makes and that they make, for a depth of the recursion. -/
def log (r : Registry) (level : Level) (event : E) : Nat → LoggerId → Option (List (LogCall E))
  | 0, _ => none
  | depth + 1, self =>
    if level.value ≥ (r.logger self).level.value then
      -- each appender compares the level once more, with its own
      if !(r.logger self).appenders.isEmpty then some (r.offers self level event)
      else
        match (r.logger self).root with
        | some root => (r.log level event depth root).map (.root root level event :: ·)
        | none => some []
    else some []

/-- Whom an accepted event has to be offered to. -/
def expected (r : Registry) (l : LoggerId) (level : Level) (event : E) : List (LogCall E) :=
  if (r.logger l).appenders ≠ [] then r.offers l level event
  else if l ≠ r.root then
    .root r.root level event ::
      if level.value ≥ (r.logger r.root).level.value then r.offers r.root level event else []
  else []

/-- A logger offers an accepted event to those, however deep the recursion may go. -/
def Offers (r : Registry) (l : LoggerId) (level : Level) (event : E) : Prop :=
  ∀ depth, r.log level event (depth + 2) l = some (r.expected l level event)

/-- The logger that a call of the public constructor builds. -/
def builtBy (r : Registry) : RegistryCall → List LoggerId
  | .makeLogger _ => [r.nextLogger]
  | _ => []

/-- The loggers that the users have built. -/
def builtIn (r : Registry) : List RegistryCall → List LoggerId
  | [] => []
  | call :: calls =>
    r.builtBy call ++
      match r.step call with
      | none => []
      | some r' => r'.builtIn calls

/-! ## The link to the root logger -/

/-- The root logger and the loggers that the users have built have no link, the others do. -/
structure Linked (r : Registry) (built : List LoggerId) : Prop where
  root_lt : r.root < r.nextLogger
  labelled : ∀ label l, r.loggers label = some l → l < r.nextLogger
  built_lt : ∀ l ∈ built, l < r.nextLogger ∧ l ≠ r.root
  link : ∀ l < r.nextLogger,
    (r.logger l).root = if l = r.root ∨ l ∈ built then none else some r.root

/-- Calls that make no logger and store none. -/
structure Unlinked (r r' : Registry) : Prop where
  root : r'.root = r.root
  nextLogger : r'.nextLogger = r.nextLogger
  loggers : r'.loggers = r.loggers
  link : ∀ l, (r'.logger l).root = (r.logger l).root

theorem Linked.unlinked (h : Linked r built) (hsame : Unlinked r r') : Linked r' built := by
  constructor
  · rw [hsame.root, hsame.nextLogger]
    exact h.root_lt
  · rw [hsame.loggers, hsame.nextLogger]
    exact h.labelled
  · rw [hsame.root, hsame.nextLogger]
    exact h.built_lt
  · intro l hl
    rw [hsame.nextLogger] at hl
    rw [hsame.link, hsame.root]
    exact h.link l hl

theorem unlinked_setLogger {v : LoggerObject} (h : v.root = (r.logger l).root) :
    Unlinked r (r.setLogger l v) := by
  constructor
  · rfl
  · rfl
  · rfl
  · intro k
    show (Function.update r.logger l v k).root = _
    by_cases hk : k = l
    · rw [hk, Function.update_self, h]
    · rw [Function.update_of_ne hk]

theorem unlinked_assignFormatter (l : LoggerId) (val : LogFormatter) :
    Unlinked r (r.assignFormatter l val) := by
  have hset : Unlinked r (r.setLogger l { r.logger l with formatter := val }) :=
    unlinked_setLogger rfl
  exact ⟨hset.root, hset.nextLogger, hset.loggers, hset.link⟩

theorem unlinked_addAppender (l : LoggerId) (a : AppenderId) : Unlinked r (r.addAppender l a) := by
  unfold addAppender
  dsimp only
  split
  · have hset : Unlinked (r.setAppender a { r.appender a with formatter := some (r.logger l).formatter })
        _ := unlinked_setLogger (l := l) (v := { r.logger l with
          appenders := (r.logger l).appenders ++ [a] }) rfl
    exact ⟨hset.root, hset.nextLogger, hset.loggers, hset.link⟩
  · exact unlinked_setLogger rfl

/-- A new logger without a link counts as built by its user. -/
theorem Linked.makeLogger (h : Linked r built) (name : String) :
    Linked (r.makeLogger name) (built ++ [r.nextLogger]) := by
  have hroot : r.root ≠ r.nextLogger := Nat.ne_of_lt h.root_lt
  constructor
  · exact Nat.lt_succ_of_lt h.root_lt
  · intro label l hl
    exact Nat.lt_succ_of_lt (h.labelled label l hl)
  · intro l hl
    show l < r.nextLogger + 1 ∧ l ≠ r.root
    rcases List.mem_append.mp hl with hl | hl
    · have hold := h.built_lt l hl
      exact ⟨Nat.lt_succ_of_lt hold.1, hold.2⟩
    · rw [List.mem_singleton.mp hl]
      exact ⟨Nat.lt_succ_self _, hroot.symm⟩
  · intro l hl
    show (Function.update r.logger r.nextLogger (.new name) l).root =
      if l = r.root ∨ l ∈ built ++ [r.nextLogger] then none else some r.root
    -- `Logger(name)` leaves `m_root` null
    by_cases heq : l = r.nextLogger
    · rw [heq, Function.update_self, if_pos]
      · rfl
      · exact .inr (List.mem_append_right _ (List.mem_singleton_self _))
    · have hlt : l < r.nextLogger := Nat.lt_of_le_of_ne (Nat.le_of_lt_succ hl) heq
      rw [Function.update_of_ne heq, h.link l hlt]
      simp only [List.mem_append, List.mem_singleton, heq, or_false]

/-- The logger that `getLogger` makes is linked to the root logger. -/
theorem Linked.getLogger (h : Linked r built) (name : String) : Linked (r.getLogger name).2 built := by
  unfold Registry.getLogger
  split
  · exact h
  · have hroot : r.root ≠ r.nextLogger := Nat.ne_of_lt h.root_lt
    constructor
    · exact Nat.lt_succ_of_lt h.root_lt
    · intro label l hl
      show l < r.nextLogger + 1
      have hl : Function.update r.loggers name (some r.nextLogger) label = some l := hl
      by_cases hlabel : label = name
      · rw [hlabel, Function.update_self] at hl
        rw [← Option.some.inj hl]
        exact Nat.lt_succ_self _
      · rw [Function.update_of_ne hlabel] at hl
        exact Nat.lt_succ_of_lt (h.labelled label l hl)
    · intro l hl
      have hold := h.built_lt l hl
      exact ⟨Nat.lt_succ_of_lt hold.1, hold.2⟩
    · intro l hl
      show (Function.update (Function.update r.logger r.nextLogger (.new name)) r.nextLogger
        { Function.update r.logger r.nextLogger (LoggerObject.new name) r.nextLogger with
          root := some r.root } l).root = if l = r.root ∨ l ∈ built then none else some r.root
      -- the next logger is neither the root logger nor one that a user has built before
      by_cases heq : l = r.nextLogger
      · rw [heq, Function.update_self, if_neg]
        intro hor
        rcases hor with heq' | hmem
        · exact hroot heq'.symm
        · exact absurd (h.built_lt _ hmem).1 (Nat.lt_irrefl _)
      · have hlt : l < r.nextLogger := Nat.lt_of_le_of_ne (Nat.le_of_lt_succ hl) heq
        rw [Function.update_of_ne heq, Function.update_of_ne heq, h.link l hlt]

theorem Linked.storeLogger (h : Linked r built) {label : String} (hl : l < r.nextLogger) :
    Linked (r.storeLogger label l).2 built := by
  unfold Registry.storeLogger
  split
  · exact h
  · refine ⟨h.root_lt, fun k l' hl' ↦ ?_, h.built_lt, h.link⟩
    have hl' : Function.update r.loggers label (some l) k = some l' := hl'
    by_cases hk : k = label
    · rw [hk, Function.update_self] at hl'
      rw [← Option.some.inj hl']
      exact hl
    · rw [Function.update_of_ne hk] at hl'
      exact h.labelled k l' hl'

/-- Only the public constructor makes a logger without a link. -/
theorem Linked.perform (h : Linked r built) (hargs : ∀ l ∈ (arguments call).1, l < r.nextLogger)
    (hbuilt : r.builtBy call = []) : Linked (r.perform call) built := by
  -- the other calls make a logger with a link, or touch no link
  cases call with
  | makeLogger name => cases hbuilt
  | getLogger name => exact h.getLogger name
  | storeLogger label l => exact h.storeLogger (hargs l (List.mem_singleton_self l))
  | makeAppender _ | setAppenderLevel _ _ | setOwn _ _ =>
      exact h.unlinked ⟨rfl, rfl, rfl, fun _ ↦ rfl⟩
  | addAppender l a => exact h.unlinked (unlinked_addAppender l a)
  | delAppender _ _ | clearAppenders _ | setLevel _ _ => exact h.unlinked (unlinked_setLogger rfl)
  | setFormatter l val => exact h.unlinked (unlinked_assignFormatter l val)
  | setPattern l val =>
      show Linked (r.setFormatter l val) built
      unfold setFormatter
      dsimp only
      split
      · exact h
      · exact h.unlinked (unlinked_assignFormatter l _)

theorem Linked.step (h : Linked r built) (hstep : r.step call = some r') :
    Linked r' (built ++ r.builtBy call) := by
  unfold Registry.step at hstep
  split at hstep
  · rename_i hargs
    obtain rfl := Option.some.inj hstep
    by_cases hbuilt : r.builtBy call = []
    · rw [hbuilt, List.append_nil]
      exact h.perform hargs.1 hbuilt
    · cases call with
      | makeLogger name => exact h.makeLogger name
      | _ => exact absurd rfl hbuilt
  · cases hstep

theorem new_linked : Linked new [] := by
  constructor
  · decide
  · intro label l hl
    have hl : Function.update (fun _ ↦ none) "root" (some 0) label = some l := hl
    by_cases hroot : label = "root"
    · rw [hroot, Function.update_self] at hl
      rw [← Option.some.inj hl]
      decide
    · rw [Function.update_of_ne hroot] at hl
      cases hl
  · intro l hl
    cases hl
  · intro l hl
    obtain rfl : l = 0 := Nat.lt_one_iff.mp hl
    rfl

theorem run_linked (h : Run (Of step) r calls r') (hr : Linked r built) :
    Linked r' (built ++ r.builtIn calls) := by
  induction h generalizing built with
  | nil => simpa only [builtIn, List.append_nil] using hr
  | @cons r s r'' call calls hstep _ ih =>
      have hstep : r.step call = some s := hstep
      have hrest := ih (hr.step hstep)
      rw [builtIn, hstep, ← List.append_assoc]
      exact hrest

/-! ## The event -/

/-- The root logger has no link, so the recursion ends there. -/
theorem log_root (hroot : (r.logger r.root).root = none) (depth : Nat) :
    r.log level event (depth + 1) r.root =
      some (if level.value ≥ (r.logger r.root).level.value then r.offers r.root level event else []) := by
  rw [log]
  split
  · split
    · rfl
    · rename_i hempty
      have hnil : (r.logger r.root).appenders = [] := by simpa using hempty
      rw [hroot, offers, hnil]
      rfl
  · rfl

/-- An accepted event is offered to the logger's appenders, or goes where its link leads. -/
theorem log_accepted (hlevel : level.value ≥ (r.logger l).level.value) (depth : Nat) :
    r.log level event (depth + 1) l =
      if (r.logger l).appenders ≠ [] then some (r.offers l level event)
      else match (r.logger l).root with
        | some root => (r.log level event depth root).map (.root root level event :: ·)
        | none => some [] := by
  rw [log, if_pos hlevel]
  cases (r.logger l).appenders with
  | nil => rfl
  | cons a as => rfl

theorem Linked.offers_iff (h : Linked r built) (hl : l < r.nextLogger)
    (hlevel : level.value ≥ (r.logger l).level.value) :
    Offers r l level event ↔ (r.logger l).appenders ≠ [] ∨ l ∉ built := by
  unfold Offers expected
  by_cases happenders : (r.logger l).appenders ≠ []
  · apply iff_of_true _ (.inl happenders)
    intro depth
    rw [log_accepted hlevel, if_pos happenders, if_pos happenders]
  -- without appenders the link decides
  · have hlog : ∀ depth, r.log level event (depth + 2) l = _ :=
      fun depth ↦ log_accepted hlevel (depth + 1)
    simp only [if_neg happenders] at hlog ⊢
    by_cases hmem : l ∈ built
    · -- without a link the event is lost, though the logger is not the root logger
      have hroot : l ≠ r.root := (h.built_lt l hmem).2
      apply iff_of_false
      · intro hall
        have hzero := (hlog 0).symm.trans (hall 0)
        rw [h.link l hl, if_pos (.inr hmem), if_pos hroot] at hzero
        cases hzero
      · intro hor
        exact hor.elim happenders fun hnot ↦ hnot hmem
    · apply iff_of_true _ (.inr hmem)
      intro depth
      rw [hlog, h.link l hl]
      by_cases hroot : l = r.root
      · rw [if_pos (.inl hroot), if_neg (not_not_intro hroot)]
      · have hlink : (r.logger r.root).root = none := by
          rw [h.link r.root h.root_lt, if_pos (.inl rfl)]
        rw [if_neg (not_or.mpr ⟨hroot, hmem⟩), if_pos hroot]
        dsimp only
        rw [log_root hlink, Option.map_some]

theorem getLogger_registered (h : r.loggers name = some l) : r.getLogger name = (l, r) := by
  unfold getLogger
  rw [h]

/-- An accepted event is lost exactly in a logger without appenders that a user has built. -/
theorem accepted_offered_iff (h : Run (Of step) new calls r) (hl : r.getLogger name = (l, r))
    (hlevel : level.value ≥ (r.logger l).level.value) :
    Offers r l level event ↔ (r.logger l).appenders ≠ [] ∨ l ∉ new.builtIn calls := by
  have hlinked : Linked r (new.builtIn calls) := run_linked h new_linked
  apply hlinked.offers_iff _ hlevel
  unfold getLogger at hl
  split at hl
  · rename_i l' hlabel
    cases hl
    exact hlinked.labelled name l hlabel
  · -- making a logger would have changed the registry
    have hnext := congrArg (fun p ↦ p.2.nextLogger) hl
    exact absurd hnext (Nat.succ_ne_self _)

/-- A logger that `getLogger` made has no appenders, and the root logger takes the event. -/
theorem accepted_offered_system : ∃ r, Run (Of step) new [.getLogger "system"] r ∧
    Offers r 1 .info () ∧ r.expected 1 .info () = [.root 0 .info (), .appender 0 0 .info ()] := by
  have hrun : Run (Of step) new [.getLogger "system"] (new.getLogger "system").2 :=
    .cons rfl (.nil _)
  have hl : (new.getLogger "system").2.getLogger "system" = (1, (new.getLogger "system").2) :=
    getLogger_registered rfl
  exact ⟨_, hrun, (accepted_offered_iff hrun hl (by decide)).mpr (.inr (by decide)), by decide⟩

/-- A stored logger without appenders drops even a fatal event. -/
theorem accepted_lost_stored : ¬ ∀ calls r, Run (Of step) new calls r →
    ∀ name l, r.getLogger name = (l, r) →
      ∀ level : Level, level.value ≥ (r.logger l).level.value → Offers r l level () := by
  intro hall
  have hrun : Run (Of step) new [.makeLogger "system", .storeLogger "system" 1]
      ((new.makeLogger "system").storeLogger "system" 1).2 := .cons rfl (.cons rfl (.nil _))
  have hlost := hall _ _ hrun "system" 1 (getLogger_registered rfl) .fatal (by decide) 0
  exact absurd hlost (by decide)

end Registry

end Server.Log
