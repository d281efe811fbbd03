import ServerFramework.Log.Appenders

/-!
# Loggers and appenders as objects

The pointers that the `LoggerManager`, the loggers and the users of the library hold: a logger may be
stored under several labels, an appender may be attached to several loggers.
-/

namespace Server.Log

abbrev LoggerId := Nat

abbrev AppenderId := Nat

/-- A logger with the pointers that it holds. -/
structure LoggerObject where
  name : String
  level : Level
  formatter : LogFormatter
  appenders : List AppenderId
  root : Option LoggerId
  deriving DecidableEq, Repr

/-- `Logger(name)` -/
def LoggerObject.new (name : String) : LoggerObject := ⟨name, .debug, defaultFormatter, [], none⟩

/-- The `LoggerManager` and the objects that exist; the next ones are `nextLogger` and
`nextAppender`. -/
structure Registry where
  logger : LoggerId → LoggerObject
  nextLogger : LoggerId
  appender : AppenderId → LogAppender
  nextAppender : AppenderId
  /-- `m_loggers` -/
  loggers : String → Option LoggerId
  /-- `m_root` -/
  root : LoggerId

namespace Registry

variable {r r' : Registry} {l : LoggerId} {a : AppenderId} {name : String}

def setLogger (r : Registry) (l : LoggerId) (v : LoggerObject) : Registry :=
  { r with logger := Function.update r.logger l v }

def setAppender (r : Registry) (a : AppenderId) (v : LogAppender) : Registry :=
  { r with appender := Function.update r.appender a v }

/-- `std::make_shared<Logger>(name)`, which is `r.nextLogger`. -/
def makeLogger (r : Registry) (name : String) : Registry :=
  { r.setLogger r.nextLogger (.new name) with nextLogger := r.nextLogger + 1 }

/-- A new appender, which is `r.nextAppender`. -/
def makeAppender (r : Registry) (target : Target) : Registry :=
  { r.setAppender r.nextAppender (.new target) with nextAppender := r.nextAppender + 1 }

/-! ## `Logger` and `LogAppender` -/

def addAppender (r : Registry) (l : LoggerId) (a : AppenderId) : Registry :=
  -- the formatter is written into the appender itself, where the next logger finds it
  let r :=
    if (r.appender a).formatter.isNone then
      r.setAppender a { r.appender a with formatter := some (r.logger l).formatter }
    else r
  r.setLogger l { r.logger l with appenders := (r.logger l).appenders ++ [a] }

/-- Erases the first pointer to the appender. -/
def delAppender (r : Registry) (l : LoggerId) (a : AppenderId) : Registry :=
  r.setLogger l { r.logger l with appenders := (r.logger l).appenders.erase a }

def clearAppenders (r : Registry) (l : LoggerId) : Registry :=
  r.setLogger l { r.logger l with appenders := [] }

def setLevel (r : Registry) (l : LoggerId) (level : Level) : Registry :=
  r.setLogger l { r.logger l with level := level }

/-- `setFormatter(LogFormatter::ptr)` -/
def assignFormatter (r : Registry) (l : LoggerId) (val : LogFormatter) : Registry :=
  let r := r.setLogger l { r.logger l with formatter := val }
  { r with appender := Attachment.inheritAll val r.appender (r.logger l).appenders }

/-- `setFormatter(const std::string&)` -/
def setFormatter (r : Registry) (l : LoggerId) (val : String) : Registry :=
  let newVal := LogFormatter.init val
  -- an invalid pattern is reported and leaves everything as it was
  if newVal.isError then r else r.assignFormatter l newVal

/-! ## `LoggerManager` -/

/-- `getLogger(name)`: the logger, and the registry with it. -/
def getLogger (r : Registry) (name : String) : LoggerId × Registry :=
  match r.loggers name with
  | some l => (l, r)
  | none =>
    let l := r.nextLogger
    let r := r.makeLogger name
    -- the only assignment to `m_root` of a logger
    let r := r.setLogger l { r.logger l with root := some r.root }
    (l, { r with loggers := Function.update r.loggers name (some l) })

/-- `storeLogger(label, logger)`, which leaves the `m_root` of the logger as it is. -/
def storeLogger (r : Registry) (label : String) (l : LoggerId) : Bool × Registry :=
  match r.loggers label with
  | some _ => (false, r)
  | none => (true, { r with loggers := Function.update r.loggers label (some l) })

/-- Before `LoggerManager()`. -/
def empty : Registry := ⟨fun _ ↦ .new "", 0, fun _ ↦ .new .stdout, 0, fun _ ↦ none, 0⟩

/-- `LoggerManager()` -/
def new : Registry :=
  let r := (empty.makeLogger "root").makeAppender .stdout
  let r := r.addAppender 0 0
  { r with loggers := Function.update r.loggers (r.logger 0).name (some 0), root := 0 }

end Registry

/-- What the users of loggers do; they use objects that exist. -/
inductive RegistryCall where
  | getLogger (name : String)
  /-- the public constructor -/
  | makeLogger (name : String)
  | storeLogger (label : String) (l : LoggerId)
  | makeAppender (target : Target)
  | addAppender (l : LoggerId) (a : AppenderId)
  | delAppender (l : LoggerId) (a : AppenderId)
  | clearAppenders (l : LoggerId)
  | setLevel (l : LoggerId) (level : Level)
  /-- `Logger::setFormatter(const std::string&)` -/
  | setPattern (l : LoggerId) (val : String)
  /-- `Logger::setFormatter(LogFormatter::ptr)` -/
  | setFormatter (l : LoggerId) (val : LogFormatter)
  /-- `LogAppender::setLevel` -/
  | setAppenderLevel (a : AppenderId) (level : Level)
  /-- `LogAppender::setFormatter` -/
  | setOwn (a : AppenderId) (val : Option LogFormatter)
  deriving DecidableEq, Repr

namespace Registry

/-- The loggers and the appenders that a call is given. -/
def arguments : RegistryCall → List LoggerId × List AppenderId
  | .getLogger _ | .makeLogger _ | .makeAppender _ => ([], [])
  | .storeLogger _ l | .clearAppenders l | .setLevel l _ | .setPattern l _ | .setFormatter l _ =>
    ([l], [])
  | .addAppender l a | .delAppender l a => ([l], [a])
  | .setAppenderLevel a _ | .setOwn a _ => ([], [a])

def perform (r : Registry) : RegistryCall → Registry
  | .getLogger name => (r.getLogger name).2
  | .makeLogger name => r.makeLogger name
  | .storeLogger label l => (r.storeLogger label l).2
  | .makeAppender target => r.makeAppender target
  | .addAppender l a => r.addAppender l a
  | .delAppender l a => r.delAppender l a
  | .clearAppenders l => r.clearAppenders l
  | .setLevel l level => r.setLevel l level
  | .setPattern l val => r.setFormatter l val
  | .setFormatter l val => r.assignFormatter l val
  | .setAppenderLevel a level => r.setAppender a ((r.appender a).setLevel level)
  | .setOwn a val => r.setAppender a ((r.appender a).setFormatter val)

/-- A call on objects that exist. -/
def step (r : Registry) (call : RegistryCall) : Option Registry :=
  if (∀ l ∈ (arguments call).1, l < r.nextLogger) ∧ ∀ a ∈ (arguments call).2, a < r.nextAppender then
    some (r.perform call)
  else none

end Registry

end Server.Log
