import ServerFramework.Log.Define
import ServerFramework.Log.Formatter
import Mathlib.Logic.Function.Basic

/-! Loggers, their appenders and the `LoggerManager`, without the output of events. -/

namespace Server.Log

/-- `FileLogAppender` with its file, or `StdoutLogAppender`. -/
inductive Target where
  | file (filename : String)
  | stdout
  deriving DecidableEq, Repr

structure LogAppender where
  target : Target
  formatter : Option LogFormatter
  level : Level
  hasFormatter : Bool
  deriving DecidableEq, Repr

namespace LogAppender

def new (target : Target) : LogAppender := ⟨target, none, .debug, false⟩

def setLevel (a : LogAppender) (level : Level) : LogAppender := { a with level := level }

def setFormatter (a : LogAppender) (val : Option LogFormatter) : LogAppender :=
  { a with formatter := val, hasFormatter := val.isSome }

end LogAppender

structure Logger where
  name : String
  level : Level
  formatter : LogFormatter
  appenders : List LogAppender
  deriving DecidableEq, Repr

def defaultFormatter : LogFormatter :=
  .init "%d\x7b%Y-%m-%d %H:%M:%S\x7d%T%t%T%N%T%F%T[%p]%T[%c]%T%f:%l%T%m%n"

namespace Logger

def new (name : String) : Logger := ⟨name, .debug, defaultFormatter, []⟩

def setLevel (l : Logger) (level : Level) : Logger := { l with level := level }

/-- `setFormatter(LogFormatter::ptr)`: appenders without a formatter of their own follow. -/
def assignFormatter (l : Logger) (val : LogFormatter) : Logger :=
  { l with
    formatter := val
    appenders := l.appenders.map fun i ↦
      if !i.hasFormatter then { i with formatter := some val } else i }

/-- `setFormatter(const std::string&)` -/
def setFormatter (l : Logger) (val : String) : Logger :=
  let newVal := LogFormatter.init val
  if newVal.isError then l else l.assignFormatter newVal

def addAppender (l : Logger) (appender : LogAppender) : Logger :=
  let appender :=
    if appender.formatter.isNone then { appender with formatter := some l.formatter } else appender
  { l with appenders := l.appenders ++ [appender] }

def clearAppenders (l : Logger) : Logger := { l with appenders := [] }

end Logger

/-- `m_loggers`; the root logger is the one named `root`. -/
abbrev LoggerManager := String → Option Logger

/-- `LoggerManager()` -/
def LoggerManager.new : LoggerManager :=
  Function.update (fun _ ↦ none) "root"
    (some ((Logger.new "root").addAppender (LogAppender.new .stdout)))

/-- `getLogger(name)`, and what is then done to the logger. -/
def LoggerManager.modify (m : LoggerManager) (name : String) (f : Logger → Logger) : LoggerManager :=
  Function.update m name (some (f ((m name).getD (Logger.new name))))

end Server.Log
