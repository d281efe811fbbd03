import ServerFramework.Library.Document

/-!
# Logger definitions and their YAML form

`emit` and `load` stand for yaml-cpp's stream operator and `YAML::Load`.
-/

namespace Server.Log

open Document

/-- `LogLevel::Level` -/
inductive Level where
  | unknown
  | debug
  | info
  | warn
  | error
  | fatal
  deriving DecidableEq, Repr

/-- `LogLevel::ToString` -/
def Level.toString : Level → String
  | .debug => "DEBUG"
  | .info => "INFO"
  | .warn => "WARN"
  | .error => "ERROR"
  | .fatal => "FATAL"
  | .unknown => "UNKNOWN"

/-- `LogLevel::FromString` -/
def Level.fromString (str : String) : Level :=
  if str = "debug" then .debug
  else if str = "info" then .info
  else if str = "warn" then .warn
  else if str = "error" then .error
  else if str = "fatal" then .fatal
  else if str = "DEBUG" then .debug
  else if str = "INFO" then .info
  else if str = "WARN" then .warn
  else if str = "ERROR" then .error
  else if str = "FATAL" then .fatal
  else .unknown

/-- The number of the enumerator. -/
def Level.value : Level → Nat
  | .unknown => 0
  | .debug => 1
  | .info => 2
  | .warn => 3
  | .error => 4
  | .fatal => 5

structure LogAppenderDefine where
  /-- 1 File, 2 Stdout -/
  type : Int
  level : Level
  formatter : String
  file : String
  deriving DecidableEq, Repr

structure LogDefine where
  name : String
  level : Level
  formatter : String
  appenders : List LogAppenderDefine
  deriving DecidableEq, Repr

/-! ## `LexicalCast<LogDefine, std::string>` -/

def LogAppenderDefine.toNode (a : LogAppenderDefine) : Node :=
  let na : Node :=
    if a.type = 1 then (Node.null.set "type" (.scalar "FileLogAppender")).set "file" (.scalar a.file)
    else if a.type = 2 then Node.null.set "type" (.scalar "StdoutLogAppender")
    else .null
  -- the level is written here, and `ofNode` does not read it
  let na := if a.level ≠ .unknown then na.set "level" (.scalar a.level.toString) else na
  if !a.formatter.isEmpty then na.set "formatter" (.scalar a.formatter) else na

/-- `node["appenders"].push_back(na)` -/
def pushAppender (node : Node) (a : LogAppenderDefine) : Node :=
  node.set "appenders" (((node.get? "appenders").getD .null).push a.toNode)

def LogDefine.toNode (i : LogDefine) : Node :=
  let node := Node.null.set "name" (.scalar i.name)
  let node := if i.level ≠ .unknown then node.set "level" (.scalar i.level.toString) else node
  let node := if !i.formatter.isEmpty then node.set "formatter" (.scalar i.formatter) else node
  i.appenders.foldl pushAppender node

def LogDefine.toString (emit : Node → String) (i : LogDefine) : String := emit i.toNode

/-! ## `LexicalCast<std::string, LogDefine>` -/

inductive CastError where
  /-- `YAML::Load` throws -/
  | load
  | node (e : Error)
  /-- `std::logic_error("log config name is null")` -/
  | nameIsNull
  deriving DecidableEq, Repr

/-- `node[key].IsDefined() ? node[key].as<std::string>() : ""` -/
def readString (node : Node) (key : String) : Except Error String := do
  match ← node.subscript key with
  | some v => v.asString
  | none => return ""

/-- One iteration of the loop over the appenders; `none` is its `continue`. -/
def LogAppenderDefine.ofNode (a : Node) : Except Error (Option LogAppenderDefine) := do
  match ← a.subscript "type" with
  | none => return none
  | some t =>
    let type ← t.asString
    if type = "FileLogAppender" then
      match ← a.subscript "file" with
      | none => return none
      | some f =>
        let file ← f.asString
        let formatter ← readString a "formatter"
        return some ⟨1, .unknown, formatter, file⟩
    else if type = "StdoutLogAppender" then
      let formatter ← readString a "formatter"
      return some ⟨2, .unknown, formatter, ""⟩
    else return none

def readAppenders : List Node → Except Error (List LogAppenderDefine)
  | [] => return []
  | a :: rest => do
    let lad ← LogAppenderDefine.ofNode a
    let appenders ← readAppenders rest
    return lad.toList ++ appenders

def LogDefine.ofNode (node : Node) : Except CastError LogDefine := do
  match ← (node.subscript "name").mapError .node with
  | none => throw .nameIsNull
  | some v =>
    let name ← v.asString.mapError .node
    let level ← (readString node "level").mapError .node
    let formatter ← (readString node "formatter").mapError .node
    let appenders ← ((node.subscript "appenders").mapError CastError.node)
    let appenders ← (readAppenders ((appenders.map Node.elements).getD [])).mapError .node
    return ⟨name, Level.fromString level, formatter, appenders⟩

def LogDefine.fromString (load : String → Option Node) (v : String) : Except CastError LogDefine :=
  match load v with
  | none => .error .load
  | some node => ofNode node

end Server.Log
