import ServerFramework.Log.Define
import ServerFramework.Library.Fallible

/-!
# Reading back what was written

The encoder writes every field of a definition, the decoder reads every field but the level of an
appender.
-/

namespace Server.Log

open Document Document.Node

/-- What the decoder makes of an appender. -/
def LogAppenderDefine.read (a : LogAppenderDefine) : LogAppenderDefine := { a with level := .unknown }

/-- The appenders that a definition file can describe. -/
def LogAppenderDefine.Describable (a : LogAppenderDefine) : Prop :=
  a.type = 1 ∨ a.type = 2 ∧ a.file = ""

theorem fromString_toString (level : Level) : Level.fromString level.toString = level := by
  cases level <;> decide

/-! ## Fields that are written on a condition -/

section Optional

variable {n v : Node} {key key' s : String} {c : Prop} [Decidable c]

theorem isMap_optional (h : n.isMap = true) : (if c then n.set key v else n).isMap = true := by
  split
  · exact isMap_set
  · exact h

theorem get?_optional_ne (hne : key' ≠ key) :
    (if c then n.set key v else n).get? key' = n.get? key' := by
  split
  · exact get?_set_ne hne
  · rfl

theorem get?_optional (h : n.get? key = none) :
    (if c then n.set key v else n).get? key = if c then some v else none := by
  split
  · exact get?_set_self
  · exact h

theorem readString_optional (hmap : n.isMap = true)
    (h : n.get? key = if c then some (.scalar s) else none) :
    readString n key = .ok (if c then s else "") := by
  unfold readString
  rw [subscript_of_isMap hmap, h]
  split <;> rfl

end Optional

theorem optional_formatter (s : String) : (if (!s.isEmpty) = true then s else "") = s := by
  split
  · rfl
  · rename_i h
    rw [Bool.not_eq_true, Bool.not_eq_false', String.isEmpty_iff] at h
    exact h.symm

theorem optional_level (level : Level) :
    Level.fromString (if level ≠ .unknown then level.toString else "") = level := by
  split
  · exact fromString_toString level
  · rename_i h
    rw [not_not] at h
    rw [h]
    decide

/-! ## Appenders -/

/-- The fields before the optional ones. -/
def LogAppenderDefine.head (a : LogAppenderDefine) : Node :=
  if a.type = 1 then (Node.null.set "type" (.scalar "FileLogAppender")).set "file" (.scalar a.file)
  else if a.type = 2 then Node.null.set "type" (.scalar "StdoutLogAppender")
  else .null

section

variable {a : LogAppenderDefine}

theorem toNode_isMap (h : a.head.isMap = true) : a.toNode.isMap = true :=
  isMap_optional (isMap_optional h)

theorem get?_toNode {key : String} (hlevel : key ≠ "level") (hformatter : key ≠ "formatter") :
    a.toNode.get? key = a.head.get? key :=
  (get?_optional_ne hformatter).trans (get?_optional_ne hlevel)

theorem readString_toNode (hmap : a.head.isMap = true) (h : a.head.get? "formatter" = none) :
    readString a.toNode "formatter" = .ok a.formatter := by
  have hget : a.toNode.get? "formatter" =
      if (!a.formatter.isEmpty) = true then some (.scalar a.formatter) else none :=
    get?_optional ((get?_optional_ne (by decide)).trans h)
  rw [readString_optional (toNode_isMap hmap) hget, optional_formatter]

end

theorem ofNode_file (a : LogAppenderDefine) (h : a.type = 1) :
    LogAppenderDefine.ofNode a.toNode = .ok (some ⟨1, .unknown, a.formatter, a.file⟩) := by
  have hhead : a.head =
      (Node.null.set "type" (.scalar "FileLogAppender")).set "file" (.scalar a.file) := if_pos h
  have hmap : a.head.isMap = true := by rw [hhead, isMap_set]
  have htype : a.toNode.get? "type" = some (.scalar "FileLogAppender") := by
    rw [get?_toNode (by decide) (by decide), hhead, get?_set_ne (by decide), get?_set_self]
  have hfile : a.toNode.get? "file" = some (.scalar a.file) := by
    rw [get?_toNode (by decide) (by decide), hhead, get?_set_self]
  have hformatter : readString a.toNode "formatter" = .ok a.formatter := by
    apply readString_toNode hmap
    rw [hhead, get?_set_ne (by decide), get?_set_ne (by decide)]
    rfl
  unfold LogAppenderDefine.ofNode
  rw [subscript_of_isMap (toNode_isMap hmap), subscript_of_isMap (toNode_isMap hmap), htype, hfile,
    hformatter]
  rfl

theorem ofNode_stdout (a : LogAppenderDefine) (h : a.type = 2) :
    LogAppenderDefine.ofNode a.toNode = .ok (some ⟨2, .unknown, a.formatter, ""⟩) := by
  have hhead : a.head = Node.null.set "type" (.scalar "StdoutLogAppender") := by
    unfold LogAppenderDefine.head
    rw [if_neg (by omega), if_pos h]
  have hmap : a.head.isMap = true := by rw [hhead, isMap_set]
  have htype : a.toNode.get? "type" = some (.scalar "StdoutLogAppender") := by
    rw [get?_toNode (by decide) (by decide), hhead, get?_set_self]
  have hformatter : readString a.toNode "formatter" = .ok a.formatter := by
    apply readString_toNode hmap
    rw [hhead, get?_set_ne (by decide)]
    rfl
  unfold LogAppenderDefine.ofNode
  rw [subscript_of_isMap (toNode_isMap hmap), htype, hformatter]
  rfl

/-- Everything but the level of an appender is read back. -/
theorem ofNode_toNode {a : LogAppenderDefine} (h : a.Describable) :
    LogAppenderDefine.ofNode a.toNode = .ok (some a.read) := by
  rcases h with htype | ⟨htype, hfile⟩
  · rw [ofNode_file a htype, ← htype]
    rfl
  · rw [ofNode_stdout a htype, ← htype, ← hfile]
    rfl

theorem readAppenders_toNode {as : List LogAppenderDefine} (h : ∀ a ∈ as, a.Describable) :
    readAppenders (as.map LogAppenderDefine.toNode) = .ok (as.map LogAppenderDefine.read) := by
  induction as with
  | nil => rfl
  | cons a as ih =>
      rw [List.map_cons, readAppenders, ofNode_toNode (h a List.mem_cons_self),
        ih fun a ha ↦ h a (List.mem_cons_of_mem _ ha)]
      rfl

/-! ## Definitions -/

/-- The appenders are written behind the other fields, in their order. -/
theorem foldl_pushAppender (as : List LogAppenderDefine) {node : Node} (hmap : node.isMap = true) :
    (as.foldl pushAppender node).isMap = true ∧
      (∀ key, key ≠ "appenders" → (as.foldl pushAppender node).get? key = node.get? key) ∧
      ∀ l : List Node, node.get? "appenders" = some (.seq l) ∨
          l = [] ∧ node.get? "appenders" = none →
        (((as.foldl pushAppender node).get? "appenders").map Node.elements).getD [] =
          l ++ as.map LogAppenderDefine.toNode := by
  induction as generalizing node with
  | nil =>
      -- no appenders, no key
      refine ⟨hmap, fun _ _ ↦ rfl, fun l hl ↦ ?_⟩
      rw [List.map_nil, List.append_nil, List.foldl_nil]
      rcases hl with hl | ⟨rfl, hl⟩ <;> rw [hl] <;> rfl
  | cons a as ih =>
      have hnext : (pushAppender node a).isMap = true := isMap_set
      obtain ⟨hmap', hother, happenders⟩ := ih hnext
      refine ⟨hmap', fun key hkey ↦ ?_, fun l hl ↦ ?_⟩
      · rw [List.foldl_cons, hother key hkey]
        exact get?_set_ne hkey
      · have hpush : (pushAppender node a).get? "appenders" = some (.seq (l ++ [a.toNode])) := by
          unfold pushAppender
          rw [get?_set_self]
          rcases hl with hl | ⟨rfl, hl⟩ <;> rw [hl] <;> rfl
        rw [List.foldl_cons, happenders _ (.inl hpush), List.append_assoc]
        rfl

/-- The fields before the appenders. -/
def LogDefine.head (d : LogDefine) : Node :=
  let node := Node.null.set "name" (.scalar d.name)
  let node := if d.level ≠ .unknown then node.set "level" (.scalar d.level.toString) else node
  if !d.formatter.isEmpty then node.set "formatter" (.scalar d.formatter) else node

section

variable (d : LogDefine)

theorem head_isMap : d.head.isMap = true := isMap_optional (isMap_optional isMap_set)

theorem head_name : d.head.get? "name" = some (.scalar d.name) :=
  ((get?_optional_ne (by decide)).trans (get?_optional_ne (by decide))).trans get?_set_self

theorem head_level :
    d.head.get? "level" = if d.level ≠ .unknown then some (.scalar d.level.toString) else none :=
  (get?_optional_ne (by decide)).trans (get?_optional (get?_set_ne (by decide)))

theorem head_formatter : d.head.get? "formatter" =
    if (!d.formatter.isEmpty) = true then some (.scalar d.formatter) else none :=
  get?_optional ((get?_optional_ne (by decide)).trans (get?_set_ne (by decide)))

theorem head_appenders : d.head.get? "appenders" = none :=
  ((get?_optional_ne (by decide)).trans (get?_optional_ne (by decide))).trans
    (get?_set_ne (by decide))

end

/-- Decoding what was encoded gives the definition with the levels of its appenders lost. -/
theorem ofNode_define {d : LogDefine} (h : ∀ a ∈ d.appenders, a.Describable) :
    LogDefine.ofNode d.toNode =
      .ok { d with appenders := d.appenders.map LogAppenderDefine.read } := by
  obtain ⟨hmap, hget, happenders⟩ := foldl_pushAppender d.appenders (head_isMap d)
  change d.toNode.isMap = true at hmap
  -- the four keys that the decoder asks for
  have hname : d.toNode.get? "name" = some (.scalar d.name) :=
    (hget "name" (by decide)).trans (head_name d)
  have hlevel := readString_optional hmap ((hget "level" (by decide)).trans (head_level d))
  have hformatter :=
    readString_optional hmap ((hget "formatter" (by decide)).trans (head_formatter d))
  have hread := happenders [] (.inr ⟨rfl, head_appenders d⟩)
  rw [List.nil_append] at hread
  change ((d.toNode.get? "appenders").map Node.elements).getD [] = _ at hread
  unfold LogDefine.ofNode
  rw [subscript_of_isMap hmap, subscript_of_isMap hmap, hname]
  rw [hlevel, hformatter]
  dsimp only [bind, Except.bind, Except.mapError, asString]
  rw [hread, readAppenders_toNode h, optional_formatter, optional_level]
  rfl

/-- What is written is read back if and only if no appender has a level. -/
theorem fromString_toString_iff {emit : Node → String} {load : String → Option Node} {d : LogDefine}
    (hload : load (emit d.toNode) = some d.toNode) (h : ∀ a ∈ d.appenders, a.Describable) :
    LogDefine.fromString load (d.toString emit) = .ok d ↔ ∀ a ∈ d.appenders, a.level = .unknown := by
  have hread : LogDefine.fromString load (d.toString emit) =
      .ok { d with appenders := d.appenders.map LogAppenderDefine.read } := by
    unfold LogDefine.fromString LogDefine.toString
    rw [hload]
    exact ofNode_define h
  rw [hread]
  constructor
  · intro heq a ha
    have happenders := congrArg LogDefine.appenders (Except.ok.inj heq)
    have ha' : a.read = a := List.map_inj_left.mp (happenders.trans (List.map_id _).symm) a ha
    exact (congrArg LogAppenderDefine.level ha').symm
  · intro hlevel
    have happenders : d.appenders.map LogAppenderDefine.read = d.appenders.map id := by
      apply List.map_congr_left
      intro a ha
      unfold LogAppenderDefine.read
      rw [← hlevel a ha]
      rfl
    rw [happenders, List.map_id]

/-- A definition with a level, and two appenders without one. -/
def systemDefine : LogDefine :=
  ⟨"system", .info, "%m%n", [⟨1, .unknown, "", "/logs/system.log"⟩, ⟨2, .unknown, "%m", ""⟩]⟩

def systemYaml : String :=
  "name: system\nlevel: INFO\nformatter: \"%m%n\"\nappenders:\n  - type: FileLogAppender\n" ++
    "    file: /logs/system.log\n  - type: StdoutLogAppender\n    formatter: \"%m\""

theorem fromString_toString_iff_system :
    LogDefine.fromString (fun _ ↦ some systemDefine.toNode)
      (systemDefine.toString fun _ ↦ systemYaml) = .ok systemDefine := by
  refine (fromString_toString_iff rfl fun a ha ↦ ?_).mpr fun a ha ↦ ?_
  · simp only [systemDefine, List.mem_cons, List.not_mem_nil, or_false] at ha
    rcases ha with rfl | rfl
    · exact .inl rfl
    · exact .inr ⟨rfl, rfl⟩
  · simp only [systemDefine, List.mem_cons, List.not_mem_nil, or_false] at ha
    rcases ha with rfl | rfl <;> rfl

/-- An appender of level `ERROR`, as the README describes it. -/
def rootDefine : LogDefine := ⟨"root", .unknown, "", [⟨2, .error, "", ""⟩]⟩

def rootYaml : String := "name: root\nappenders:\n  - type: StdoutLogAppender\n    level: ERROR"

/-- Its level is written and not read. -/
theorem appender_level_lost :
    LogDefine.fromString (fun _ ↦ some rootDefine.toNode) (rootDefine.toString fun _ ↦ rootYaml) =
        .ok { rootDefine with appenders := [⟨2, .unknown, "", ""⟩] } ∧
      LogDefine.fromString (fun _ ↦ some rootDefine.toNode)
        (rootDefine.toString fun _ ↦ rootYaml) ≠ .ok rootDefine := by
  have hread : LogDefine.fromString (fun _ ↦ some rootDefine.toNode)
      (rootDefine.toString fun _ ↦ rootYaml) =
        .ok { rootDefine with appenders := [⟨2, .unknown, "", ""⟩] } :=
    ofNode_define (d := rootDefine) fun a ha ↦ by
      rw [List.mem_singleton.mp ha]
      exact .inr ⟨rfl, rfl⟩
  refine ⟨hread, fun heq ↦ ?_⟩
  rw [hread] at heq
  have hlevels := congrArg (fun d ↦ d.appenders.map LogAppenderDefine.level) (Except.ok.inj heq)
  cases hlevels

end Server.Log
