import ServerFramework.Log.Config
import ServerFramework.Log.RoundTrip
import ServerFramework.Library.OrderedSet
import Mathlib.Data.Finset.Sort

/-!
# Dumping the loggers

`toYamlString` of appenders, loggers and the manager, and the `LexicalCast` that reads a set of
definitions.  Every layer emits its node, and the next one loads that text again.
-/

namespace Server.Log

open Document Document.Node

section

variable (emit : Node → String) (load : String → Option Node)

/-! ## `toYamlString` -/

/-- The node that `toYamlString` of `FileLogAppender` and `StdoutLogAppender` emits. -/
def LogAppender.toNode (a : LogAppender) : Node :=
  let node : Node :=
    match a.target with
    | .file filename =>
      (Node.null.set "type" (.scalar "FileLogAppender")).set "file" (.scalar filename)
    | .stdout => Node.null.set "type" (.scalar "StdoutLogAppender")
  let node := if a.level ≠ .unknown then node.set "level" (.scalar a.level.toString) else node
  match a.hasFormatter, a.formatter with
  | true, some fmt => node.set "formatter" (.scalar fmt.pattern)
  | _, _ => node

def LogAppender.toYamlString (a : LogAppender) : String := emit a.toNode

/-- `node["appenders"].push_back(YAML::Load(i->toYamlString()))` -/
def loadAppender (node : Node) (i : LogAppender) : Option Node :=
  (load (i.toYamlString emit)).map fun na ↦
    node.set "appenders" (((node.get? "appenders").getD .null).push na)

def Logger.toNode (l : Logger) : Option Node :=
  let node := Node.null.set "name" (.scalar l.name)
  let node := if l.level ≠ .unknown then node.set "level" (.scalar l.level.toString) else node
  -- `m_formatter` is never null here
  let node := node.set "formatter" (.scalar l.formatter.pattern)
  l.appenders.foldlM (loadAppender emit load) node

def Logger.toYamlString (l : Logger) : Option String := (l.toNode emit load).map emit

/-- `node.push_back(YAML::Load(i.second->toYamlString()))` -/
def loadLogger (m : LoggerManager) (node : Node) (name : String) : Option Node :=
  match m name with
  | none => some node
  | some l => ((l.toYamlString emit load).bind load).map node.push

/-- `names` are the keys of `m_loggers` in their order. -/
def LoggerManager.toYamlString (m : LoggerManager) (names : List String) : Option String :=
  (names.foldlM (loadLogger emit load m) .null).map emit

/-- The order of a `std::map` over its keys. -/
structure Keys (names : List String) (m : LoggerManager) : Prop where
  sorted : names.Pairwise (· < ·)
  mem : ∀ n, n ∈ names ↔ (m n).isSome = true

/-! ## `LexicalCast<std::string, std::set<LogDefine>>` -/

/-- `LogDefine::operator<` -/
def LogDefine.lt (i j : LogDefine) : Bool := decide (i.name < j.name)

def insertDefine (set : List LogDefine) (text : String) : Except CastError (List LogDefine) :=
  (LogDefine.fromString load text).map fun i ↦ OrderedSet.insert LogDefine.lt i set

def readDefines (v : String) : Except CastError (List LogDefine) :=
  match load v with
  | none => .error .load
  | some node => (node.itemTexts emit).foldlM (insertDefine load) []

end

/-! ## What a logger is dumped as -/

/-- The definition that an appender is dumped as. -/
def LogAppender.describe (a : LogAppender) : LogAppenderDefine :=
  let formatter := if a.hasFormatter then (a.formatter.map LogFormatter.pattern).getD "" else ""
  match a.target with
  | .file filename => ⟨1, a.level, formatter, filename⟩
  | .stdout => ⟨2, a.level, formatter, ""⟩

def Logger.describe (l : Logger) : LogDefine :=
  ⟨l.name, l.level, l.formatter.pattern, l.appenders.map LogAppender.describe⟩

/-- What is read back from the dump of a logger: the levels of its appenders are lost. -/
def Logger.readBack (l : Logger) : LogDefine :=
  { l.describe with appenders := l.describe.appenders.map LogAppenderDefine.read }

/-- A formatter of its own is there and not empty. -/
def LogAppender.Printable (a : LogAppender) : Prop :=
  a.hasFormatter = true → ∃ fmt, a.formatter = some fmt ∧ fmt.pattern.isEmpty = false

structure Logger.Printable (l : Logger) : Prop where
  formatter : l.formatter.pattern.isEmpty = false
  appenders : ∀ a ∈ l.appenders, a.Printable

variable {a : LogAppender} {l : Logger}

theorem describe_describable (a : LogAppender) : a.describe.Describable := by
  unfold LogAppender.describe
  cases a.target with
  | file => exact .inl rfl
  | stdout => exact .inr ⟨rfl, rfl⟩

theorem describe_toNode (h : a.Printable) : a.describe.toNode = a.toNode := by
  obtain ⟨target, formatter, level, hasFormatter⟩ := a
  cases hasFormatter with
  | false => cases target <;> rfl
  | true =>
      obtain ⟨fmt, hfmt, hpattern⟩ := h rfl
      cases hfmt
      have hnot : (!fmt.pattern.isEmpty) = true := by rw [hpattern]; rfl
      cases target with
      | file =>
          show (if (!fmt.pattern.isEmpty) = true then _ else _) = _
          rw [if_pos hnot]
          rfl
      | stdout =>
          show (if (!fmt.pattern.isEmpty) = true then _ else _) = _
          rw [if_pos hnot]
          rfl

section

variable {emit : Node → String} {load : String → Option Node}

theorem foldlM_loadAppender {as : List LogAppender} (node : Node)
    (h : ∀ a ∈ as, a.Printable ∧ load (emit a.toNode) = some a.toNode) :
    as.foldlM (loadAppender emit load) node =
      some ((as.map LogAppender.describe).foldl pushAppender node) := by
  induction as generalizing node with
  | nil => rfl
  | cons a as ih =>
      obtain ⟨hprint, hload⟩ := h a List.mem_cons_self
      have hpush : loadAppender emit load node a = some (pushAppender node a.describe) := by
        unfold loadAppender LogAppender.toYamlString pushAppender
        rw [hload, describe_toNode hprint]
        rfl
      rw [List.foldlM_cons, hpush, List.map_cons, List.foldl_cons]
      exact ih _ fun b hb ↦ h b (List.mem_cons_of_mem _ hb)

theorem toNode_describe (h : l.Printable)
    (hload : ∀ a ∈ l.appenders, load (emit a.toNode) = some a.toNode) :
    l.toNode emit load = some l.describe.toNode := by
  have hnot : (!l.formatter.pattern.isEmpty) = true := by rw [h.formatter]; rfl
  unfold Logger.toNode
  rw [foldlM_loadAppender _ fun a ha ↦ ⟨h.appenders a ha, hload a ha⟩]
  show some _ = some (List.foldl pushAppender
    (if (!l.formatter.pattern.isEmpty) = true then _ else _) _)
  rw [if_pos hnot]
  rfl

/-- A dumped logger is read back as its description, without the levels of its appenders. -/
theorem ofNode_describe (l : Logger) : LogDefine.ofNode l.describe.toNode = .ok l.readBack := by
  apply ofNode_define
  intro d hd
  obtain ⟨a, -, rfl⟩ := List.mem_map.mp hd
  exact describe_describable a

/-! ## The dump of the manager -/

variable {m : LoggerManager} {names : List String}

/-- Loading undoes emitting on the nodes of the appenders and of the loggers. -/
structure LoadsLoggers (emit : Node → String) (load : String → Option Node) (m : LoggerManager) :
    Prop where
  appenders : ∀ n l, m n = some l → ∀ a ∈ l.appenders, load (emit a.toNode) = some a.toNode
  loggers : ∀ n l node, m n = some l → l.toNode emit load = some node →
    load (emit node) = some node

/-- Loading undoes emitting on every node that the dump emits. -/
structure Loads (emit : Node → String) (load : String → Option Node) (names : List String)
    (m : LoggerManager) : Prop extends LoadsLoggers emit load m where
  all : ∀ node, names.foldlM (loadLogger emit load m) .null = some node →
    load (emit node) = some node

/-- The loggers in the order of their names. -/
def LoggerManager.listed (m : LoggerManager) (names : List String) : List Logger := names.filterMap m

theorem loadLogger_eq (hprint : ∀ n l, m n = some l → l.Printable) (hl : LoadsLoggers emit load m)
    (node : Node) (n : String) :
    loadLogger emit load m node n =
      some (((m n).map fun l ↦ node.push l.describe.toNode).getD node) := by
  unfold loadLogger
  cases hn : m n with
  | none => rfl
  | some l =>
      have hnode := toNode_describe (hprint n l hn) (hl.appenders n l hn)
      show ((l.toYamlString emit load).bind load).map node.push = _
      rw [Logger.toYamlString, hnode, Option.map_some, Option.bind_some,
        hl.loggers n l _ hn hnode]
      rfl

theorem foldlM_loadLogger (hprint : ∀ n l, m n = some l → l.Printable)
    (hl : LoadsLoggers emit load m) (ns : List String) (node : Node) :
    ns.foldlM (loadLogger emit load m) node =
      some ((m.listed ns).foldl (fun node l ↦ node.push l.describe.toNode) node) := by
  induction ns generalizing node with
  | nil => rfl
  | cons n ns ih =>
      rw [List.foldlM_cons, loadLogger_eq hprint hl]
      show ns.foldlM _ _ = _
      rw [ih]
      show _ = some (List.foldl _ node (List.filterMap m (n :: ns)))
      rw [List.filterMap_cons]
      cases m n <;> rfl

theorem items_foldl_push (ls : List Logger) (node : Node) (h : node = .null ∨ ∃ ns, node = .seq ns) :
    (ls.foldl (fun node l ↦ node.push l.describe.toNode) node).items =
      node.items ++ ls.map fun l ↦ some l.describe.toNode := by
  induction ls generalizing node with
  | nil => rw [List.map_nil, List.append_nil]; rfl
  | cons l ls ih =>
      rw [List.foldl_cons]
      rcases h with rfl | ⟨ns, rfl⟩
      · rw [ih (Node.push .null _) (.inr ⟨_, rfl⟩)]
        rfl
      · rw [ih (Node.push (.seq ns) _) (.inr ⟨_, rfl⟩)]
        simp only [Node.push, Node.items, List.map_append, List.map_cons, List.map_nil,
          List.append_assoc, List.singleton_append]

theorem foldlM_insertDefine {ls : List Logger} (set : List LogDefine)
    (h : ∀ l ∈ ls, load (emit l.describe.toNode) = some l.describe.toNode) :
    (ls.map fun l ↦ emit l.describe.toNode).foldlM (insertDefine load) set =
      .ok ((ls.map Logger.readBack).foldl (fun s i ↦ OrderedSet.insert LogDefine.lt i s) set) := by
  induction ls generalizing set with
  | nil => rfl
  | cons l ls ih =>
      have hread : insertDefine load set (emit l.describe.toNode) =
          .ok (OrderedSet.insert LogDefine.lt l.readBack set) := by
        unfold insertDefine LogDefine.fromString
        rw [h l List.mem_cons_self]
        show (LogDefine.ofNode l.describe.toNode).map _ = _
        rw [ofNode_describe]
        rfl
      rw [List.map_cons, List.foldlM_cons, hread]
      exact ih _ fun l' hl' ↦ h l' (List.mem_cons_of_mem _ hl')

theorem listed_sorted (hkeys : Keys names m) (hnamed : ∀ n l, m n = some l → l.name = n) :
    OrderedSet.Sorted LogDefine.lt ((m.listed names).map Logger.readBack) := by
  have hlisted : (m.listed names).Pairwise fun l l' ↦ l.name < l'.name := by
    apply hkeys.sorted.filterMap
    intro n n' hlt l hl l' hl'
    rw [hnamed n l hl, hnamed n' l' hl']
    exact hlt
  unfold OrderedSet.Sorted
  rw [List.pairwise_map]
  refine hlisted.imp fun hlt ↦ ⟨decide_eq_true hlt, decide_eq_false ?_⟩
  exact lt_asymm hlt

/-- The manager is dumped, and read back logger by logger. -/
theorem readDefines_toYamlString (hprint : ∀ n l, m n = some l → l.Printable)
    (hnamed : ∀ n l, m n = some l → l.name = n) (hkeys : Keys names m)
    (hl : Loads emit load names m) :
    ∃ text, m.toYamlString emit load names = some text ∧
      readDefines emit load text = .ok ((m.listed names).map Logger.readBack) := by
  have hfold := foldlM_loadLogger hprint hl.toLoadsLoggers names .null
  refine ⟨_, congrArg (Option.map emit) hfold, ?_⟩
  have hitems := items_foldl_push (m.listed names) .null (.inl rfl)
  have htexts : Node.itemTexts emit ((m.listed names).foldl
      (fun node l ↦ node.push l.describe.toNode) .null) =
        (m.listed names).map fun l ↦ emit l.describe.toNode := by
    unfold itemTexts
    rw [hitems, List.map_append, List.map_map]
    rfl
  have hloggers : ∀ l ∈ m.listed names,
      load (emit l.describe.toNode) = some l.describe.toNode := by
    intro l hmem
    obtain ⟨n, -, hn⟩ := List.mem_filterMap.mp hmem
    exact hl.loggers n l _ hn (toNode_describe (hprint n l hn) (hl.appenders n l hn))
  unfold readDefines
  rw [hl.all _ hfold]
  show (Node.itemTexts emit _).foldlM (insertDefine load) [] = _
  rw [htexts, foldlM_insertDefine [] hloggers]
  exact congrArg _ (OrderedSet.ofList_of_sorted (listed_sorted hkeys hnamed))

/-! ## What a parsed definition is like -/

open Fallible

/-- What the parser makes of an appender: it never reads a level. -/
def LogAppenderDefine.Parsed (a : LogAppenderDefine) : Prop := a.level = .unknown ∧ a.Describable

theorem parsed_of_ofNode {n : Node} {d : LogAppenderDefine}
    (h : LogAppenderDefine.ofNode n = .ok (some d)) : d.Parsed := by
  obtain ⟨t, -, h⟩ := bind_ok h
  cases t with
  | none => cases h
  | some t =>
      obtain ⟨type, -, h⟩ := bind_ok h
      split at h
      · obtain ⟨f, -, h⟩ := bind_ok h
        cases f with
        | none => cases h
        | some f =>
            obtain ⟨file, -, h⟩ := bind_ok h
            obtain ⟨formatter, -, h⟩ := bind_ok h
            cases h
            exact ⟨rfl, .inl rfl⟩
      · split at h
        · obtain ⟨formatter, -, h⟩ := bind_ok h
          cases h
          exact ⟨rfl, .inr ⟨rfl, rfl⟩⟩
        · cases h

theorem parsed_of_readAppenders {ns : List Node} {as : List LogAppenderDefine}
    (h : readAppenders ns = .ok as) : ∀ a ∈ as, a.Parsed := by
  induction ns generalizing as with
  | nil =>
      cases h
      nofun
  | cons n ns ih =>
      obtain ⟨lad, hlad, h⟩ := bind_ok h
      obtain ⟨rest, hrest, h⟩ := bind_ok h
      cases h
      intro a ha
      rcases List.mem_append.mp ha with ha | ha
      · obtain rfl := Option.mem_toList.mp ha
        exact parsed_of_ofNode hlad
      · exact ih hrest a ha

theorem parsed_of_define {n : Node} {i : LogDefine} (h : LogDefine.ofNode n = .ok i) :
    ∀ a ∈ i.appenders, a.Parsed := by
  obtain ⟨name, -, h⟩ := bind_ok h
  cases name with
  | none => cases h
  | some v =>
      obtain ⟨name, -, h⟩ := bind_ok h
      obtain ⟨level, -, h⟩ := bind_ok h
      obtain ⟨formatter, -, h⟩ := bind_ok h
      obtain ⟨node, -, h⟩ := bind_ok h
      obtain ⟨as, has, h⟩ := bind_ok h
      cases h
      exact parsed_of_readAppenders (mapError_ok has)

theorem parsed_of_insertDefine {text : String} {set set' : List LogDefine}
    (h : insertDefine load set text = .ok set')
    (hset : ∀ i ∈ set, ∀ a ∈ i.appenders, a.Parsed) : ∀ i ∈ set', ∀ a ∈ i.appenders, a.Parsed := by
  unfold insertDefine at h
  cases hread : LogDefine.fromString load text with
  | error e => rw [hread] at h; cases h
  | ok i =>
      rw [hread] at h
      cases h
      intro j hj
      rcases OrderedSet.mem_insert hj with rfl | hj
      · unfold LogDefine.fromString at hread
        split at hread
        · cases hread
        · exact parsed_of_define hread
      · exact hset j hj

theorem parsed_of_readDefines {v : String} {ds : List LogDefine}
    (h : readDefines emit load v = .ok ds) : ∀ i ∈ ds, ∀ a ∈ i.appenders, a.Parsed := by
  unfold readDefines at h
  split at h
  · cases h
  · have hfold : ∀ (texts : List String) (set : List LogDefine),
        (∀ i ∈ set, ∀ a ∈ i.appenders, a.Parsed) →
        texts.foldlM (insertDefine load) set = .ok ds → ∀ i ∈ ds, ∀ a ∈ i.appenders, a.Parsed := by
      intro texts
      induction texts with
      | nil =>
          intro set hset h
          cases h
          exact hset
      | cons text texts ih =>
          intro set hset h
          rw [List.foldlM_cons] at h
          obtain ⟨set', hset', h⟩ := bind_ok h
          exact ih set' (parsed_of_insertDefine hset' hset) h
    exact hfold _ [] (fun _ hi ↦ absurd hi List.not_mem_nil) h

/-! ## Histories of calls -/

/-- The calls that change a manager: a new value for the `logs` argument, or a use of a logger. -/
inductive Change where
  | setValue (val : LogDefines)
  | getLogger (name : String)

def LogConfig.change (s : LogConfig) : Change → Option LogConfig
  | .setValue val => s.setValue val
  | .getLogger name => some { s with loggers := s.loggers.modify name id }

def changeAll (changes : List Change) : Option LogConfig := changes.foldlM LogConfig.change .start

/-- The configurations among the changes. -/
def configs : List Change → List LogDefines
  | [] => []
  | .setValue val :: changes => val :: configs changes
  | .getLogger _ :: changes => configs changes

end

/-! ## What every history keeps -/

theorem configs_append (c d : List Change) : configs (c ++ d) = configs c ++ configs d := by
  induction c with
  | nil => rfl
  | cons x c ih =>
      cases x with
      | setValue val => exact congrArg (val :: ·) ih
      | getLogger => exact ih

/-- The manager holds finitely many loggers, and the dump leaves nothing of their formatters out. -/
structure Kept (changes : List Change) (s : LogConfig) : Prop where
  configured : Configured (configs changes) s
  printable : ∀ n l, s.loggers n = some l → l.Printable
  finite : ∃ ns : List String, ∀ n, (s.loggers n).isSome = true → n ∈ ns

theorem init_pattern (p : String) : (LogFormatter.init p).pattern = p := rfl

theorem printable_new (n : String) : (Logger.new n).Printable := by
  refine ⟨?_, nofun⟩
  show (LogFormatter.init _).pattern.isEmpty = false
  rw [init_pattern]
  decide

theorem ownFormatter_eq {p : String} {fmt : LogFormatter} (h : ownFormatter p = some fmt) :
    fmt = .init p ∧ p.isEmpty = false := by
  unfold ownFormatter at h
  dsimp only at h
  split at h
  · rename_i hcond
    cases h
    rw [Bool.and_eq_true, Bool.not_eq_true'] at hcond
    exact ⟨rfl, hcond.1⟩
  · cases h

theorem chosen_pattern {fmt : LogFormatter} (h : fmt.pattern.isEmpty = false) (p : String) :
    (chosen fmt p).pattern.isEmpty = false := by
  unfold chosen
  cases hown : ownFormatter p with
  | none => exact h
  | some own =>
      obtain ⟨rfl, hp⟩ := ownFormatter_eq hown
      exact hp

theorem printable_appenderOf (fmt : LogFormatter) (a : LogAppenderDefine) :
    (appenderOf fmt a).Printable := by
  intro hown
  change (ownFormatter a.formatter).isSome = true at hown
  obtain ⟨own, hfmt⟩ := Option.isSome_iff_exists.mp hown
  obtain ⟨rfl, hp⟩ := ownFormatter_eq hfmt
  refine ⟨.init a.formatter, ?_, hp⟩
  unfold appenderOf chosen
  rw [hfmt]
  rfl

theorem printable_loggerOf {fmt : LogFormatter} (h : fmt.pattern.isEmpty = false) (i : LogDefine) :
    (loggerOf fmt i).Printable := by
  refine ⟨h, fun a ha ↦ ?_⟩
  obtain ⟨d, -, rfl⟩ := List.mem_map.mp ha
  exact printable_appenderOf fmt d

theorem printable_getD {m : LoggerManager} (h : ∀ n l, m n = some l → l.Printable) (n : String) :
    ((m n).getD (Logger.new n)).Printable := by
  cases hn : m n with
  | none => exact printable_new n
  | some l => exact h n l hn

theorem printable_entryNew {oldValue : LogDefines} {m : LoggerManager} {i : LogDefine} {l : Logger}
    (h : ∀ n l, m n = some l → l.Printable) (hl : entryNew oldValue i (m i.name) = some l) :
    l.Printable := by
  unfold entryNew at hl
  dsimp only at hl
  split at hl
  · cases hl
    have hmade := printable_loggerOf
      (chosen_pattern (printable_getD h i.name).formatter i.formatter) i
    exact ⟨hmade.formatter, hmade.appenders⟩
  · exact h _ l hl

/-- The names that a new value can add loggers for. -/
theorem onChange_of_not_mem {oldValue newValue : LogDefines} {m m' : LoggerManager} {n : String}
    (h : onChange oldValue newValue m = some m') (hnew : newValue.find n = none)
    (hold : oldValue.find n = none) : m' n = m n := by
  rw [onChange_eq] at h
  cases h
  rw [KeyedFold.apply_of_ne (LogDefines.find_eq_none_iff.mp hold),
    KeyedFold.apply_of_ne (LogDefines.find_eq_none_iff.mp hnew)]

theorem printable_onChange {oldValue newValue : LogDefines} {m m' : LoggerManager}
    (h : onChange oldValue newValue m = some m') (hprint : ∀ n l, m n = some l → l.Printable)
    (n : String) (l : Logger) (hl : m' n = some l) : l.Printable := by
  cases hfind : newValue.find n with
  | some i =>
      obtain ⟨hi, rfl⟩ := LogDefines.find_eq_some_iff.mp hfind
      rw [onChange_of_mem h hi] at hl
      exact printable_entryNew hprint hl
  | none =>
      rcases onChange_of_find_none h hfind with hsame | hreset
      · exact hprint n l (hsame ▸ hl)
      · rw [hreset] at hl
        cases hl
        exact ⟨(printable_getD hprint n).formatter, nofun⟩

theorem finite_onChange {oldValue newValue : LogDefines} {m m' : LoggerManager}
    (h : onChange oldValue newValue m = some m')
    (hfin : ∃ ns : List String, ∀ n, (m n).isSome = true → n ∈ ns) :
    ∃ ns : List String, ∀ n, (m' n).isSome = true → n ∈ ns := by
  obtain ⟨ns, hns⟩ := hfin
  refine ⟨ns ++ (newValue.defines ++ oldValue.defines).map LogDefine.name, fun n hn ↦ ?_⟩
  rw [List.mem_append, List.mem_map]
  cases hnew : newValue.find n with
  | some i =>
      obtain ⟨hi, rfl⟩ := LogDefines.find_eq_some_iff.mp hnew
      exact .inr ⟨i, List.mem_append_left _ hi, rfl⟩
  | none =>
      cases hold : oldValue.find n with
      | some i =>
          obtain ⟨hi, rfl⟩ := LogDefines.find_eq_some_iff.mp hold
          exact .inr ⟨i, List.mem_append_right _ hi, rfl⟩
      | none =>
          rw [onChange_of_not_mem h hnew hold] at hn
          exact .inl (hns n hn)

variable {changes : List Change} {s : LogConfig}

theorem Kept.setValue (h : Kept changes s) (S : LogDefines) :
    ∃ s', s.setValue S = some s' ∧ s'.val = S ∧ Kept (changes ++ [.setValue S]) s' := by
  obtain ⟨s', hs', hval, hconf⟩ := h.configured.setValue S
  have hconf' : Configured (configs (changes ++ [.setValue S])) s' := by
    rw [configs_append]
    exact hconf
  have hcases : s' = s ∨ ∃ m', onChange s.val S s.loggers = some m' ∧ s' = ⟨S, m'⟩ := by
    unfold LogConfig.setValue at hs'
    split at hs'
    · exact .inl (Option.some.inj hs').symm
    · obtain ⟨m', hm', heq⟩ := Option.map_eq_some_iff.mp hs'
      exact .inr ⟨m', hm', heq.symm⟩
  refine ⟨s', hs', hval, hconf', ?_, ?_⟩
  · rcases hcases with rfl | ⟨m', hm', rfl⟩
    · exact h.printable
    · exact printable_onChange hm' h.printable
  · rcases hcases with rfl | ⟨m', hm', rfl⟩
    · exact h.finite
    · exact finite_onChange hm' h.finite

theorem Kept.getLogger (h : Kept changes s) (name : String) :
    Kept (changes ++ [.getLogger name]) { s with loggers := s.loggers.modify name id } := by
  have hself : s.loggers.modify name id name = some ((s.loggers name).getD (Logger.new name)) :=
    Function.update_self _ _ _
  have hother : ∀ n, n ≠ name → s.loggers.modify name id n = s.loggers n := fun n hn ↦
    Function.update_of_ne hn _ _
  -- a logger that was there is the same
  have hsame : ∀ n l, s.loggers n = some l → s.loggers.modify name id n = some l := by
    intro n l hl
    by_cases hn : n = name
    · subst hn
      rw [hself, hl]
      rfl
    · rw [hother n hn, hl]
  have hgetD : ∀ n, (s.loggers.modify name id n).getD (Logger.new n) =
      (s.loggers n).getD (Logger.new n) := by
    intro n
    by_cases hn : n = name
    · subst hn
      rw [hself]
      rfl
    · rw [hother n hn]
  have hconfigs : configs (changes ++ [.getLogger name]) = configs changes := by
    rw [configs_append]
    exact List.append_nil _
  refine ⟨?_, fun n l hl ↦ ?_, ?_⟩
  · rw [hconfigs]
    refine ⟨fun n l hl ↦ ?_, fun n ↦ ?_, h.configured.kept, fun i hi ↦ ?_⟩
    · change s.loggers.modify name id n = some l at hl
      have hname := h.configured.name_getD (n := n)
      rw [← hgetD, hl] at hname
      exact hname
    · show ((s.loggers.modify name id n).getD _).formatter = _
      rw [hgetD]
      exact h.configured.formatter n
    · exact hsame _ _ (h.configured.made i hi)
  · change s.loggers.modify name id n = some l at hl
    have hprint := printable_getD h.printable n
    rw [← hgetD, hl] at hprint
    exact hprint
  · obtain ⟨ns, hns⟩ := h.finite
    refine ⟨name :: ns, fun n hn ↦ ?_⟩
    rw [List.mem_cons]
    by_cases hname : n = name
    · exact .inl hname
    · right
      apply hns
      rw [← hother n hname]
      exact hn

theorem start_kept : Kept [] .start := by
  have hnone : ∀ n, n ≠ "root" → LogConfig.start.loggers n = none := by
    intro n hn
    show Function.update (fun _ ↦ none) "root" _ n = none
    rw [Function.update_of_ne hn]
  refine ⟨start_configured, fun n l hl ↦ ?_, ["root"], fun n hn ↦ ?_⟩
  · by_cases hroot : n = "root"
    · subst hroot
      cases hl
      refine ⟨(printable_new "root").formatter, fun a ha ↦ ?_⟩
      rw [List.mem_singleton.mp ha]
      nofun
    · rw [hnone n hroot] at hl
      cases hl
  · rw [List.mem_singleton]
    by_contra hroot
    rw [hnone n hroot] at hn
    cases hn

theorem changeAll_concat {c : Change} (h : changeAll changes = some s) :
    changeAll (changes ++ [c]) = s.change c := by
  unfold changeAll at h ⊢
  rw [List.foldlM_append, h]
  show [c].foldlM LogConfig.change s = s.change c
  rw [List.foldlM_cons]
  cases s.change c <;> rfl

theorem changeAll_kept (changes : List Change) :
    ∃ s, changeAll changes = some s ∧ Kept changes s := by
  induction changes using List.reverseRecOn with
  | nil => exact ⟨.start, rfl, start_kept⟩
  | append_singleton changes c ih =>
      obtain ⟨s, hs, h⟩ := ih
      cases c with
      | setValue S =>
          obtain ⟨s', hs', -, h'⟩ := h.setValue S
          exact ⟨s', (changeAll_concat hs).trans hs', h'⟩
      | getLogger name => exact ⟨_, changeAll_concat hs, h.getLogger name⟩

theorem Kept.keys (h : Kept changes s) : ∃ names, Keys names s.loggers := by
  obtain ⟨ns, hns⟩ := h.finite
  refine ⟨(ns.toFinset.filter fun n ↦ (s.loggers n).isSome = true).sort, ?_, fun n ↦ ?_⟩
  · exact (Finset.sortedLT_sort _).pairwise
  · rw [Finset.mem_sort, Finset.mem_filter, List.mem_toFinset]
    exact ⟨And.right, fun hn ↦ ⟨hns n hn, hn⟩⟩

/-! ## The configuration in the dump -/

/-- A pattern that `setFormatter` accepts. -/
def ValidPattern (p : String) : Prop := p ≠ "" ∧ (LogFormatter.init p).isError = false

theorem ownFormatter_of_valid {p : String} (h : ValidPattern p) : ownFormatter p = some (.init p) := by
  obtain ⟨hne, herror⟩ := h
  have hempty : p.isEmpty = false := by
    rw [Bool.eq_false_iff, ne_eq, String.isEmpty_iff]
    exact hne
  unfold ownFormatter
  dsimp only
  rw [hempty, herror]
  rfl

/-- A parsed appender is dumped as it is. -/
theorem describe_appenderOf {fmt : LogFormatter} {a : LogAppenderDefine} (ha : a.Parsed)
    (hformatter : a.formatter = "" ∨ ValidPattern a.formatter) :
    (appenderOf fmt a).describe = a := by
  obtain ⟨type, level, formatter, file⟩ := a
  obtain ⟨hlevel, hdesc⟩ := ha
  change level = .unknown at hlevel
  subst hlevel
  have htext : (if (ownFormatter formatter).isSome = true then
      ((some (chosen fmt formatter)).map LogFormatter.pattern).getD "" else "") = formatter := by
    rcases hformatter with hempty | hvalid
    · change formatter = "" at hempty
      rw [hempty]
      rfl
    · unfold chosen
      rw [ownFormatter_of_valid hvalid]
      rfl
  rcases hdesc with htype | ⟨htype, hfile⟩
  · change type = 1 at htype
    subst htype
    exact congrArg (fun f ↦ (⟨1, .unknown, f, file⟩ : LogAppenderDefine)) htext
  · change type = 2 at htype
    change file = "" at hfile
    subst htype hfile
    exact congrArg (fun f ↦ (⟨2, .unknown, f, ""⟩ : LogAppenderDefine)) htext

theorem describe_loggerOf {i : LogDefine} (hparsed : ∀ a ∈ i.appenders, a.Parsed)
    (happenders : ∀ a ∈ i.appenders, a.formatter = "" ∨ ValidPattern a.formatter) :
    (loggerOf (.init i.formatter) i).describe = i := by
  have has : (i.appenders.map (appenderOf (.init i.formatter))).map LogAppender.describe =
      i.appenders := by
    rw [List.map_map]
    refine (List.map_congr_left fun a ha ↦ ?_).trans (List.map_id _)
    exact describe_appenderOf (hparsed a ha) (happenders a ha)
  unfold Logger.describe loggerOf
  dsimp only
  rw [has, init_pattern]

theorem readBack_loggerOf {i : LogDefine} (hparsed : ∀ a ∈ i.appenders, a.Parsed)
    (happenders : ∀ a ∈ i.appenders, a.formatter = "" ∨ ValidPattern a.formatter) :
    (loggerOf (.init i.formatter) i).readBack = i := by
  have hread : i.appenders.map LogAppenderDefine.read = i.appenders := by
    refine (List.map_congr_left fun a ha ↦ ?_).trans (List.map_id _)
    unfold LogAppenderDefine.read
    rw [← (hparsed a ha).1]
    rfl
  unfold Logger.readBack
  rw [describe_loggerOf hparsed happenders, hread]

variable {emit : Node → String} {load : String → Option Node} {S : LogDefines}

/-- The dump after `setValue(S)` is read back as `S`, among the other loggers that there are. -/
theorem dump_reproduces (changes : List Change) {v : String}
    (himage : readDefines emit load v = .ok S.defines)
    (hformatter : ∀ i ∈ S.defines, ValidPattern i.formatter)
    (happenders : ∀ i ∈ S.defines, ∀ a ∈ i.appenders,
      a.formatter = "" ∨ ValidPattern a.formatter) :
    ∃ s names, changeAll (changes ++ [.setValue S]) = some s ∧ Keys names s.loggers ∧
      (Loads emit load names s.loggers →
        ∃ text T, s.loggers.toYamlString emit load names = some text ∧
          readDefines emit load text = .ok T ∧
          T.filter (fun i ↦ (S.find i.name).isSome) = S.defines) := by
  obtain ⟨s₀, hs₀, h₀⟩ := changeAll_kept changes
  obtain ⟨s, hs, hval, h⟩ := h₀.setValue S
  obtain ⟨names, hkeys⟩ := h.keys
  refine ⟨s, names, (changeAll_concat hs₀).trans hs, hkeys, fun hl ↦ ?_⟩
  obtain ⟨text, htext, hread⟩ :=
    readDefines_toYamlString h.printable h.configured.named hkeys hl
  refine ⟨text, _, htext, hread, ?_⟩
  -- every definition of `S` is what its logger is read back as
  have hback : ∀ i ∈ S.defines, ∃ l, s.loggers i.name = some l ∧ l.readBack = i := by
    intro i hi
    refine ⟨_, h.configured.made i (hval ▸ hi), ?_⟩
    have hlast : lastFormatter i.name (configs (changes ++ [.setValue S])) = .init i.formatter := by
      rw [configs_append]
      show lastFormatter i.name (configs changes ++ [S]) = _
      rw [lastFormatter_of_mem hi, chosen, ownFormatter_of_valid (hformatter i hi)]
      rfl
    rw [hlast]
    exact readBack_loggerOf (parsed_of_readDefines himage i hi) (happenders i hi)
  -- both lists are in the order of the names
  have hirrefl : Std.Irrefl fun i j : LogDefine ↦ i.name < j.name := ⟨fun i ↦ lt_irrefl i.name⟩
  have hantisymm : Std.Antisymm fun i j : LogDefine ↦ i.name < j.name :=
    ⟨fun i j hij hji ↦ absurd hij (lt_asymm hji)⟩
  have hsorted := (listed_sorted hkeys h.configured.named).imp fun hlt ↦ of_decide_eq_true hlt.1
  refine List.Pairwise.eq_of_mem_iff (hsorted.filter _) S.sorted fun i ↦ ?_
  rw [List.mem_filter, List.mem_map]
  constructor
  · rintro ⟨⟨l, hmem, rfl⟩, hfind⟩
    obtain ⟨n, -, hn⟩ := List.mem_filterMap.mp hmem
    obtain ⟨j, hj⟩ := Option.isSome_iff_exists.mp hfind
    obtain ⟨hjmem, hjname⟩ := LogDefines.find_eq_some_iff.mp hj
    obtain ⟨l', hl', hback'⟩ := hback j hjmem
    have hname : j.name = n := hjname.trans (h.configured.named n l hn)
    rw [hname, hn] at hl'
    cases hl'
    rw [hback']
    exact hjmem
  · intro hi
    obtain ⟨l, hl', hback'⟩ := hback i hi
    refine ⟨⟨l, List.mem_filterMap.mpr ⟨i.name, ?_, hl'⟩, hback'⟩, ?_⟩
    · rw [hkeys.mem, hl']
      rfl
    · rw [LogDefines.find_eq_some_iff.mpr ⟨hi, rfl⟩]
      rfl

/-! ## A dump on fixed inputs -/

/-- A logger with a file and the console, where the console has a formatter of its own. -/
def systemLogs : LogDefines :=
  ⟨[systemDefine], List.pairwise_singleton _ _, by
    intro i hi a ha
    rw [List.mem_singleton.mp hi] at ha
    simp only [systemDefine, List.mem_cons, List.not_mem_nil, or_false] at ha
    rcases ha with rfl | rfl
    · exact .inl rfl
    · exact .inr rfl⟩

def rootLogger : Logger := (Logger.new "root").addAppender (LogAppender.new .stdout)

def fileYaml : String := "type: FileLogAppender\nfile: /logs/system.log"

def consoleYaml : String := "type: StdoutLogAppender\nformatter: \"%m\""

def rootConsoleYaml : String := "type: StdoutLogAppender\nlevel: DEBUG"

def loggersYaml : String :=
  "- name: root\n  level: DEBUG\n" ++
    "  formatter: \"%d\x7b%Y-%m-%d %H:%M:%S\x7d%T%t%T%N%T%F%T[%p]%T[%c]%T%f:%l%T%m%n\"\n" ++
    "  appenders:\n    - type: StdoutLogAppender\n      level: DEBUG\n" ++
    "- name: system\n  level: INFO\n  formatter: \"%m%n\"\n  appenders:\n" ++
    "    - type: FileLogAppender\n      file: /logs/system.log\n" ++
    "    - type: StdoutLogAppender\n      formatter: \"%m\""

def logsYaml : String :=
  "- name: system\n  level: INFO\n  formatter: \"%m%n\"\n  appenders:\n" ++
    "    - type: FileLogAppender\n      file: /logs/system.log\n" ++
    "    - type: StdoutLogAppender\n      formatter: \"%m\""

def rootLoggerYaml : String :=
  "name: root\nlevel: DEBUG\n" ++
    "formatter: \"%d\x7b%Y-%m-%d %H:%M:%S\x7d%T%t%T%N%T%F%T[%p]%T[%c]%T%f:%l%T%m%n\"\n" ++
    "appenders:\n  - type: StdoutLogAppender\n    level: DEBUG"

/-- What yaml-cpp emits for the nodes of this dump. -/
def emitted : Node → String
  | .seq [_] => logsYaml
  | .seq _ => loggersYaml
  | n =>
    match n.get? "name", n.get? "type" with
    | some (.scalar "root"), _ => rootLoggerYaml
    | some _, _ => systemYaml
    | none, some (.scalar "FileLogAppender") => fileYaml
    | none, _ => if (n.get? "level").isSome then rootConsoleYaml else consoleYaml

/-- What it loads from these texts. -/
def loadTable : List (String × Node) :=
  [(logsYaml, .seq [systemDefine.toNode]),
    (loggersYaml, .seq [rootLogger.describe.toNode, systemDefine.toNode]),
    (rootLoggerYaml, rootLogger.describe.toNode), (systemYaml, systemDefine.toNode),
    (fileYaml, LogAppenderDefine.toNode ⟨1, .unknown, "", "/logs/system.log"⟩),
    (consoleYaml, LogAppenderDefine.toNode ⟨2, .unknown, "%m", ""⟩),
    (rootConsoleYaml, (LogAppender.new .stdout).toNode)]

def loaded (text : String) : Option Node := loadTable.lookup text

theorem loaded_of_mem {text : String} {n : Node} (h : (text, n) ∈ loadTable) :
    loaded text = some n := lookup_of_mem (by decide +kernel) h

theorem readDefines_logsYaml : readDefines emitted loaded logsYaml = .ok systemLogs.defines := by
  have hdefine : LogDefine.ofNode systemDefine.toNode = .ok systemDefine := by
    rw [ofNode_define fun a ha ↦ ?_]
    · rfl
    · simp only [systemDefine, List.mem_cons, List.not_mem_nil, or_false] at ha
      rcases ha with rfl | rfl
      · exact .inl rfl
      · exact .inr ⟨rfl, rfl⟩
  unfold readDefines
  rw [loaded_of_mem (List.mem_cons_self)]
  show insertDefine loaded [] systemYaml >>= _ = _
  unfold insertDefine LogDefine.fromString
  rw [loaded_of_mem (n := systemDefine.toNode) (by simp [loadTable])]
  show (LogDefine.ofNode _).map _ >>= _ = _
  rw [hdefine]
  rfl

theorem systemDefine_formatters (a : LogAppenderDefine) (ha : a ∈ systemDefine.appenders) :
    a.formatter = "" ∨ ValidPattern a.formatter := by
  simp only [systemDefine, List.mem_cons, List.not_mem_nil, or_false] at ha
  rcases ha with rfl | rfl
  · exact .inl rfl
  · exact .inr ⟨by decide, by decide +kernel⟩

theorem emitted_systemLogger {a : LogAppenderDefine} (ha : a ∈ systemDefine.appenders)
    (fmt : LogFormatter) :
    loaded (emitted (appenderOf fmt a).toNode) = some (appenderOf fmt a).toNode := by
  have hparsed := parsed_of_readDefines readDefines_logsYaml _ List.mem_cons_self a ha
  rw [← describe_toNode (printable_appenderOf fmt a),
    describe_appenderOf hparsed (systemDefine_formatters a ha)]
  apply loaded_of_mem
  simp only [systemDefine, List.mem_cons, List.not_mem_nil, or_false] at ha
  rcases ha with rfl | rfl
  · show (fileYaml, _) ∈ loadTable
    simp [loadTable]
  · show (consoleYaml, _) ∈ loadTable
    simp [loadTable]

/-- The loggers after the configuration with the logger `system`. -/
theorem loggers_systemLogs {s : LogConfig} (hs : changeAll [.setValue systemLogs] = some s) :
    s.loggers "root" = some rootLogger ∧
      s.loggers "system" = some (loggerOf (.init "%m%n") systemDefine) ∧
      ∀ n, n ≠ "root" → n ≠ "system" → s.loggers n = none := by
  obtain ⟨s', hs', hval, h⟩ := start_kept.setValue systemLogs
  obtain rfl : s' = s := by
    have heq := (changeAll_concat (c := .setValue systemLogs) (rfl : changeAll [] = some _)).trans hs'
    exact Option.some.inj (heq.symm.trans hs)
  have hchange : ∃ m', onChange .empty systemLogs .new = some m' ∧ s' = ⟨systemLogs, m'⟩ := by
    have hne : LogConfig.start.val ≠ systemLogs := fun heq ↦ by
      have hdefines := congrArg LogDefines.defines heq
      cases hdefines
    unfold LogConfig.setValue at hs'
    rw [if_neg hne] at hs'
    obtain ⟨m', hm', heq⟩ := Option.map_eq_some_iff.mp hs'
    exact ⟨m', hm', heq.symm⟩
  have hmade := h.configured.made systemDefine (hval ▸ List.mem_cons_self)
  have hvalid : ValidPattern "%m%n" := ⟨by decide, by decide +kernel⟩
  obtain ⟨m', hm', rfl⟩ := hchange
  have hother : ∀ n, n ≠ "system" → m' n = LoggerManager.new n := by
    intro n hn
    refine onChange_of_not_mem hm' (LogDefines.find_eq_none_iff.mpr fun i hi ↦ ?_) rfl
    rw [List.mem_singleton.mp hi]
    exact hn.symm
  refine ⟨hother "root" (by decide), ?_, fun n hroot hsystem ↦ ?_⟩
  · refine hmade.trans ?_
    show some (loggerOf (lastFormatter _ ([] ++ [systemLogs])) systemDefine) = _
    rw [lastFormatter_of_mem (S := systemLogs) List.mem_cons_self, chosen]
    show some (loggerOf ((ownFormatter "%m%n").getD _) systemDefine) = _
    rw [ownFormatter_of_valid hvalid]
    rfl
  · show m' n = none
    rw [hother n hsystem]
    exact Function.update_of_ne hroot _ _

theorem loads_systemLogs {s : LogConfig} {names : List String}
    (hs : changeAll [.setValue systemLogs] = some s) (hkeys : Keys names s.loggers) :
    Loads emitted loaded names s.loggers := by
  obtain ⟨hroot, hsystem, hnone⟩ := loggers_systemLogs hs
  have hcases : ∀ n l, s.loggers n = some l →
      n = "root" ∧ l = rootLogger ∨
        n = "system" ∧ l = loggerOf (.init "%m%n") systemDefine := by
    intro n l hl
    by_cases hn : n = "root"
    · subst hn
      exact .inl ⟨rfl, Option.some.inj (hl.symm.trans hroot)⟩
    · by_cases hn' : n = "system"
      · subst hn'
        exact .inr ⟨rfl, Option.some.inj (hl.symm.trans hsystem)⟩
      · rw [hnone n hn hn'] at hl
        cases hl
  have hdescribe : (loggerOf (.init "%m%n") systemDefine).describe = systemDefine :=
    describe_loggerOf (parsed_of_readDefines readDefines_logsYaml _ List.mem_cons_self)
      systemDefine_formatters
  have hprint : ∀ n l, s.loggers n = some l → l.Printable := by
    obtain ⟨s', hs', h⟩ := changeAll_kept [.setValue systemLogs]
    obtain rfl := Option.some.inj (hs'.symm.trans hs)
    exact h.printable
  have hloggers : LoadsLoggers emitted loaded s.loggers := by
    have happenders : ∀ n l, s.loggers n = some l →
        ∀ a ∈ l.appenders, loaded (emitted a.toNode) = some a.toNode := by
      intro n l hl a ha
      rcases hcases n l hl with ⟨rfl, rfl⟩ | ⟨rfl, rfl⟩
      · rw [List.mem_singleton.mp ha]
        apply loaded_of_mem
        show (rootConsoleYaml, (LogAppender.new .stdout).toNode) ∈ loadTable
        simp [loadTable]
      · obtain ⟨d, hd, rfl⟩ := List.mem_map.mp ha
        exact emitted_systemLogger hd _
    refine ⟨happenders, fun n l node hl hnode ↦ ?_⟩
    rw [toNode_describe (hprint n l hl) (happenders n l hl)] at hnode
    cases hnode
    apply loaded_of_mem
    rcases hcases n l hl with ⟨rfl, rfl⟩ | ⟨rfl, rfl⟩
    · show (rootLoggerYaml, _) ∈ loadTable
      simp [loadTable]
    · rw [hdescribe]
      show (systemYaml, _) ∈ loadTable
      simp [loadTable]
  refine ⟨hloggers, fun node hnode ↦ ?_⟩
  have hnames : names = ["root", "system"] := by
    refine hkeys.sorted.eq_of_mem_iff (by decide) fun n ↦ ?_
    rw [hkeys.mem]
    constructor
    · intro hn
      obtain ⟨l, hl⟩ := Option.isSome_iff_exists.mp hn
      rcases hcases n l hl with ⟨rfl, -⟩ | ⟨rfl, -⟩ <;> decide
    · intro hn
      simp only [List.mem_cons, List.not_mem_nil, or_false] at hn
      rcases hn with rfl | rfl
      · rw [hroot]
        rfl
      · rw [hsystem]
        rfl
  rw [foldlM_loadLogger hprint hloggers, hnames, LoggerManager.listed, List.filterMap_cons, hroot,
    List.filterMap_cons, hsystem] at hnode
  cases hnode
  apply loaded_of_mem
  show (loggersYaml, Node.seq [_, (loggerOf (.init "%m%n") systemDefine).describe.toNode]) ∈ loadTable
  rw [hdescribe]
  simp [loadTable]

/-- The configuration of one logger, dumped beside the default one. -/
theorem dump_reproduces_system : ∃ s names text T,
    changeAll ([] ++ [.setValue systemLogs]) = some s ∧ Keys names s.loggers ∧
      s.loggers.toYamlString emitted loaded names = some text ∧
      readDefines emitted loaded text = .ok T ∧
      T.filter (fun i ↦ (systemLogs.find i.name).isSome) = [systemDefine] := by
  have hone : ∀ i ∈ systemLogs.defines, i = systemDefine := fun i hi ↦ List.mem_singleton.mp hi
  obtain ⟨s, names, hs, hkeys, hdump⟩ := dump_reproduces [] readDefines_logsYaml
    (fun i hi ↦ by rw [hone i hi]; exact ⟨by decide, by decide +kernel⟩)
    (fun i hi ↦ by rw [hone i hi]; exact systemDefine_formatters)
  obtain ⟨text, T, htext, hread, hfilter⟩ := hdump (loads_systemLogs hs hkeys)
  exact ⟨s, names, text, T, hs, hkeys, htext, hread, hfilter⟩

end Server.Log
