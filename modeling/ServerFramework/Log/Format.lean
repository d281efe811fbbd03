import ServerFramework.Log.Define
import ServerFramework.Log.Grammar

/-!
# Formatting an event

`LogFormatter::format` and the format items.  What the items read from the process besides the event,
the time zone, the locale and an uninitialised buffer, is an `Environment`.  A character stands for one
byte.
-/

namespace Server.Log

structure LogEvent where
  file : String
  line : BitVec 32
  elapse : BitVec 32
  threadId : BitVec 32
  fiberId : BitVec 32
  time : BitVec 64
  threadName : String
  /-- what was written to `m_ss` -/
  content : String
  /-- the name of `m_logger` -/
  loggerName : String
  deriving DecidableEq, Repr

/-- `getTime` returns a `uint32_t`. -/
def LogEvent.getTime (e : LogEvent) : BitVec 32 := e.time.setWidth 32

/-- `struct tm` -/
structure Tm where
  sec : Nat
  min : Nat
  hour : Nat
  mday : Nat
  mon : Nat
  /-- years since 1900 -/
  year : Int
  deriving DecidableEq, Repr

structure Environment where
  /-- `localtime_r` -/
  localtime : BitVec 32 → Tm
  /-- the conversions of `strftime` that depend on the locale or the time zone -/
  conversion : Tm → List Char → List Char
  /-- what an uninitialised buffer prints -/
  garbage : List Char

/-- A decimal number of two digits at least. -/
def twoDigits (n : Nat) : List Char := if n < 10 then '0' :: (Nat.repr n).toList else (Nat.repr n).toList

/-- The conversion specifier `c` of `strftime`. -/
def Environment.convert (env : Environment) (tm : Tm) (c : Char) : List Char :=
  match c with
  | 'Y' => (toString (tm.year + 1900)).toList
  | 'm' => twoDigits (tm.mon + 1)
  | 'd' => twoDigits tm.mday
  | 'H' => twoDigits tm.hour
  | 'M' => twoDigits tm.min
  | 'S' => twoDigits tm.sec
  | c => env.conversion tm [c]

/-- The text that `strftime` makes from its format. -/
def Environment.expand (env : Environment) (tm : Tm) : List Char → List Char
  | '%' :: '%' :: rest => '%' :: env.expand tm rest
  | '%' :: 'E' :: c :: rest => env.conversion tm ['E', c] ++ env.expand tm rest
  | '%' :: 'O' :: c :: rest => env.conversion tm ['O', c] ++ env.expand tm rest
  | '%' :: c :: rest => env.convert tm c ++ env.expand tm rest
  | c :: rest => c :: env.expand tm rest
  | [] => []

/-- `strftime(buf, max, format.c_str(), &tm)`: nothing when text and terminator do not fit. -/
def Environment.strftime (env : Environment) (max : Nat) (format : List Char) (tm : Tm) :
    Option (List Char) :=
  let text := env.expand tm (format.takeWhile (· != '\x00'))
  if text.length < max then some text else none

/-- The constructor of `DateTimeFormatItem`. -/
def dateFormat (format : List Char) : List Char :=
  if format.isEmpty then "%Y-%m-%d %H:%M:%S".toList else format

/-- `DateTimeFormatItem::format`; the result of `strftime` is not looked at. -/
def Environment.dateTime (env : Environment) (format : List Char) (event : LogEvent) : List Char :=
  (env.strftime 64 (dateFormat format) (env.localtime event.getTime)).getD env.garbage

/-- `FormatItem::format`, for each class. -/
def FormatItem.format (env : Environment) (level : Level) (event : LogEvent) : FormatItem → List Char
  | .string str => str
  | .item .message _ => event.content.toList
  | .item .level _ => level.toString.toList
  | .item .elapse _ => (Nat.repr event.elapse.toNat).toList
  | .item .name _ => event.loggerName.toList
  | .item .threadId _ => (Nat.repr event.threadId.toNat).toList
  | .item .newLine _ => ['\n']
  | .item .dateTime fmt => env.dateTime fmt event
  | .item .filename _ => event.file.toList
  | .item .line _ => (toString event.line.toInt).toList
  | .item .tab _ => ['\t']
  | .item .fiberId _ => (Nat.repr event.fiberId.toNat).toList
  | .item .threadName _ => event.threadName.toList

/-- `LogFormatter::format` -/
def LogFormatter.format (f : LogFormatter) (env : Environment) (level : Level) (event : LogEvent) :
    List Char :=
  f.items.flatMap (·.format env level event)

/-! ## The text of a scanned pattern -/

section

variable (env : Environment) (level : Level) (event : LogEvent)

/-- The text of the items of some pieces. -/
def render (vec : List Piece) : List Char :=
  vec.flatMap fun piece ↦ (convert piece).1.format env level event

variable {env level event} {pattern p t nstr : List Char} {vec : List Piece} {i n : Nat}

theorem render_append (v w : List Piece) :
    render env level event (v ++ w) = render env level event v ++ render env level event w :=
  List.flatMap_append

theorem render_flush (nstr : List Char) : render env level event (flush nstr) = nstr := by
  unfold flush render
  split
  · rename_i h
    rw [List.isEmpty_iff.mp h]
    rfl
  · rw [List.flatMap_singleton]
    rfl

theorem format_init (pattern : String) :
    (LogFormatter.init pattern).format env level event =
      render env level event (scan pattern.toList 0 [] [] false).1 := by
  unfold LogFormatter.init LogFormatter.format render
  dsimp only
  rw [List.flatMap_map]

theorem accepted_init {pattern : String} (h : (LogFormatter.init pattern).isError = false) :
    (scan pattern.toList 0 [] [] false).2 = false ∧
      ∀ piece ∈ (scan pattern.toList 0 [] [] false).1, (convert piece).2 = false := by
  obtain ⟨hscan, hgood⟩ := Bool.or_eq_false_iff.mp h
  exact ⟨hscan, fun piece hpiece ↦ Bool.eq_false_iff.mpr (List.any_eq_false.mp hgood piece hpiece)⟩

theorem scan_double {rest : List Char} (h : pattern.drop i = '%' :: '%' :: rest) (nstr : List Char)
    (vec : List Piece) (error : Bool) :
    pattern.drop (i + 1) = '%' :: rest ∧
      scan pattern i nstr vec error = scan pattern (i + 1) (nstr ++ ['%']) vec error := by
  obtain ⟨hn, hpercent, hdrop⟩ := getElem_of_drop h
  have hnext : pattern[i + 1]? = some '%' := by
    rw [← List.head?_drop, hdrop]
    rfl
  refine ⟨hdrop, ?_⟩
  rw [scan, dif_pos hn, hpercent, if_neg (by decide), if_pos hnext]

/-- An accepted pattern in front of a text that does not prolong its last name: the loop runs over it as
it does alone. -/
theorem scan_accepted (env : Environment) (level : Level) (event : LogEvent) {ns : List Char} {vs : List Piece}
    {j : Nat} {error : Bool} (ht : EndsName t) (herr : (scan p i ns vs error).2 = false)
    (hgood : ∀ piece ∈ (scan p i ns vs error).1, (convert piece).2 = false)
    (h : pattern.drop j = p.drop i ++ t) (nstr : List Char) (vec : List Piece) :
    ∃ n nstr' vec' text, pattern.drop n = t ∧
      scan pattern j nstr vec false = scan pattern n nstr' vec' false ∧
      render env level event vec' ++ nstr' = render env level event vec ++ nstr ++ text ∧
      render env level event (scan p i ns vs error).1 = render env level event vs ++ ns ++ text := by
  fun_induction scan p i ns vs error generalizing j nstr vec with
  | case1 i ns vs error hi hne ih =>
      rw [List.drop_eq_getElem_cons hi, List.cons_append] at h
      obtain ⟨hj, hc, hdrop⟩ := getElem_of_drop h
      obtain ⟨n, nstr', vec', text, hn, hscan, hvec, hown⟩ :=
        ih herr hgood hdrop (nstr ++ [p[i]]) vec
      refine ⟨n, nstr', vec', p[i] :: text, hn, ?_, ?_, ?_⟩
      · rw [scan, dif_pos hj, hc, if_pos hne, hscan]
      · rw [hvec, ← List.append_assoc, List.append_assoc _ [p[i]]]
        rfl
      · rw [hown, ← List.append_assoc, List.append_assoc _ [p[i]]]
        rfl
  | case2 i ns vs error hi hpercent hnext ih =>
      obtain ⟨hi', hpercent'⟩ := List.getElem?_eq_some_iff.mp hnext
      rw [bne_iff_ne, not_not] at hpercent
      have htail : p.drop (i + 1) = '%' :: p.drop (i + 1 + 1) := by
        rw [List.drop_eq_getElem_cons hi', hpercent']
      rw [List.drop_eq_getElem_cons hi, hpercent, htail] at h
      obtain ⟨hdrop, hscan₁⟩ := scan_double h nstr vec false
      change pattern.drop (j + 1) = '%' :: p.drop (i + 1 + 1) ++ t at hdrop
      rw [← htail] at hdrop
      obtain ⟨n, nstr', vec', text, hn, hscan, hvec, hown⟩ := ih herr hgood hdrop (nstr ++ ['%']) vec
      refine ⟨n, nstr', vec', '%' :: text, hn, hscan₁.trans hscan, ?_, ?_⟩
      · rw [hvec, ← List.append_assoc, List.append_assoc _ ['%']]
        rfl
      · rw [hown, ← List.append_assoc, List.append_assoc _ ['%']]
        rfl
  | case3 i ns vs error hi hpercent hnext c hc =>
      rename_i ih
      rw [bne_iff_ne, not_not] at hpercent
      rw [List.drop_eq_getElem_cons hi, hpercent] at h
      obtain ⟨cls, hcls⟩ := known_of_convert (hgood _ (mem_scan (List.mem_append_right _
        List.mem_cons_self))) rfl
      -- the directive of `p` is a directive of `pattern`, with the same piece
      have hclosed : c.inBraces = false := by simpa using hc
      obtain ⟨arg, after, hafter, htext, hfits', hfmt⟩ := directive_of_cursor hclosed hcls
      have hfits : (Token.directive cls arg).Fits (after ++ t) := by
        cases arg with
        | none =>
            cases after with
            | nil => exact ht
            | cons d after => exact hfits'
        | some arg => exact hfits'
      have hpiece : (⟨c.str, c.fmt, 1⟩ : Piece) = (Token.directive cls arg).piece := by
        have hstr : c.str = [cls.letter] := hcls
        have hfmt : c.fmt = arg.getD [] := hfmt
        rw [hstr, hfmt]
        rfl
      rw [htext, List.append_assoc] at h
      obtain ⟨j', hj', hscan₁⟩ := scan_directive nstr vec false h hfits
      rw [← hafter] at hj'
      obtain ⟨n, nstr', vec', text, hn, hscan, hvec, hown⟩ := ih herr hgood hj' []
        (vec ++ flush nstr ++ [(Token.directive cls arg).piece])
      refine ⟨n, nstr', vec', render env level event [(Token.directive cls arg).piece] ++ text, hn,
        hscan₁.trans hscan, ?_, ?_⟩
      · rw [hvec, render_append, render_append, render_flush, List.append_nil, List.append_assoc]
      · rw [hown, hpiece, render_append, render_append, render_flush, List.append_nil,
          List.append_assoc]
  | case4 i ns vs error hi hpercent hnext c hc =>
      -- an open brace is an error for good
      rw [scan_error rfl] at herr
      cases herr
  | case5 i ns vs error hi =>
      rw [List.drop_eq_nil_of_le (Nat.not_lt.mp hi)] at h
      refine ⟨j, nstr, vec, [], h, rfl, (List.append_nil _).symm, ?_⟩
      rw [render_append, render_flush, List.append_nil]

end

end Server.Log
