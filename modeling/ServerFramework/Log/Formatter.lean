import Mathlib.Data.List.Basic

/-! The pattern parser `LogFormatter::init`: an index-driven loop with two cursors. -/

namespace Server.Log

/-- `isalpha` in the C locale. -/
def isalpha (c : Char) : Bool := c.isAlpha

/-- `std::string::substr` -/
def substr (s : List Char) (pos len : Nat) : List Char := (s.drop pos).take len

/-- The classes in `s_format_items`. -/
inductive ItemClass where
  | message
  | level
  | elapse
  | name
  | threadId
  | newLine
  | dateTime
  | filename
  | line
  | tab
  | fiberId
  | threadName
  deriving DecidableEq, Repr

inductive FormatItem where
  /-- `StringFormatItem` -/
  | string (str : List Char)
  | item (cls : ItemClass) (fmt : List Char)
  deriving DecidableEq, Repr

def formatItems : List (List Char × ItemClass) :=
  [(['m'], .message), (['p'], .level), (['r'], .elapse), (['c'], .name), (['t'], .threadId),
    (['n'], .newLine), (['d'], .dateTime), (['f'], .filename), (['l'], .line), (['T'], .tab),
    (['F'], .fiberId), (['N'], .threadName)]

/-- An element of `vec`; the type is 1 for `%xxx` and `%xxx{xxx}`. -/
structure Piece where
  str : List Char
  fmt : List Char
  type : Nat
  deriving DecidableEq, Repr

/-- The variables of the inner loop. -/
structure Cursor where
  n : Nat
  /-- `fmt_status == 1` -/
  inBraces : Bool
  fmtBegin : Nat
  str : List Char
  fmt : List Char
  deriving DecidableEq, Repr

/-- The inner loop of `init`, for a `%` at `i`. -/
def scanDirective (pattern : List Char) (i : Nat) (c : Cursor) : Cursor :=
  if h : c.n < pattern.length then
    let ch := pattern[c.n]
    -- the end of the name
    if !c.inBraces && (!isalpha ch && ch != '{' && ch != '}') then
      { c with str := substr pattern (i + 1) (c.n - i - 1) }
    else if !c.inBraces && ch == '{' then
      scanDirective pattern i
        { c with
          str := substr pattern (i + 1) (c.n - i - 1), inBraces := true, fmtBegin := c.n
          n := c.n + 1 }
    else if c.inBraces && ch == '}' then
      { c with
        fmt := substr pattern (c.fmtBegin + 1) (c.n - c.fmtBegin - 1), inBraces := false
        n := c.n + 1 }
    else
      -- a pattern that ends here ends the name too
      scanDirective pattern i
        { c with
          n := c.n + 1
          str := if c.n + 1 == pattern.length && c.str.isEmpty then pattern.drop (i + 1) else c.str }
  else c
termination_by pattern.length - c.n

def Cursor.start (i : Nat) : Cursor := ⟨i + 1, false, 0, [], []⟩

theorem scanDirective_le (pattern : List Char) (i : Nat) (c : Cursor) :
    c.n ≤ (scanDirective pattern i c).n := by
  fun_induction scanDirective pattern i c with
  | case1 => exact Nat.le_refl _
  | case2 c h ch hend hopen ih => exact Nat.le_trans (Nat.le_succ _) ih
  | case3 => exact Nat.le_succ _
  | case4 c h ch hend hopen hclose ih => exact Nat.le_trans (Nat.le_succ _) ih
  | case5 => exact Nat.le_refl _

/-- The raw string collected so far. -/
def flush (nstr : List Char) : List Piece := if nstr.isEmpty then [] else [⟨nstr, [], 0⟩]

/-- The outer loop of `init`: `vec` and `m_error`. -/
def scan (pattern : List Char) (i : Nat) (nstr : List Char) (vec : List Piece) (error : Bool) :
    List Piece × Bool :=
  if h : i < pattern.length then
    if pattern[i] != '%' then scan pattern (i + 1) (nstr ++ [pattern[i]]) vec error
    -- `%%` adds one `%`, and the second one is read again
    else if pattern[i + 1]? = some '%' then scan pattern (i + 1) (nstr ++ ['%']) vec error
    else
      let c := scanDirective pattern i (.start i)
      -- `fmt_status` is 0 when the directive is complete
      if !c.inBraces then
        scan pattern (c.n - 1 + 1) [] (vec ++ flush nstr ++ [⟨c.str, c.fmt, 1⟩]) error
      else
        scan pattern (i + 1) nstr (vec ++ [⟨"<<pattern_error>>".toList, c.fmt, 0⟩]) true
  else (vec ++ flush nstr, error)
termination_by pattern.length - i
decreasing_by
  · omega
  · omega
  · have hn := scanDirective_le pattern i (.start i)
    have hstart : (Cursor.start i).n = i + 1 := rfl
    omega
  · omega

/-- The item of a piece, and whether it is an error. -/
def convert (piece : Piece) : FormatItem × Bool :=
  if piece.type = 0 then (.string piece.str, false)
  else
    match formatItems.lookup piece.str with
    | none => (.string ("<<error_format %".toList ++ piece.str ++ ">>".toList), true)
    | some cls => (.item cls piece.fmt, false)

structure LogFormatter where
  pattern : String
  items : List FormatItem
  error : Bool
  deriving DecidableEq, Repr

/-- `LogFormatter(pattern)`, whose constructor runs `init`. -/
def LogFormatter.init (pattern : String) : LogFormatter :=
  let (vec, error) := scan pattern.toList 0 [] [] false
  ⟨pattern, vec.map fun piece ↦ (convert piece).1, error || vec.any fun piece ↦ (convert piece).2⟩

def LogFormatter.isError (f : LogFormatter) : Bool := f.error

end Server.Log
