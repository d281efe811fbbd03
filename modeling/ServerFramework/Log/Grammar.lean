import ServerFramework.Log.Formatter
import Mathlib.Data.List.Chain

/-!
# The grammar of patterns

What `LogFormatter::init` accepts, and the tokens that it finds.
-/

namespace Server.Log

def ItemClass.letter : ItemClass → Char
  | .message => 'm'
  | .level => 'p'
  | .elapse => 'r'
  | .name => 'c'
  | .threadId => 't'
  | .newLine => 'n'
  | .dateTime => 'd'
  | .filename => 'f'
  | .line => 'l'
  | .tab => 'T'
  | .fiberId => 'F'
  | .threadName => 'N'

inductive Token where
  | literal (text : List Char)
  | directive (cls : ItemClass) (arg : Option (List Char))
  deriving DecidableEq, Repr

namespace Token

def text : Token → List Char
  | .literal text => text
  | .directive cls none => ['%', cls.letter]
  | .directive cls (some arg) => '%' :: cls.letter :: '{' :: (arg ++ ['}'])

def item : Token → FormatItem
  | .literal text => .string text
  | .directive cls arg => .item cls (arg.getD [])

def isLiteral : Token → Bool
  | .literal _ => true
  | .directive .. => false

end Token

/-- What may follow a directive without an argument. -/
def EndsName (rest : List Char) : Prop := ∀ c ∈ rest.head?, isalpha c = false ∧ c ≠ '{' ∧ c ≠ '}'

/-- The token can stand before `rest`. -/
def Token.Fits (rest : List Char) : Token → Prop
  | .literal text => text ≠ [] ∧ '%' ∉ text
  | .directive _ none => EndsName rest
  | .directive _ (some arg) => '}' ∉ arg

/-- The pattern is the concatenation of the tokens. -/
inductive Spells : List Token → List Char → Prop where
  | nil : Spells [] []
  | cons {t : Token} {ts : List Token} {rest : List Char} :
      t.Fits rest → Spells ts rest → Spells (t :: ts) (t.text ++ rest)

/-- No literal run is split. -/
def Maximal (ts : List Token) : Prop := ts.IsChain fun a b ↦ (a.isLiteral && b.isLiteral) = false

/-- Every `%%` lies in a brace argument: a `%`, letters and a `{` stand before it, without a `}`
after the `{`. -/
def PercentsInBraces (pattern : List Char) : Prop :=
  ∀ a b, pattern = a ++ '%' :: '%' :: b → ∃ x name y,
    a = x ++ '%' :: (name ++ '{' :: y) ∧ (∀ c ∈ name, isalpha c = true) ∧ '}' ∉ y

/-! ## The inner loop -/

/-- What the inner loop passes over outside braces. -/
def isName (c : Char) : Bool := isalpha c || c == '}'

variable {pattern name arg rest nstr : List Char} {i n b : Nat} {str fmt : List Char}

/-- `str` when the inner loop reaches `n` outside braces. -/
def strAt (pattern : List Char) (i n : Nat) : List Char :=
  if n = pattern.length then pattern.drop (i + 1) else []

theorem getElem_of_drop {c : Char} (h : pattern.drop n = c :: rest) :
    ∃ hn : n < pattern.length, pattern[n] = c ∧ pattern.drop (n + 1) = rest := by
  have hn : n < pattern.length := by
    by_contra hge
    rw [List.drop_eq_nil_of_le (by omega)] at h
    cases h
  rw [List.drop_eq_getElem_cons hn] at h
  cases h
  exact ⟨hn, rfl, rfl⟩

/-- The loop runs over a name. -/
theorem scanDirective_name (hin : i < n) (h : pattern.drop n = name ++ rest)
    (hname : ∀ c ∈ name, isName c = true) :
    scanDirective pattern i ⟨n, false, b, strAt pattern i n, fmt⟩ =
      scanDirective pattern i
        ⟨n + name.length, false, b, strAt pattern i (n + name.length), fmt⟩ := by
  induction name generalizing n with
  | nil => rfl
  | cons c cs ih =>
      obtain ⟨hn, hc, hdrop⟩ := getElem_of_drop h
      have hcname := hname c List.mem_cons_self
      have hopen : c ≠ '{' := by
        rintro rfl
        cases hcname
      have hstr : strAt pattern i n = [] := if_neg (Nat.ne_of_lt hn)
      have hend : (!isalpha c && c != '{' && c != '}') = false := by
        unfold isName at hcname
        cases hal : isalpha c
        · rw [hal, Bool.false_or, beq_iff_eq] at hcname
          rw [hcname]
          rfl
        · rfl
      rw [scanDirective, dif_pos hn]
      dsimp only
      rw [hc, hend, Bool.and_false, if_neg Bool.false_ne_true, beq_eq_false_iff_ne.mpr hopen,
        Bool.and_false, if_neg Bool.false_ne_true, Bool.false_and, if_neg Bool.false_ne_true, hstr]
      have hnext := ih (n := n + 1) (Nat.lt_succ_of_lt hin) hdrop
        fun c hc ↦ hname c (List.mem_cons_of_mem _ hc)
      rw [List.length_cons, Nat.add_comm cs.length 1, ← Nat.add_assoc, ← hnext]
      unfold strAt
      simp only [List.isEmpty_nil, Bool.and_true, beq_iff_eq]

/-- The loop runs over an argument, and its closing brace ends it. -/
theorem scanDirective_arg (h : pattern.drop n = arg ++ '}' :: rest) (harg : '}' ∉ arg) :
    scanDirective pattern i ⟨n, true, b, str, fmt⟩ =
      ⟨n + arg.length + 1, false, b, str, substr pattern (b + 1) (n + arg.length - b - 1)⟩ := by
  induction arg generalizing n with
  | nil =>
      obtain ⟨hn, hc, -⟩ := getElem_of_drop h
      rw [scanDirective, dif_pos hn]
      dsimp only
      rw [hc]
      rfl
  | cons c cs ih =>
      obtain ⟨hn, hc, hdrop⟩ := getElem_of_drop h
      have hclose : c ≠ '}' := by
        rintro rfl
        exact harg List.mem_cons_self
      -- the brace is still to come, so this is not the end of the pattern
      have hlen : n + 1 ≠ pattern.length := by
        intro heq
        rw [heq, List.drop_length] at hdrop
        exact List.append_ne_nil_of_right_ne_nil _ (List.cons_ne_nil _ _) hdrop.symm
      rw [scanDirective, dif_pos hn]
      dsimp only
      rw [hc, beq_eq_false_iff_ne.mpr hclose, beq_eq_false_iff_ne.mpr hlen]
      rw [List.length_cons, Nat.add_comm cs.length 1, ← Nat.add_assoc,
        ← ih hdrop fun hmem ↦ harg (List.mem_cons_of_mem _ hmem)]
      rfl

/-- Without a closing brace the loop stays in braces. -/
theorem scanDirective_open (c : Cursor) (hc : c.inBraces = true) (h : '}' ∉ pattern.drop c.n) :
    (scanDirective pattern i c).inBraces = true := by
  fun_induction scanDirective pattern i c with
  | case1 c _ _ hend => rw [hc] at hend; cases hend
  | case2 c _ _ _ hopen => rw [hc] at hopen; cases hopen
  | case3 c hn ch _ _ hclose =>
      rw [Bool.and_eq_true, beq_iff_eq] at hclose
      rw [List.drop_eq_getElem_cons hn] at h
      exact absurd (hclose.2 ▸ List.mem_cons_self) h
  | case4 c hn ch _ _ _ ih =>
      rw [List.drop_eq_getElem_cons hn] at h
      exact ih hc fun hmem ↦ h (List.mem_cons_of_mem _ hmem)
  | case5 => exact hc

theorem start_eq (pattern : List Char) (i : Nat) :
    Cursor.start i = ⟨i + 1, false, 0, strAt pattern i (i + 1), []⟩ := by
  unfold Cursor.start strAt
  split
  · rename_i heq
    rw [heq, List.drop_length]
  · rfl

theorem substr_name (h : pattern.drop n = name ++ rest) :
    substr pattern n name.length = name := by
  unfold substr
  rw [h, List.take_left]

/-- A name that neither a brace nor a letter follows. -/
theorem scanDirective_bare (h : pattern.drop (i + 1) = name ++ rest)
    (hname : ∀ c ∈ name, isName c = true) (hrest : EndsName rest) :
    scanDirective pattern i (.start i) = ⟨i + 1 + name.length, false, 0, name, []⟩ := by
  rw [start_eq pattern, scanDirective_name (Nat.lt_succ_self i) h hname]
  have hdrop : pattern.drop (i + 1 + name.length) = rest := by
    rw [← List.drop_drop, h, List.drop_left]
  cases rest with
  | nil =>
      have hlen := congrArg List.length h
      rw [List.length_drop, List.append_nil] at hlen
      -- the name ends with the pattern
      have hstr : strAt pattern i (i + 1 + name.length) = name := by
        unfold strAt
        split
        · rw [h, List.append_nil]
        · exact (List.eq_nil_of_length_eq_zero (by omega)).symm
      rw [scanDirective, dif_neg (by dsimp only; omega), hstr]
  | cons c cs =>
      obtain ⟨hn, hc, -⟩ := getElem_of_drop hdrop
      obtain ⟨halpha, hopen, hclose⟩ := hrest c rfl
      have hlen : i + 1 + name.length - i - 1 = name.length := by omega
      rw [scanDirective, dif_pos hn]
      dsimp only
      rw [hc, halpha, bne_iff_ne.mpr hopen, bne_iff_ne.mpr hclose, hlen, substr_name h]
      rfl

/-- At a brace behind a name the loop starts on the argument. -/
theorem scanDirective_brace (h : pattern.drop (i + 1) = name ++ '{' :: rest)
    (hname : ∀ c ∈ name, isName c = true) :
    pattern.drop (i + 1 + name.length + 1) = rest ∧
      scanDirective pattern i (.start i) = scanDirective pattern i
        ⟨i + 1 + name.length + 1, true, i + 1 + name.length, name, []⟩ := by
  rw [start_eq pattern, scanDirective_name (Nat.lt_succ_self i) h hname]
  have hdrop : pattern.drop (i + 1 + name.length) = '{' :: rest := by
    rw [← List.drop_drop, h, List.drop_left]
  obtain ⟨hn, hc, hdrop'⟩ := getElem_of_drop hdrop
  have hlen : i + 1 + name.length - i - 1 = name.length := by omega
  refine ⟨hdrop', ?_⟩
  rw [scanDirective, dif_pos hn]
  dsimp only
  rw [hc, hlen, substr_name h]
  rfl

/-- A name and an argument in braces. -/
theorem scanDirective_closed (h : pattern.drop (i + 1) = name ++ '{' :: (arg ++ '}' :: rest))
    (hname : ∀ c ∈ name, isName c = true) (harg : '}' ∉ arg) :
    scanDirective pattern i (.start i) =
      ⟨i + 1 + name.length + 1 + arg.length + 1, false, i + 1 + name.length, name, arg⟩ := by
  obtain ⟨hdrop, heq⟩ := scanDirective_brace h hname
  have hlen : i + 1 + name.length + 1 + arg.length - (i + 1 + name.length) - 1 = arg.length := by
    omega
  rw [heq, scanDirective_arg hdrop harg, hlen, substr_name hdrop]

/-- A name and a brace that is never closed. -/
theorem scanDirective_unclosed (h : pattern.drop (i + 1) = name ++ '{' :: arg)
    (hname : ∀ c ∈ name, isName c = true) (harg : '}' ∉ arg) :
    (scanDirective pattern i (.start i)).inBraces = true := by
  obtain ⟨hdrop, heq⟩ := scanDirective_brace h hname
  rw [heq]
  exact scanDirective_open _ rfl (hdrop ▸ harg)

/-- What follows a `%` is one of three things. -/
inductive Follows (rest : List Char) : Prop where
  | bare (name after : List Char) :
      rest = name ++ after → (∀ c ∈ name, isName c = true) → EndsName after → Follows rest
  | closed (name arg after : List Char) :
      rest = name ++ '{' :: (arg ++ '}' :: after) → (∀ c ∈ name, isName c = true) → '}' ∉ arg →
      Follows rest
  | unclosed (name arg : List Char) :
      rest = name ++ '{' :: arg → (∀ c ∈ name, isName c = true) → '}' ∉ arg → Follows rest

theorem follows (rest : List Char) : Follows rest := by
  induction rest with
  | nil => exact .bare [] [] rfl nofun nofun
  | cons c cs ih =>
      -- a character of the name, the brace that opens an argument, or the end
      by_cases hname : isName c = true
      · have hcons : ∀ {name : List Char}, (∀ c ∈ name, isName c = true) →
            ∀ x ∈ c :: name, isName x = true :=
          fun hall x hx ↦ (List.mem_cons.mp hx).elim (fun heq ↦ heq ▸ hname) (hall x)
        cases ih with
        | bare name after h hall hend => exact .bare (c :: name) after (h ▸ rfl) (hcons hall) hend
        | closed name arg after h hall harg =>
            exact .closed (c :: name) arg after (h ▸ rfl) (hcons hall) harg
        | unclosed name arg h hall harg =>
            exact .unclosed (c :: name) arg (h ▸ rfl) (hcons hall) harg
      · by_cases hopen : c = '{'
        · subst hopen
          by_cases hmem : '}' ∈ cs
          · obtain ⟨arg, after, hcs, harg⟩ := List.eq_append_cons_of_mem hmem
            exact .closed [] arg after (hcs ▸ rfl) nofun harg
          · exact .unclosed [] cs rfl nofun hmem
        · refine .bare [] (c :: cs) rfl nofun fun x hx ↦ ?_
          cases hx
          unfold isName at hname
          rw [Bool.or_eq_true, not_or, Bool.not_eq_true, beq_iff_eq] at hname
          exact ⟨hname.1, hopen, hname.2⟩

/-! ## The outer loop -/

variable {vec : List Piece} {error : Bool} {ts : List Token}

def Token.piece : Token → Piece
  | .literal text => ⟨text, [], 0⟩
  | .directive cls arg => ⟨[cls.letter], arg.getD [], 1⟩

theorem letter_isalpha (cls : ItemClass) : isalpha cls.letter = true := by cases cls <;> rfl

theorem lookup_letter (cls : ItemClass) : formatItems.lookup [cls.letter] = some cls := by
  cases cls <;> rfl

theorem eq_letter_of_lookup {cls : ItemClass} (h : formatItems.lookup name = some cls) :
    name = [cls.letter] := by
  obtain ⟨l₁, l₂, heq, -⟩ := List.lookup_eq_some_iff.mp h
  have hmem : (name, cls) ∈ formatItems := by
    rw [heq]
    exact List.mem_append_right _ List.mem_cons_self
  unfold formatItems at hmem
  simp only [List.mem_cons, Prod.mk.injEq, List.not_mem_nil, or_false] at hmem
  rcases hmem with h | h | h | h | h | h | h | h | h | h | h | h <;>
  · obtain ⟨rfl, rfl⟩ := h
    rfl

theorem convert_piece (t : Token) : convert t.piece = (t.item, false) := by
  cases t with
  | literal => rfl
  | directive cls arg =>
      unfold convert Token.piece
      rw [if_neg Nat.one_ne_zero, lookup_letter]
      rfl

theorem scan_literal {text : List Char} (h : pattern.drop i = text ++ rest) (htext : '%' ∉ text) :
    scan pattern i nstr vec error = scan pattern (i + text.length) (nstr ++ text) vec error := by
  induction text generalizing i nstr with
  | nil => rw [List.append_nil, List.length_nil, Nat.add_zero]
  | cons c cs ih =>
      obtain ⟨hn, hc, hdrop⟩ := getElem_of_drop h
      have hne : c ≠ '%' := by
        rintro rfl
        exact htext List.mem_cons_self
      rw [scan, dif_pos hn, hc, if_pos (bne_iff_ne.mpr hne),
        ih hdrop fun hmem ↦ htext (List.mem_cons_of_mem _ hmem), List.append_assoc,
        List.length_cons, Nat.add_comm cs.length 1, ← Nat.add_assoc]
      rfl

/-- At a `%` that starts a directive. -/
theorem scan_percent (h : pattern.drop i = '%' :: rest) (hrest : rest.head? ≠ some '%')
    (hc : scanDirective pattern i (.start i) = ⟨n + 1, false, b, str, fmt⟩) :
    scan pattern i nstr vec error =
      scan pattern (n + 1) [] (vec ++ flush nstr ++ [⟨str, fmt, 1⟩]) error := by
  obtain ⟨hn, hpercent, hdrop⟩ := getElem_of_drop h
  have hhead : pattern[i + 1]? ≠ some '%' := by
    rw [← List.head?_drop, hdrop]
    exact hrest
  rw [scan, dif_pos hn, hpercent, if_neg (by decide), if_neg hhead]
  dsimp only
  rw [hc, if_pos (by rfl)]
  rfl

/-- A name with a brace behind it does not start with a `%`. -/
theorem head_of_name (hname : ∀ c ∈ name, isName c = true) : (name ++ '{' :: rest).head? ≠ some '%' := by
  cases name with
  | nil => nofun
  | cons c name =>
      intro heq
      have hc := hname c List.mem_cons_self
      rw [Option.some.inj heq] at hc
      cases hc

/-- At a `%` behind which a brace is not closed: the index stays, and so does the raw string. -/
theorem scan_open (nstr : List Char) (vec : List Piece) (error : Bool)
    (h : pattern.drop i = '%' :: rest) (hrest : rest.head? ≠ some '%')
    (hc : (scanDirective pattern i (.start i)).inBraces = true) :
    ∃ fmt, scan pattern i nstr vec error =
      scan pattern (i + 1) nstr (vec ++ [⟨"<<pattern_error>>".toList, fmt, 0⟩]) true := by
  obtain ⟨hn, hpercent, hdrop⟩ := getElem_of_drop h
  have hhead : pattern[i + 1]? ≠ some '%' := by
    rw [← List.head?_drop, hdrop]
    exact hrest
  refine ⟨(scanDirective pattern i (.start i)).fmt, ?_⟩
  rw [scan, dif_pos hn, hpercent, if_neg (by decide), if_neg hhead]
  dsimp only
  rw [hc, if_neg (by decide)]

/-- The loop takes a name without an argument. -/
theorem scan_bare (nstr : List Char) (vec : List Piece) (error : Bool)
    (h : pattern.drop i = '%' :: (name ++ rest)) (hname : ∀ c ∈ name, isName c = true)
    (hhead : (name ++ rest).head? ≠ some '%') (hrest : EndsName rest) :
    ∃ n, pattern.drop n = rest ∧ scan pattern i nstr vec error =
      scan pattern n [] (vec ++ flush nstr ++ [⟨name, [], 1⟩]) error := by
  have hdrop : pattern.drop (i + 1) = name ++ rest := (getElem_of_drop h).2.2
  have hcur := scanDirective_bare hdrop hname hrest
  rw [show i + 1 + name.length = i + name.length + 1 by omega] at hcur
  refine ⟨i + name.length + 1, ?_, scan_percent h hhead hcur⟩
  rw [show i + name.length + 1 = i + 1 + name.length by omega, ← List.drop_drop, hdrop,
    List.drop_left]

/-- The loop takes a name and its argument. -/
theorem scan_closed (nstr : List Char) (vec : List Piece) (error : Bool)
    (h : pattern.drop i = '%' :: (name ++ '{' :: (arg ++ '}' :: rest)))
    (hname : ∀ c ∈ name, isName c = true) (harg : '}' ∉ arg) :
    ∃ n, pattern.drop n = rest ∧ scan pattern i nstr vec error =
      scan pattern n [] (vec ++ flush nstr ++ [⟨name, arg, 1⟩]) error := by
  have hdrop : pattern.drop (i + 1) = name ++ '{' :: (arg ++ '}' :: rest) := (getElem_of_drop h).2.2
  refine ⟨i + 1 + name.length + 1 + arg.length + 1, ?_,
    scan_percent h (head_of_name hname) (scanDirective_closed hdrop hname harg)⟩
  rw [← List.drop_drop, ← List.drop_drop, (scanDirective_brace hdrop hname).1, List.drop_left]
  rfl

theorem letter_isName {cls : ItemClass} : ∀ c ∈ [cls.letter], isName c = true := by
  intro c hc
  rw [List.mem_singleton.mp hc]
  unfold isName
  rw [letter_isalpha]
  rfl

theorem text_some {cls : ItemClass} :
    (Token.directive cls (some arg)).text ++ rest =
      '%' :: ([cls.letter] ++ '{' :: (arg ++ '}' :: rest)) := by
  show '%' :: cls.letter :: '{' :: ((arg ++ ['}']) ++ rest) = _
  rw [List.append_assoc]
  rfl

/-- What the inner loop has read when it is through with a directive of a known name. -/
theorem directive_of_cursor {cls : ItemClass}
    (hclosed : (scanDirective pattern i (.start i)).inBraces = false)
    (hstr : (scanDirective pattern i (.start i)).str = [cls.letter]) :
    ∃ arg after, pattern.drop ((scanDirective pattern i (.start i)).n - 1 + 1) = after ∧
      '%' :: pattern.drop (i + 1) = (Token.directive cls arg).text ++ after ∧
      (Token.directive cls arg).Fits after ∧
      (scanDirective pattern i (.start i)).fmt = arg.getD [] := by
  rcases follows (pattern.drop (i + 1)) with
    ⟨name, after, h, hname, hend⟩ | ⟨name, arg, after, h, hname, harg⟩ | ⟨name, arg, h, hname, harg⟩
  · rw [scanDirective_bare h hname hend] at hstr ⊢
    obtain rfl : name = [cls.letter] := hstr
    refine ⟨none, after, ?_, by rw [h]; rfl, hend, rfl⟩
    show pattern.drop (i + 1 + 1) = after
    rw [← List.drop_drop, h]
    rfl
  · rw [scanDirective_closed h hname harg] at hstr ⊢
    obtain rfl : name = [cls.letter] := hstr
    refine ⟨some arg, after, ?_, by rw [h, text_some], harg, rfl⟩
    have hbrace : pattern.drop (i + 1 + 1 + 1) = arg ++ '}' :: after := (scanDirective_brace h hname).1
    show pattern.drop (i + 1 + 1 + 1 + arg.length + 1) = after
    rw [← List.drop_drop, ← List.drop_drop, hbrace, List.drop_left]
    rfl
  · rw [scanDirective_unclosed h hname harg] at hclosed
    cases hclosed

/-- The loop takes a directive. -/
theorem scan_directive {cls : ItemClass} {arg : Option (List Char)} (nstr : List Char)
    (vec : List Piece) (error : Bool)
    (h : pattern.drop i = (Token.directive cls arg).text ++ rest)
    (hfits : (Token.directive cls arg).Fits rest) :
    ∃ n, pattern.drop n = rest ∧ scan pattern i nstr vec error =
      scan pattern n [] (vec ++ flush nstr ++ [(Token.directive cls arg).piece]) error := by
  cases arg with
  | none =>
      have hhead : (cls.letter :: rest).head? ≠ some '%' := by
        intro heq
        cases cls <;> cases heq
      exact scan_bare nstr vec error h letter_isName hhead hfits
  | some arg =>
      rw [text_some] at h
      exact scan_closed nstr vec error h letter_isName hfits

/-- At the end of the pattern the literal run is flushed. -/
theorem scan_end (h : pattern.drop i = []) :
    scan pattern i nstr vec error = (vec ++ flush nstr, error) := by
  rw [scan, dif_neg (Nat.not_lt.mpr (List.drop_eq_nil_iff.mp h))]

theorem flush_of_ne_nil (h : nstr ≠ []) : flush nstr = [⟨nstr, [], 0⟩] :=
  if_neg (by rwa [List.isEmpty_iff])

/-- The loop finds the tokens that spell the rest of the pattern. -/
theorem scan_spells (hts : Spells ts rest) (hmax : Maximal ts) (h : pattern.drop i = rest)
    (hhead : nstr ≠ [] → ∀ t ∈ ts.head?, t.isLiteral = false) :
    scan pattern i nstr vec error = (vec ++ flush nstr ++ ts.map Token.piece, error) := by
  induction hts generalizing i nstr vec with
  | nil =>
      rw [scan_end h, List.map_nil, List.append_nil]
  | @cons t ts rest hfits _ ih =>
      obtain ⟨hnext, hmax'⟩ := List.isChain_cons.mp hmax
      cases t with
      | literal text =>
          change pattern.drop i = text ++ rest at h
          -- literal runs are maximal, so none is under way here
          have hnil : nstr = [] := by
            by_contra hne
            exact absurd (hhead hne _ rfl) nofun
          have hdrop : pattern.drop (i + text.length) = rest := by
            rw [← List.drop_drop, h, List.drop_left]
          rw [hnil, scan_literal h hfits.2, ih hmax' hdrop fun _ ↦ hnext, List.nil_append,
            flush_of_ne_nil hfits.1, List.append_assoc, List.append_assoc]
          rfl
      | directive cls arg =>
          obtain ⟨n, hdrop, heq⟩ := scan_directive nstr vec error h hfits
          rw [heq, ih hmax' hdrop fun hcon ↦ absurd rfl hcon, List.append_assoc _ (flush [])]
          exact congrArg (·, error) (List.append_assoc _ _ _)

/-! ## What the loop accepts -/

/-- The condition on `%%` passes from a pattern to what follows `u`, if no argument that is open at
the end of `u` starts in it. -/
theorem PercentsInBraces.drop {u : List Char} (h : PercentsInBraces (u ++ rest))
    (hu : ∀ a b x c name y, rest = a ++ '%' :: '%' :: b → u = x ++ c → c ≠ [] →
      '%' :: (name ++ '{' :: y) = c ++ a → (∀ c ∈ name, isalpha c = true) → '}' ∉ y → False) :
    PercentsInBraces rest := by
  intro a b hab
  obtain ⟨x, name, y, hx, hname, hy⟩ := h (u ++ a) b (by rw [hab, List.append_assoc])
  -- the argument around the `%%` starts in `rest`, or in `u`
  rcases List.append_eq_append_iff.mp hx with ⟨c, rfl, hc⟩ | ⟨c, hc, hc'⟩
  · exact ⟨c, name, y, hc, hname, hy⟩
  · by_cases hnil : c = []
    · subst hnil
      exact ⟨[], name, y, hc'.symm, hname, hy⟩
    · exact (hu a b x c name y hab hc hnil hc' hname hy).elim

theorem PercentsInBraces.tail {c : Char} (h : PercentsInBraces (c :: rest)) (hc : c ≠ '%') :
    PercentsInBraces rest := by
  apply PercentsInBraces.drop (u := [c]) h
  intro a b x u name y _ hu hne heq _ _
  rcases List.singleton_eq_append_iff.mp hu with ⟨-, rfl⟩ | ⟨-, rfl⟩
  · exact hc (List.cons.inj heq).1.symm
  · exact hne rfl

/-- An argument-less directive opens no argument. -/
theorem PercentsInBraces.bare {c : Char} (h : PercentsInBraces ('%' :: c :: rest))
    (hc : isalpha c = true) (hrest : EndsName rest) : PercentsInBraces rest := by
  apply PercentsInBraces.drop (u := ['%', c]) h
  intro a b x u name y hab hu hne heq hname _
  -- an argument that starts at this `%` would put its brace behind the letter
  match x with
  | [] =>
      obtain rfl : ['%', c] = u := hu
      have hname' : name ++ '{' :: y = c :: a := (List.cons.inj heq).2
      match name with
      | [] =>
          rw [← (List.cons.inj hname').1] at hc
          cases hc
      | [d] =>
          rw [hab, ← (List.cons.inj hname').2] at hrest
          exact (hrest '{' rfl).2.1 rfl
      | d :: e :: name' =>
          rw [hab, ← (List.cons.inj hname').2] at hrest
          have halpha := hname e (List.mem_cons_of_mem _ List.mem_cons_self)
          rw [(hrest e rfl).1] at halpha
          cases halpha
  | [_] =>
      obtain rfl : [c] = u := (List.cons.inj hu).2
      rw [← (List.cons.inj heq).1] at hc
      cases hc
  | _ :: _ :: x' =>
      have hnil : [] = x' ++ u := (List.cons.inj (List.cons.inj hu).2).2
      exact hne (List.append_eq_nil_iff.mp hnil.symm).2

/-- Nor does a directive whose argument is closed. -/
theorem PercentsInBraces.closed {c : Char}
    (h : PercentsInBraces ('%' :: c :: '{' :: (arg ++ '}' :: rest))) : PercentsInBraces rest := by
  have happ : '%' :: c :: '{' :: (arg ++ '}' :: rest) =
      ('%' :: c :: '{' :: arg ++ ['}']) ++ rest := by
    rw [List.append_assoc]
    rfl
  rw [happ] at h
  apply h.drop
  intro a b x u name y _ hu hne heq hname hy
  -- the closing brace would stand in the name or in the argument
  have hmem : '}' ∈ u := by
    rcases List.eq_nil_or_concat' u with rfl | ⟨v, d, rfl⟩
    · exact absurd rfl hne
    · rw [← List.append_assoc] at hu
      rw [← List.append_inj_right' hu rfl]
      exact List.mem_append_right _ List.mem_cons_self
  have hmem' : '}' ∈ '%' :: (name ++ '{' :: y) := heq ▸ List.mem_append_left a hmem
  rw [List.mem_cons, List.mem_append, List.mem_cons] at hmem'
  rcases hmem' with hpercent | hletter | hopen | hin
  · cases hpercent
  · cases hname _ hletter
  · cases hopen
  · exact hy hin

theorem scan_error (herr : error = true) : (scan pattern i nstr vec error).2 = true := by
  fun_induction scan pattern i nstr vec error with
  | case1 _ _ _ _ _ _ ih | case2 _ _ _ _ _ _ _ ih | case3 _ _ _ _ _ _ _ _ _ ih => exact ih herr
  | case4 _ _ _ _ _ _ _ _ _ ih => exact ih rfl
  | case5 => exact herr

/-- What has been found stays in front. -/
theorem scan_prefix (pattern : List Char) (i : Nat) (nstr : List Char) (vec : List Piece)
    (error : Bool) : ∃ after, (scan pattern i nstr vec error).1 = vec ++ after := by
  fun_induction scan pattern i nstr vec error with
  | case1 _ _ _ _ _ _ ih | case2 _ _ _ _ _ _ _ ih => exact ih
  | case3 _ _ _ _ _ _ _ _ _ ih =>
      obtain ⟨after, hafter⟩ := ih
      rw [hafter, List.append_assoc, List.append_assoc]
      exact ⟨_, rfl⟩
  | case4 _ _ _ _ _ _ _ _ _ ih =>
      obtain ⟨after, hafter⟩ := ih
      rw [hafter, List.append_assoc]
      exact ⟨_, rfl⟩
  | case5 => exact ⟨_, rfl⟩

theorem mem_scan {piece : Piece} (h : piece ∈ vec) :
    piece ∈ (scan pattern i nstr vec error).1 := by
  obtain ⟨after, hafter⟩ := scan_prefix pattern i nstr vec error
  rw [hafter]
  exact List.mem_append_left _ h

/-- A literal run in front of tokens that start with a directive. -/
theorem Spells.literal (h : Spells ts rest) (hmax : Maximal ts) (hnstr : '%' ∉ nstr)
    (hhead : ∀ t ∈ ts.head?, t.isLiteral = false) :
    ∃ ts', Spells ts' (nstr ++ rest) ∧ Maximal ts' := by
  by_cases hnil : nstr = []
  · subst hnil
    exact ⟨ts, h, hmax⟩
  · exact ⟨.literal nstr :: ts, .cons (t := .literal nstr) ⟨hnil, hnstr⟩ h,
      List.isChain_cons.mpr ⟨fun t ht ↦ by rw [hhead t ht, Bool.and_false], hmax⟩⟩

/-- A literal run, a directive, and what follows. -/
theorem Spells.directive {cls : ItemClass} {arg : Option (List Char)} (h : Spells ts rest)
    (hmax : Maximal ts) (hfits : (Token.directive cls arg).Fits rest) (hnstr : '%' ∉ nstr) :
    ∃ ts', Spells ts' (nstr ++ ((Token.directive cls arg).text ++ rest)) ∧ Maximal ts' := by
  have hspells : Spells (.directive cls arg :: ts) ((Token.directive cls arg).text ++ rest) :=
    .cons hfits h
  apply hspells.literal (List.isChain_cons.mpr ⟨fun _ _ ↦ rfl, hmax⟩) hnstr
  intro t ht
  cases ht
  rfl

theorem known_of_convert {piece : Piece} (h : (convert piece).2 = false) (htype : piece.type = 1) :
    ∃ cls : ItemClass, piece.str = [cls.letter] := by
  unfold convert at h
  rw [htype, if_neg Nat.one_ne_zero] at h
  split at h
  · cases h
  · rename_i cls hcls
    exact ⟨cls, eq_letter_of_lookup hcls⟩

/-- Where the loop reports no error there are tokens that spell what it has read. -/
theorem spells_of_scan (hnstr : '%' ∉ nstr) (hdom : PercentsInBraces (pattern.drop i))
    (herr : (scan pattern i nstr vec error).2 = false)
    (hgood : ∀ piece ∈ (scan pattern i nstr vec error).1, (convert piece).2 = false) :
    ∃ ts, Spells ts (nstr ++ pattern.drop i) ∧ Maximal ts := by
  fun_induction scan pattern i nstr vec error with
  | case1 i nstr vec error hn hne ih =>
      rw [bne_iff_ne] at hne
      rw [List.drop_eq_getElem_cons hn] at hdom ⊢
      have hnstr' : '%' ∉ nstr ++ [pattern[i]] := by
        rw [List.mem_append, List.mem_singleton]
        exact fun h ↦ h.elim hnstr fun heq ↦ hne heq.symm
      obtain ⟨ts, hts, hmax⟩ := ih hnstr' (hdom.tail hne) herr hgood
      rw [List.append_assoc] at hts
      exact ⟨ts, hts, hmax⟩
  | case2 i nstr vec error hn hpercent hnext ih =>
      -- a `%%` at the cursor has nothing before it
      obtain ⟨hn', hpercent'⟩ := List.getElem?_eq_some_iff.mp hnext
      rw [bne_iff_ne, not_not] at hpercent
      rw [List.drop_eq_getElem_cons hn, List.drop_eq_getElem_cons hn', hpercent, hpercent'] at hdom
      obtain ⟨x, name, y, hx, -⟩ := hdom [] _ rfl
      exact absurd hx.symm (List.append_ne_nil_of_right_ne_nil _ (List.cons_ne_nil _ _))
  | case3 i nstr vec error hn hpercent hnext c hc ih =>
      rw [bne_iff_ne, not_not] at hpercent
      rw [List.drop_eq_getElem_cons hn, hpercent] at hdom ⊢
      -- the piece of this directive stays in `vec`, so its name is a known letter
      obtain ⟨cls, hcls⟩ := known_of_convert (hgood _ (mem_scan (List.mem_append_right _
        List.mem_cons_self))) rfl
      have hclosed : c.inBraces = false := by simpa using hc
      obtain ⟨arg, after, hdrop, htext, hfits, -⟩ := directive_of_cursor hclosed hcls
      rw [htext] at hdom ⊢
      rw [hdrop] at ih
      have hdom' : PercentsInBraces after := by
        cases arg with
        | none => exact hdom.bare (letter_isalpha cls) hfits
        | some arg =>
            rw [text_some] at hdom
            exact hdom.closed
      obtain ⟨ts, hts, hmax⟩ := ih nofun hdom' herr hgood
      exact hts.directive hmax hfits hnstr
  | case4 i nstr vec error hn hpercent hnext c hc ih =>
      -- an open brace is an error for good
      rw [scan_error rfl] at herr
      cases herr
  | case5 i nstr vec error hn =>
      rw [List.drop_eq_nil_of_le (Nat.not_lt.mp hn)]
      exact Spells.literal .nil List.isChain_nil hnstr nofun

/-- Joins a literal run to the tokens after it. -/
theorem Spells.merge {text : List Char} (h : Spells ts rest) (hmax : Maximal ts)
    (htext : '%' ∉ text) : ∃ ts', Spells ts' (text ++ rest) ∧ Maximal ts' := by
  cases h with
  | nil => exact Spells.literal .nil hmax htext nofun
  | @cons t ts rest hfits hts =>
      cases t with
      | literal text' =>
          obtain ⟨hnext, hmax'⟩ := List.isChain_cons.mp hmax
          have hnone : '%' ∉ text ++ text' := by
            rw [List.mem_append]
            exact fun hmem ↦ hmem.elim htext hfits.2
          obtain ⟨ts', hts', hm⟩ := hts.literal hmax' hnone hnext
          rw [List.append_assoc] at hts'
          exact ⟨ts', hts', hm⟩
      | directive cls arg =>
          apply Spells.literal (.cons hfits hts) hmax htext
          intro t ht
          cases ht
          rfl

/-- Split literal runs can be joined. -/
theorem Spells.maximal (h : Spells ts rest) : ∃ ts', Spells ts' rest ∧ Maximal ts' := by
  induction h with
  | nil => exact ⟨[], .nil, List.isChain_nil⟩
  | @cons t ts rest hfits _ ih =>
      obtain ⟨ts', hts', hmax⟩ := ih
      cases t with
      | literal text => exact hts'.merge hmax hfits.2
      | directive cls arg =>
          exact hts'.directive hmax hfits (List.not_mem_nil (a := '%'))

theorem init_spells {pattern : String} (h : Spells ts pattern.toList) (hmax : Maximal ts) :
    (LogFormatter.init pattern).isError = false ∧
      (LogFormatter.init pattern).items = ts.map Token.item := by
  have hscan : scan pattern.toList 0 [] [] false = (ts.map Token.piece, false) :=
    scan_spells h hmax rfl fun hcon ↦ absurd rfl hcon
  unfold LogFormatter.init LogFormatter.isError
  rw [hscan]
  dsimp only
  constructor
  · rw [Bool.false_or, List.any_eq_false]
    intro piece hpiece
    obtain ⟨t, -, rfl⟩ := List.mem_map.mp hpiece
    rw [convert_piece]
    nofun
  · rw [List.map_map]
    exact List.map_congr_left fun t _ ↦ congrArg Prod.fst (convert_piece t)

/-- Tokens spell an accepted pattern. -/
theorem spells_of_init {pattern : String} (h : PercentsInBraces pattern.toList)
    (herr : (LogFormatter.init pattern).isError = false) :
    ∃ ts, Spells ts pattern.toList ∧ Maximal ts := by
  unfold LogFormatter.init LogFormatter.isError at herr
  obtain ⟨hscan, hgood⟩ := Bool.or_eq_false_iff.mp herr
  have hgood' : ∀ piece ∈ (scan pattern.toList 0 [] [] false).1, (convert piece).2 = false :=
    fun piece hpiece ↦ Bool.eq_false_iff.mpr (List.any_eq_false.mp hgood piece hpiece)
  exact spells_of_scan (i := 0) List.not_mem_nil h hscan hgood'

/-- The parser accepts a pattern if and only if tokens spell it, and its items are those of the
tokens whose literal runs are maximal. -/
theorem init_accepts_iff {pattern : String} (h : PercentsInBraces pattern.toList) :
    ((LogFormatter.init pattern).isError = false ↔ ∃ ts, Spells ts pattern.toList) ∧
      ((LogFormatter.init pattern).isError = false →
        ∃ ts, Spells ts pattern.toList ∧ Maximal ts) ∧
      ∀ ts, Spells ts pattern.toList → Maximal ts →
        (LogFormatter.init pattern).items = ts.map Token.item := by
  refine ⟨⟨fun herr ↦ ?_, fun ⟨ts, hts⟩ ↦ ?_⟩, spells_of_init h, fun ts hts hmax ↦ (init_spells hts hmax).2⟩
  · obtain ⟨ts, hts, -⟩ := spells_of_init h herr
    exact ⟨ts, hts⟩
  · obtain ⟨ts', hts', hmax⟩ := hts.maximal
    exact (init_spells hts' hmax).1

/-- A date with an argument, a tab, a literal run and a line break. -/
theorem init_accepts_iff_date :
    (LogFormatter.init "%d\x7b%Y\x7d%T[x]%n").isError = false ∧
      (LogFormatter.init "%d\x7b%Y\x7d%T[x]%n").items =
        [.item .dateTime ['%', 'Y'], .item .tab [], .string ['[', 'x', ']'], .item .newLine []] := by
  have hchars : "%d\x7b%Y\x7d%T[x]%n".toList =
      ['%', 'd', '{', '%', 'Y', '}', '%', 'T', '[', 'x', ']', '%', 'n'] := rfl
  have hdom : PercentsInBraces "%d\x7b%Y\x7d%T[x]%n".toList := by
    rw [hchars]
    intro a b h
    have hnone : ¬ ['%', '%'] <:+:
        ['%', 'd', '{', '%', 'Y', '}', '%', 'T', '[', 'x', ']', '%', 'n'] := by decide
    exact absurd ⟨a, b, by rw [h, List.append_assoc]; rfl⟩ hnone
  have hline : Spells [.directive .newLine none] ['%', 'n'] :=
    .cons (t := .directive .newLine none) nofun .nil
  have hrun : Spells [.literal ['[', 'x', ']'], .directive .newLine none]
      ['[', 'x', ']', '%', 'n'] :=
    .cons (t := .literal ['[', 'x', ']']) ⟨nofun, by decide⟩ hline
  have htab : Spells [.directive .tab none, .literal ['[', 'x', ']'], .directive .newLine none]
      ['%', 'T', '[', 'x', ']', '%', 'n'] :=
    .cons (t := .directive .tab none) (fun c hc ↦ by cases hc; decide) hrun
  have hspells : Spells [.directive .dateTime (some ['%', 'Y']), .directive .tab none,
      .literal ['[', 'x', ']'], .directive .newLine none] "%d\x7b%Y\x7d%T[x]%n".toList := by
    rw [hchars]
    exact .cons (t := .directive .dateTime (some ['%', 'Y'])) (by change '}' ∉ ['%', 'Y']; decide)
      htab
  have hmax : Maximal [.directive .dateTime (some ['%', 'Y']), .directive .tab none,
      .literal ['[', 'x', ']'], .directive .newLine none] := by
    unfold Maximal
    decide
  obtain ⟨haccepts, -, hitems⟩ := init_accepts_iff hdom
  exact ⟨haccepts.mpr ⟨_, hspells⟩, hitems _ hspells hmax⟩

end Server.Log
