import ServerFramework.Library.Escape
import ServerFramework.Log.Format

/-!
# The escape `%%`

The branch of `LogFormatter::init` for a literal percent sign consumes one of the two characters.  The
second one is read again, so an escaped text with a percent sign in it always contains a directive.
-/

namespace Server.Log

open Escape

/-- `esc(s)`: every `%` doubled. -/
def escape (s : String) : String := String.ofList (double '%' s.toList)

theorem toList_escape (s : String) : (escape s).toList = double '%' s.toList :=
  String.toList_ofList

/-- The escaped text stands for itself, alone and between accepted patterns. -/
structure Escapes (s : String) : Prop where
  accepted : (LogFormatter.init (escape s)).isError = false
  literal : ∀ env level event, (LogFormatter.init (escape s)).format env level event = s.toList
  embedded : ∀ p q : String, (LogFormatter.init p).isError = false →
    (LogFormatter.init q).isError = false → (∀ c ∈ q.toList.head?, c = '%') →
    EndsName (escape s).toList → ∀ env level event,
      (LogFormatter.init (p ++ escape s ++ q)).format env level event =
        (LogFormatter.init p).format env level event ++ s.toList ++
          (LogFormatter.init q).format env level event

section

variable {env : Environment} {level : Level} {event : LogEvent} {pattern nstr rest : List Char}
  {vec : List Piece} {i : Nat}

/-! ## Texts without a percent sign -/

theorem EndsName.append {a b : List Char} (ha : EndsName a) (hb : EndsName b) : EndsName (a ++ b) := by
  cases a with
  | nil => exact hb
  | cons c a => exact ha

theorem escapes_of_not_mem {s : String} (h : '%' ∉ s.toList) : Escapes s := by
  have hesc : (escape s).toList = s.toList := by
    rw [toList_escape, double_eq_self h]
  have hscan : scan (escape s).toList 0 [] [] false = ([] ++ flush s.toList, false) := by
    have hend : (escape s).toList.drop (0 + s.toList.length) = [] := by
      rw [hesc, Nat.zero_add, List.drop_length]
    have hall : (escape s).toList.drop 0 = s.toList ++ [] := by
      rw [hesc, List.append_nil]
      rfl
    rw [scan_literal hall h, scan_end hend]
    rfl
  refine ⟨?_, fun env level event ↦ ?_, fun p q hp hq hpercent hname env level event ↦ ?_⟩
  · show ((scan (escape s).toList 0 [] [] false).2 ||
      (scan (escape s).toList 0 [] [] false).1.any fun piece ↦ (convert piece).2) = false
    rw [hscan]
    unfold flush
    split <;> rfl
  · rw [format_init, hscan, render_append, render_flush]
    rfl
  · rw [hesc] at hname
    have hq' : EndsName q.toList := by
      intro c hc
      rw [hpercent c hc]
      decide
    have hpattern : (p ++ escape s ++ q).toList.drop 0 =
        p.toList.drop 0 ++ (s.toList ++ q.toList) := by
      rw [List.drop_zero, List.drop_zero, String.toList_append, String.toList_append, hesc,
        List.append_assoc]
    obtain ⟨herr, hgood⟩ := accepted_init hp
    obtain ⟨n, nstr, vec, text, hn, hscanp, hvec, hown⟩ :=
      scan_accepted env level event (hname.append hq') herr hgood hpattern [] []
    -- behind `p` comes a literal run, and then `q`
    have hdrop : (p ++ escape s ++ q).toList.drop (n + s.toList.length) = q.toList.drop 0 ++ [] := by
      rw [← List.drop_drop, hn, List.drop_left, List.append_nil, List.drop_zero]
    obtain ⟨herr', hgood'⟩ := accepted_init hq
    obtain ⟨n', nstr', vec', text', hn', hscanq, hvec', hown'⟩ :=
      scan_accepted env level event (t := []) nofun herr' hgood' hdrop (nstr ++ s.toList)
        vec
    rw [format_init, format_init, format_init, hscanp, scan_literal hn h, hscanq, scan_end hn',
      render_append, render_flush, hvec', ← List.append_assoc, hvec, hown, hown']
    rfl

/-! ## Texts with a percent sign -/

/-- A run of `%` behind which a directive starts: all but the last are literal. -/
theorem scan_run (n : Nat) (h : pattern.drop i = List.replicate (n + 1) '%' ++ rest)
    (nstr : List Char) (vec : List Piece) (error : Bool) :
    ∃ j, pattern.drop j = '%' :: rest ∧ scan pattern i nstr vec error =
      scan pattern j (nstr ++ List.replicate n '%') vec error := by
  induction n generalizing i nstr with
  | zero => exact ⟨i, h, by rw [List.replicate_zero, List.append_nil]⟩
  | succ n ih =>
      obtain ⟨hdrop, hscan⟩ := scan_double h nstr vec error
      obtain ⟨j, hj, hrun⟩ := ih hdrop (nstr ++ ['%'])
      refine ⟨j, hj, hscan.trans (hrun.trans ?_)⟩
      rw [List.append_assoc]
      rfl

/-- A directive whose brace is never closed is an error. -/
theorem scan_unclosed {name arg : List Char} {error : Bool} (h : pattern.drop i = '%' :: rest)
    (hrest : rest.head? ≠ some '%') (hname : rest = name ++ '{' :: arg)
    (hall : ∀ c ∈ name, isName c = true) (harg : '}' ∉ arg) :
    (scan pattern i nstr vec error).2 = true := by
  have hdrop : pattern.drop (i + 1) = rest := (getElem_of_drop h).2.2
  obtain ⟨fmt, hscan⟩ := scan_open nstr vec error h hrest
    (scanDirective_unclosed (hdrop.trans hname) hall harg)
  rw [hscan]
  exact scan_error rfl

end

/-- An environment and an event that make every item end in something other than its letter or a
closing brace. -/
def plainEnvironment : Environment := ⟨fun _ ↦ ⟨0, 0, 0, 1, 0, 70⟩, fun _ _ ↦ [], ['x']⟩

def plainEvent : LogEvent := ⟨"x", 1, 0, 0, 0, 0, "x", "x", "x"⟩

/-- `strftime` undoes the escape. -/
theorem expand_double (env : Environment) (tm : Tm) (s : List Char) :
    env.expand tm (double '%' s) = s := by
  induction s with
  | nil => rfl
  | cons c s ih =>
      by_cases hc : c = '%'
      · rw [hc, double_cons_self, Environment.expand, ih]
      · rw [double_cons_of_ne hc]
        unfold Environment.expand
        split
        · rename_i heq
          exact absurd (List.cons.inj heq).1 hc
        · rename_i heq
          exact absurd (List.cons.inj heq).1 hc
        · rename_i heq
          exact absurd (List.cons.inj heq).1 hc
        · rename_i heq
          exact absurd (List.cons.inj heq).1 hc
        · rename_i heq
          obtain ⟨rfl, rfl⟩ := List.cons.inj heq
          rw [ih]
        · rename_i heq
          cases heq

/-- There no item without an argument ends in its letter. -/
theorem plain_bare (cls : ItemClass) :
    ((FormatItem.item cls []).format plainEnvironment .debug plainEvent).getLast? ≠
      some cls.letter := by
  cases cls <;> decide +kernel

/-- Nor does an item whose argument is escaped text end in a closing brace. -/
theorem plain_closed (cls : ItemClass) {arg : List Char} (harg : '}' ∉ double '%' arg) :
    ((FormatItem.item cls (double '%' arg)).format plainEnvironment .debug plainEvent).getLast? ≠
      some '}' := by
  have hbare : ((FormatItem.item cls []).format plainEnvironment .debug plainEvent).getLast? ≠
      some '}' := by
    cases cls <;> decide +kernel
  cases cls with
  | dateTime =>
      show (plainEnvironment.dateTime (double '%' arg) plainEvent).getLast? ≠ some '}'
      unfold Environment.dateTime dateFormat
      split
      · decide +kernel
      · have htext : ∀ tm, plainEnvironment.expand tm ((double '%' arg).takeWhile (· != '\x00')) =
            arg.takeWhile (· != '\x00') := by
          intro tm
          rw [double_takeWhile (by decide), expand_double]
        unfold Environment.strftime
        dsimp only
        rw [htext]
        split
        · intro hlast
          have hmem := List.mem_of_getLast? hlast
          exact harg (mem_double.mpr (List.takeWhile_subset _ hmem))
        · decide
  -- no other item looks at its argument
  | _ => exact hbare

/-- A literal percent sign in front of an item hides that it may print nothing. -/
theorem ends_percent {text : List Char} {c : Char} (htext : text.getLast? ≠ some c) (hc : c ≠ '%') :
    ∃ x d, '%' :: text = x ++ [d] ∧ d ≠ c := by
  rcases List.eq_nil_or_concat' text with rfl | ⟨x, d, rfl⟩
  · exact ⟨[], '%', rfl, hc.symm⟩
  · refine ⟨'%' :: x, d, rfl, fun heq ↦ htext ?_⟩
    rw [heq, List.getLast?_concat]

section

variable {pattern nstr rest : List Char} {vec : List Piece} {i : Nat} {error : Bool}

/-- What follows a `%` that starts a directive, if the loop reports no error from there. -/
theorem directive_of_scan (h : pattern.drop i = '%' :: rest) (hrest : rest.head? ≠ some '%')
    (herr : (scan pattern i nstr vec error).2 = false)
    (hgood : ∀ piece ∈ (scan pattern i nstr vec error).1, (convert piece).2 = false) :
    ∃ cls arg after, '%' :: rest = (Token.directive cls arg).text ++ after ∧
      (Token.directive cls arg).Fits after := by
  have hdrop : pattern.drop (i + 1) = rest := (getElem_of_drop h).2.2
  -- the piece of the directive stays in `vec`, so its name is a letter
  have hletter : ∀ {n b str fmt}, scanDirective pattern i (.start i) = ⟨n + 1, false, b, str, fmt⟩ →
      ∃ cls : ItemClass, str = [cls.letter] := by
    intro n b str fmt hc
    rw [scan_percent h hrest hc] at hgood
    have hpiece : (convert ⟨str, fmt, 1⟩).2 = false :=
      hgood _ (mem_scan (List.mem_append_right _ List.mem_cons_self))
    exact known_of_convert hpiece rfl
  rcases follows rest with ⟨name, after, hname, hall, hend⟩ | ⟨name, arg, after, hname, hall, harg⟩ |
    ⟨name, arg, hname, hall, harg⟩
  · have hcur := scanDirective_bare (hdrop.trans hname) hall hend
    rw [show i + 1 + name.length = i + name.length + 1 by omega] at hcur
    obtain ⟨cls, rfl⟩ := hletter hcur
    exact ⟨cls, none, after, by rw [hname]; rfl, hend⟩
  · obtain ⟨cls, rfl⟩ := hletter (scanDirective_closed (hdrop.trans hname) hall harg)
    exact ⟨cls, some arg, after, by rw [hname, text_some], harg⟩
  · rw [scan_unclosed h hrest hname hall harg] at herr
    cases herr

/-- Where the parser reads an escaped text with a percent sign in it and reports no error, what it
prints differs from the text right before the last directive's end. -/
theorem scan_diverges {r : List Char} (hr : '%' ∈ r) (h : pattern.drop i = double '%' r)
    (herr : (scan pattern i nstr vec false).2 = false)
    (hgood : ∀ piece ∈ (scan pattern i nstr vec false).1, (convert piece).2 = false) :
    Diverge (render plainEnvironment .debug plainEvent (scan pattern i nstr vec false).1) r := by
  induction hlen : r.length using Nat.strong_induction_on generalizing r i nstr vec with
  | h len ih =>
      obtain ⟨u, n, r', rfl, hu, hhead⟩ := exists_run hr
      rw [double_append, double_append, double_eq_self hu, double_replicate,
        show n + 1 + (n + 1) = (n + n + 1) + 1 by omega] at h
      -- a literal run, all percent signs but one, and a directive
      have hdrop : pattern.drop (i + u.length) = List.replicate (n + n + 1 + 1) '%' ++ double '%' r' := by
        rw [← List.drop_drop, h, List.drop_left]
      obtain ⟨j, hj, hrun⟩ := scan_run (n + n + 1) hdrop (nstr ++ u) vec false
      have hhead' : (double '%' r').head? ≠ some '%' := by
        cases r' with
        | nil => nofun
        | cons c r' =>
            have hc : c ≠ '%' := fun heq ↦ hhead (by rw [heq]; rfl)
            rw [double_cons_of_ne hc]
            exact fun heq ↦ hc (Option.some.inj heq)
      rw [scan_literal h hu, hrun] at herr hgood ⊢
      obtain ⟨cls, arg, after, htext, hfits⟩ := directive_of_scan hj hhead' herr hgood
      rw [htext] at hj
      obtain ⟨n', hn', hscan⟩ := scan_directive
        (nstr ++ u ++ List.replicate (n + n + 1) '%') vec false hj hfits
      rw [hscan] at herr hgood ⊢
      -- the text continues with `y` behind the character `c`, in which the item does not end
      have hclose : ∀ x y c, r' = x ++ c :: y → after = double '%' y → c ≠ '%' →
          (FormatItem.format plainEnvironment .debug plainEvent
            (Token.directive cls arg).item).getLast? ≠ some c →
          Diverge (render plainEnvironment .debug plainEvent (scan pattern n' []
            (vec ++ flush (nstr ++ u ++ List.replicate (n + n + 1) '%') ++
              [(Token.directive cls arg).piece]) false).1)
            (u ++ (List.replicate (n + 1) '%' ++ r')) := by
        intro x y c hr' hafter hc hlast
        rw [hafter] at hn'
        rw [hr']
        by_cases hy : '%' ∈ y
        · have hlt : y.length < len := by
            rw [← hlen, hr']
            simp only [List.length_append, List.length_cons]
            omega
          have hdiv := (ih y.length hlt hy hn' herr hgood rfl).prepend []
            (u ++ (List.replicate (n + 1) '%' ++ (x ++ [c])))
          simpa using hdiv
        · rw [double_eq_self hy] at hn'
          have hlit : pattern.drop n' = y ++ [] := by rw [hn', List.append_nil]
          have hend : pattern.drop (n' + y.length) = [] := by
            rw [← List.drop_drop, hn', List.drop_length]
          obtain ⟨v, d, hv, hd⟩ := ends_percent hlast hc
          have hitem : render plainEnvironment .debug plainEvent [(Token.directive cls arg).piece] =
              (Token.directive cls arg).item.format plainEnvironment .debug plainEvent := by
            unfold render
            rw [List.flatMap_singleton, convert_piece]
          rw [scan_literal hlit hy, scan_end hend, render_append, render_flush, render_append,
            render_append, render_flush, hitem, List.replicate_succ']
          refine ⟨render plainEnvironment .debug plainEvent vec ++ (nstr ++ u ++
            List.replicate (n + n) '%') ++ v, u ++ (List.replicate (n + 1) '%' ++ x), y, d, c,
            ?_, ?_, hd⟩
          · have hv' : ['%'] ++ (Token.directive cls arg).item.format plainEnvironment .debug
                plainEvent = v ++ [d] := hv
            simp only [List.append_assoc, List.nil_append]
            rw [← List.append_assoc ['%'], hv']
            simp only [List.append_assoc]
            rfl
          · simp only [List.append_assoc]
      cases arg with
      | none =>
          have hsplit : double '%' r' = [] ++ cls.letter :: after := (List.cons.inj htext).2
          have hne : cls.letter ≠ '%' := by cases cls <;> decide
          obtain ⟨x, y, hr', -, hafter⟩ := double_split hne hsplit
          exact hclose x y cls.letter hr' hafter hne (plain_bare cls)
      | some arg =>
          rw [text_some] at htext
          have hsplit : double '%' r' = (cls.letter :: '{' :: arg) ++ '}' :: after :=
            (List.cons.inj htext).2
          obtain ⟨x, y, hr', hx, hafter⟩ := double_split (by decide) hsplit
          obtain ⟨-, z, -, -, harg⟩ := double_split (a := [cls.letter]) (by decide) hx.symm
          apply hclose x y '}' hr' hafter (by decide)
          show (FormatItem.format plainEnvironment .debug plainEvent (.item cls arg)).getLast? ≠ _
          rw [harg]
          exact plain_closed cls (harg ▸ hfits)

end

/-- An escaped text stands for itself exactly when there was nothing to escape. -/
theorem escapes_iff (s : String) : Escapes s ↔ '%' ∉ s.toList := by
  refine ⟨fun h hmem ↦ ?_, escapes_of_not_mem⟩
  obtain ⟨herr, hgood⟩ := accepted_init h.accepted
  have hdrop : (escape s).toList.drop 0 = double '%' s.toList := toList_escape s
  apply (scan_diverges hmem hdrop herr hgood).ne
  rw [← format_init]
  exact h.literal plainEnvironment .debug plainEvent

/-- `%%` alone is taken for a percent sign and a directive without a name. -/
theorem percent_not_escapes : escape "%" = "%%" ∧ (LogFormatter.init (escape "%")).isError = true ∧
    ¬ Escapes "%" := by
  have hesc : escape "%" = "%%" := by decide
  have herror : (LogFormatter.init (escape "%")).isError ≠ false := by
    intro h
    obtain ⟨herr, hgood⟩ := accepted_init h
    have hdrop : (escape "%").toList.drop 0 = '%' :: '%' :: [] := by
      rw [hesc]
      rfl
    obtain ⟨hlast, hscan⟩ := scan_double hdrop [] [] false
    rw [hscan] at herr hgood
    obtain ⟨cls, arg, after, htext, -⟩ := directive_of_scan hlast nofun herr hgood
    cases arg <;> cases (List.cons.inj htext).2
  exact ⟨hesc, (Bool.not_eq_false _).mp herror, fun h ↦ herror h.accepted⟩

end Server.Log
