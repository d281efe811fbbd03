import ServerFramework.Log.Grammar
import Mathlib.Algebra.Order.BigOperators.Group.List
import Mathlib.Algebra.Order.Ring.Nat

/-!
# The order of the items

Every pattern, well-formed or not, is divided into literal text, directives, and at its end possibly
one directive whose brace is not closed.  `LogFormatter::init` follows this division as long as there
is no such directive.  Where there is one it appends the marker before the literal text that it has
collected, and then reads what stands behind the `%` as if the directive had not begun.
-/

namespace Server.Log

/-- A part of a pattern. -/
inductive Segment where
  | literal (text : List Char)
  | directive (name : List Char) (arg : Option (List Char))
  /-- The brace is not closed, so the directive is all that is left of the pattern. -/
  | unterminated (name arg : List Char)
  deriving DecidableEq, Repr

/-- No directive starts in the text: behind every `%` stands another one. -/
def Verbatim : List Char → List Char → Prop
  | [], _ => True
  | c :: text, rest => (c = '%' → (text ++ rest).head? = some '%') ∧ Verbatim text rest

namespace Segment

/-- An unterminated directive is taken as a `whole`, or as its `%` alone. -/
def text (whole : Bool) : Segment → List Char
  | .literal text => text
  | .directive name none => '%' :: name
  | .directive name (some arg) => '%' :: (name ++ '{' :: (arg ++ ['}']))
  | .unterminated name arg => '%' :: if whole then name ++ '{' :: arg else []

/-- The text itself, the item of the name or the marker for an unknown one, and the marker for an open
brace. -/
def item : Segment → FormatItem
  | .literal text => .string text
  | .directive name arg => (convert ⟨name, arg.getD [], 1⟩).1
  | .unterminated _ _ => .string "<<pattern_error>>".toList

/-- The segment can stand before `rest`. -/
def Stands (whole : Bool) (rest : List Char) : Segment → Prop
  | .literal text => text ≠ [] ∧ Verbatim text rest
  | .directive name none =>
    (∀ c ∈ name, isName c = true) ∧ (name ++ rest).head? ≠ some '%' ∧ EndsName rest
  | .directive name (some arg) => (∀ c ∈ name, isName c = true) ∧ '}' ∉ arg
  | .unterminated name arg =>
    (∀ c ∈ name, isName c = true) ∧ '}' ∉ arg ∧ rest = if whole then [] else name ++ '{' :: arg

def isLiteral : Segment → Bool
  | .literal _ => true
  | _ => false

def isUnterminated : Segment → Bool
  | .unterminated _ _ => true
  | _ => false

end Segment

/-- The pattern is the concatenation of the segments. -/
inductive Divides (whole : Bool) : List Segment → List Char → Prop where
  | nil : Divides whole [] []
  | cons {s : Segment} {ss : List Segment} {rest : List Char} :
      s.Stands whole rest → Divides whole ss rest → Divides whole (s :: ss) (s.text whole ++ rest)

/-- Every item is that of a segment of its own, and the segments, which do not overlap, are in the
order of the pattern.  If unterminated directives are taken as a `whole`, the marker stands for all that
`init` reports with it, and none of this is text of another item. -/
def Attributed (whole : Bool) (pattern : String) : Prop :=
  ∃ segments emitted : List Segment, Divides whole segments pattern.toList ∧
    emitted.Sublist segments ∧ (LogFormatter.init pattern).items = emitted.map Segment.item

/-- Every directive of the pattern is complete. -/
def Terminated (pattern : String) : Prop :=
  ∃ segments, Divides true segments pattern.toList ∧ ∀ s ∈ segments, s.isUnterminated = false

/-- No segment of literal text has an unterminated directive behind it. -/
def Calm (ss : List Segment) : Prop :=
  ss.IsChain fun a b ↦ (a.isLiteral && b.isUnterminated) = false

variable {whole error : Bool} {pattern text nstr rest name arg : List Char} {vec : List Piece}
  {s : Segment} {ss : List Segment} {i : Nat}

/-! ## Literal text -/

theorem Verbatim.append {a b : List Char} (ha : Verbatim a (b ++ rest)) (hb : Verbatim b rest) :
    Verbatim (a ++ b) rest := by
  induction a with
  | nil => exact hb
  | cons c a ih =>
      refine ⟨fun hc ↦ ?_, ih ha.2⟩
      show ((a ++ b) ++ rest).head? = some '%'
      rw [List.append_assoc]
      exact ha.1 hc

theorem scan_verbatim (nstr : List Char) (vec : List Piece) (error : Bool)
    (h : pattern.drop i = text ++ rest) (htext : Verbatim text rest) :
    ∃ n, pattern.drop n = rest ∧
      scan pattern i nstr vec error = scan pattern n (nstr ++ text) vec error := by
  induction text generalizing i nstr with
  | nil => exact ⟨i, h, by rw [List.append_nil]⟩
  | cons c text ih =>
      rcases getElem_of_drop h with ⟨hn, hc, hdrop⟩
      rcases ih (nstr ++ [c]) hdrop htext.2 with ⟨n, hrest, hscan⟩
      refine ⟨n, hrest, ?_⟩
      rw [List.append_assoc] at hscan
      rw [scan, dif_pos hn, hc]
      by_cases hpercent : c = '%'
      · -- the second `%` is read again
        subst hpercent
        have hnext : pattern[i + 1]? = some '%' := by
          rw [← List.head?_drop, hdrop]
          exact htext.1 rfl
        rw [if_neg (by decide), if_pos hnext]
        exact hscan
      · rw [if_pos (bne_iff_ne.mpr hpercent)]
        exact hscan

/-! ## Directives -/

theorem text_closed (whole : Bool) : (Segment.directive name (some arg)).text whole ++ rest =
    '%' :: (name ++ '{' :: (arg ++ '}' :: rest)) := by
  simp [Segment.text]

theorem scan_segment {arg : Option (List Char)} (nstr : List Char) (vec : List Piece) (error : Bool)
    (h : pattern.drop i = (Segment.directive name arg).text whole ++ rest)
    (hstands : (Segment.directive name arg).Stands whole rest) :
    ∃ n, pattern.drop n = rest ∧ scan pattern i nstr vec error =
      scan pattern n [] (vec ++ flush nstr ++ [⟨name, arg.getD [], 1⟩]) error := by
  cases arg with
  | none => exact scan_bare nstr vec error h hstands.1 hstands.2.1 hstands.2.2
  | some arg => exact scan_closed nstr vec error (h.trans (text_closed whole)) hstands.1 hstands.2

/-- The index stays behind the `%`, and the literal text is kept. -/
theorem scan_unterminated (nstr : List Char) (vec : List Piece) (error : Bool)
    (h : pattern.drop i = (Segment.unterminated name arg).text false ++ rest)
    (hstands : (Segment.unterminated name arg).Stands false rest) :
    ∃ fmt, pattern.drop (i + 1) = rest ∧ scan pattern i nstr vec error =
      scan pattern (i + 1) nstr (vec ++ [⟨"<<pattern_error>>".toList, fmt, 0⟩]) true := by
  rcases hstands with ⟨hname, harg, rfl⟩
  have hbehind : pattern.drop (i + 1) = name ++ '{' :: arg := (getElem_of_drop h).2.2
  rcases scan_open nstr vec error h (head_of_name hname) (scanDirective_unclosed hbehind hname harg)
    with ⟨fmt, hscan⟩
  exact ⟨fmt, hbehind, hscan⟩

/-! ## Divisions -/

/-- Every pattern has a division, whatever is wrong with it. -/
theorem exists_divides (whole : Bool) (p : List Char) : ∃ ss, Divides whole ss p := by
  induction hlen : p.length using Nat.strong_induction_on generalizing p with
  | h len ih =>
      cases p with
      | nil => exact ⟨[], .nil⟩
      | cons c p =>
          rw [List.length_cons] at hlen
          by_cases hliteral : c = '%' → p.head? = some '%'
          · rcases ih p.length (by omega) p rfl with ⟨ss, hdiv⟩
            have hstands : (Segment.literal [c]).Stands whole p :=
              ⟨List.cons_ne_nil _ _, hliteral, trivial⟩
            exact ⟨_, .cons hstands hdiv⟩
          · rw [Classical.not_imp] at hliteral
            rcases hliteral with ⟨rfl, hhead⟩
            rcases follows p with ⟨name, after, rfl, hname, hend⟩ |
              ⟨name, arg, after, rfl, hname, harg⟩ | ⟨name, arg, rfl, hname, harg⟩
            · rcases ih after.length (by simp at hlen; omega) after rfl with ⟨ss, hdiv⟩
              have hstands : (Segment.directive name none).Stands whole after := ⟨hname, hhead, hend⟩
              exact ⟨_, .cons hstands hdiv⟩
            · rcases ih after.length (by simp at hlen; omega) after rfl with ⟨ss, hdiv⟩
              have hstands : (Segment.directive name (some arg)).Stands whole after := ⟨hname, harg⟩
              refine ⟨.directive name (some arg) :: ss, ?_⟩
              rw [← text_closed whole]
              exact .cons hstands hdiv
            · cases whole with
              | true =>
                  have hstands : (Segment.unterminated name arg).Stands true [] := ⟨hname, harg, rfl⟩
                  have hdiv : Divides true [.unterminated name arg] _ := .cons hstands .nil
                  rw [List.append_nil] at hdiv
                  exact ⟨_, hdiv⟩
              | false =>
                  rcases ih (name ++ '{' :: arg).length (by omega) _ rfl with ⟨ss, hdiv⟩
                  have hstands : (Segment.unterminated name arg).Stands false _ := ⟨hname, harg, rfl⟩
                  exact ⟨_, .cons hstands hdiv⟩

/-- Without an open brace it is all one. -/
theorem Divides.of_complete (h : Divides whole ss rest)
    (hok : ∀ s ∈ ss, s.isUnterminated = false) (whole' : Bool) : Divides whole' ss rest := by
  induction h with
  | nil => exact .nil
  | @cons s ss rest hstands hdiv ih =>
      rw [List.forall_mem_cons] at hok
      have hrest := ih hok.2
      cases s with
      | literal text => exact .cons (s := .literal text) hstands hrest
      | directive name arg =>
          cases arg with
          | none => exact .cons (s := .directive name none) hstands hrest
          | some arg => exact .cons (s := .directive name (some arg)) hstands hrest
      | unterminated name arg => cases hok.1

/-- A text that starts with something other than `%` starts with a literal. -/
theorem Divides.starts (h : Divides whole ss rest) (hne : rest ≠ []) (hhead : rest.head? ≠ some '%') :
    ∃ text more, ss = .literal text :: more ∧ text ≠ [] := by
  cases h with
  | nil => exact absurd rfl hne
  | @cons s ss rest hstands hdiv =>
      cases s with
      | literal text => exact ⟨text, ss, rfl, hstands.1⟩
      | directive name arg => cases arg <;> exact absurd rfl hhead
      | unterminated name arg => exact absurd rfl hhead

/-- Behind the `%` of an unterminated directive comes literal text, though it belongs to the
directive. -/
theorem starts_again (hname : ∀ c ∈ name, isName c = true)
    (h : Divides whole ss (name ++ '{' :: arg)) :
    ∃ text more, ss = .literal text :: more ∧ text ≠ [] :=
  h.starts (List.append_ne_nil_of_right_ne_nil _ (List.cons_ne_nil _ _)) (head_of_name hname)

theorem Segment.text_ne_nil (h : s.Stands whole rest) : s.text whole ≠ [] := by
  cases s with
  | literal text => exact h.1
  | directive name arg => cases arg <;> nofun
  | unterminated name arg => nofun

theorem Divides.eq_nil (h : Divides whole ss rest) (hrest : rest = []) : ss = [] := by
  cases h with
  | nil => rfl
  | cons hstands _ => exact absurd (List.append_eq_nil_iff.mp hrest).1 (Segment.text_ne_nil hstands)

/-- A whole unterminated directive can only be the last segment; with its `%` alone the division goes
on behind it. -/
theorem Divides.again (h : Divides true ss rest) : ∃ again, Divides false (ss ++ again) rest ∧
    ((∀ s ∈ ss, s.isUnterminated = false) ∨
      ∃ text more, again = .literal text :: more ∧ text ≠ []) := by
  induction h with
  | nil => exact ⟨[], .nil, .inl nofun⟩
  | @cons s ss rest hstands hdiv ih =>
      rcases ih with ⟨again, hagain, hor⟩
      cases s with
      | literal text =>
          refine ⟨again, .cons (s := .literal text) hstands hagain, hor.imp_left fun hok ↦ ?_⟩
          exact List.forall_mem_cons.mpr ⟨rfl, hok⟩
      | directive name arg =>
          refine ⟨again, ?_, hor.imp_left fun hok ↦ List.forall_mem_cons.mpr ⟨rfl, hok⟩⟩
          cases arg with
          | none => exact .cons (s := .directive name none) hstands hagain
          | some arg => exact .cons (s := .directive name (some arg)) hstands hagain
      | unterminated name arg =>
          rcases hstands with ⟨hname, harg, hnil⟩
          rcases exists_divides false (name ++ '{' :: arg) with ⟨more, hmore⟩
          refine ⟨more, ?_, .inr (starts_again hname hmore)⟩
          have hall : Divides false (.unterminated name arg :: more) ('%' :: (name ++ '{' :: arg)) :=
            .cons (s := .unterminated name arg) ⟨hname, harg, rfl⟩ hmore
          have hrest : rest = [] := hnil
          rw [hdiv.eq_nil hrest, hrest, List.append_nil]
          exact hall

/-! ## How much text there is in the items -/

/-- The items of some pieces. -/
def converted (vec : List Piece) : List FormatItem := vec.map fun piece ↦ (convert piece).1

theorem converted_append (v w : List Piece) : converted (v ++ w) = converted v ++ converted w :=
  List.map_append

theorem converted_directive {arg : Option (List Char)} (vec : List Piece) :
    converted (vec ++ [⟨name, arg.getD [], 1⟩]) =
      converted vec ++ [(Segment.directive name arg).item] :=
  converted_append _ _

theorem converted_marker (vec : List Piece) (fmt name arg : List Char) :
    converted (vec ++ [⟨"<<pattern_error>>".toList, fmt, 0⟩]) =
      converted vec ++ [(Segment.unterminated name arg).item] :=
  converted_append _ _

theorem items_init (p : String) :
    (LogFormatter.init p).items = converted (scan p.toList 0 [] [] false).1 := rfl

/-- The length of the text in an item. -/
def FormatItem.length : FormatItem → Nat
  | .string str => str.length
  | .item _ _ => 0

def written (items : List FormatItem) : Nat := (items.map FormatItem.length).sum

@[simp] theorem written_nil : written [] = 0 := rfl

@[simp] theorem written_cons (item : FormatItem) (items : List FormatItem) :
    written (item :: items) = item.length + written items := by
  simp [written]

@[simp] theorem written_append (items items' : List FormatItem) :
    written (items ++ items') = written items + written items' := by
  simp [written]

theorem written_flush (nstr : List Char) : written (converted (flush nstr)) = nstr.length := by
  by_cases hnil : nstr = []
  · rw [hnil]
    rfl
  · rw [flush_of_ne_nil hnil]
    rfl

theorem written_le {items items' : List FormatItem} (h : items.Sublist items') :
    written items ≤ written items' :=
  (h.map _).sum_le_sum fun _ _ ↦ Nat.zero_le _

/-- What the loop does with a segment, as far as the amount of text and the error go. -/
theorem scan_step (nstr : List Char) (vec : List Piece) (error : Bool)
    (h : pattern.drop i = s.text false ++ rest) (hstands : s.Stands false rest) :
    ∃ n nstr' vec', pattern.drop n = rest ∧
      scan pattern i nstr vec error = scan pattern n nstr' vec' (error || s.isUnterminated) ∧
      written (converted vec') + nstr'.length =
        written (converted vec) + nstr.length + s.item.length := by
  cases s with
  | literal text =>
      change pattern.drop i = text ++ rest at h
      rcases scan_verbatim nstr vec error h hstands.2 with ⟨n, hn, hscan⟩
      refine ⟨n, nstr ++ text, vec, hn, ?_, ?_⟩
      · simpa [Segment.isUnterminated] using hscan
      · rw [List.length_append, ← Nat.add_assoc]
        rfl
  | directive name arg =>
      rcases scan_segment nstr vec error h hstands with ⟨n, hn, hscan⟩
      refine ⟨n, [], vec ++ flush nstr ++ [⟨name, arg.getD [], 1⟩], hn, ?_, ?_⟩
      · simpa [Segment.isUnterminated] using hscan
      · rw [converted_directive, converted_append, written_append, written_append, written_flush,
          written_cons, written_nil]
        rfl
  | unterminated name arg =>
      rcases scan_unterminated nstr vec error h hstands with ⟨fmt, hn, hscan⟩
      refine ⟨i + 1, nstr, vec ++ [⟨"<<pattern_error>>".toList, fmt, 0⟩], hn, ?_, ?_⟩
      · simpa [Segment.isUnterminated] using hscan
      · rw [converted_marker vec fmt name arg, written_append, written_cons, written_nil]
        omega

/-- The items have exactly the text of the segments, an unterminated directive being its `%` alone. -/
theorem Divides.written_scan (h : Divides false ss rest) (nstr : List Char) (vec : List Piece)
    (error : Bool) (hdrop : pattern.drop i = rest) :
    written (converted (scan pattern i nstr vec error).1) =
      written (converted vec) + nstr.length + written (ss.map Segment.item) := by
  induction h generalizing i nstr vec error with
  | nil =>
      rw [scan_end hdrop, converted_append, written_append, written_flush]
      rfl
  | @cons s ss rest hstands hdiv ih =>
      rcases scan_step nstr vec error hdrop hstands with ⟨n, nstr', vec', hn, hscan, htext⟩
      rw [hscan, ih _ _ _ hn, htext, List.map_cons, written_cons, Nat.add_assoc]

/-- The loop reports an error exactly for an open brace. -/
theorem Divides.reports (h : Divides false ss rest) (nstr : List Char) (vec : List Piece)
    (error : Bool) (hdrop : pattern.drop i = rest) :
    (scan pattern i nstr vec error).2 = (error || ss.any Segment.isUnterminated) := by
  induction h generalizing i nstr vec error with
  | nil => rw [scan_end hdrop, List.any_nil, Bool.or_false]
  | @cons s ss rest hstands hdiv ih =>
      rcases scan_step nstr vec error hdrop hstands with ⟨n, nstr', vec', hn, hscan, -⟩
      rw [hscan, ih _ _ _ hn, List.any_cons, Bool.or_assoc]

/-- The condition in terms of `m_error`, before the names are looked up. -/
theorem terminated_iff {p : String} :
    Terminated p ↔ (scan p.toList 0 [] [] false).2 = false := by
  constructor
  · rintro ⟨ss, hdiv, hok⟩
    rw [(hdiv.of_complete hok false).reports [] [] false List.drop_zero, Bool.false_or,
      List.any_eq_false]
    exact fun s hs ↦ Bool.eq_false_iff.mp (hok s hs)
  · intro h
    rcases exists_divides false p.toList with ⟨ss, hdiv⟩
    rw [hdiv.reports [] [] false List.drop_zero, Bool.false_or, List.any_eq_false] at h
    have hok : ∀ s ∈ ss, s.isUnterminated = false := fun s hs ↦ Bool.eq_false_iff.mpr (h s hs)
    exact ⟨ss, hdiv.of_complete hok true, hok⟩

/-! ## The division that the loop finds -/

/-- The division `ss'` is `ss` with the literal text in front of it that has been collected. -/
structure Joins (nstr rest : List Char) (ss ss' : List Segment) : Prop where
  divides : Divides false ss' (nstr ++ rest)
  count : ss'.countP Segment.isUnterminated = ss.countP Segment.isUnterminated

/-- What has been collected becomes a segment. -/
theorem Divides.flushed (h : Divides false ss rest) (hnstr : Verbatim nstr rest) :
    ∃ ss', Joins nstr rest ss ss' ∧
      converted (flush nstr) ++ ss.map Segment.item = ss'.map Segment.item := by
  by_cases hnil : nstr = []
  · subst hnil
    exact ⟨ss, ⟨h, rfl⟩, rfl⟩
  · refine ⟨.literal nstr :: ss, ⟨?_, ?_⟩, ?_⟩
    · exact .cons (s := .literal nstr) ⟨hnil, hnstr⟩ h
    · exact List.countP_cons_of_neg Bool.false_ne_true
    · rw [flush_of_ne_nil hnil]
      rfl

/-- In front of an unterminated directive nothing may have been collected. -/
def Unheld (nstr : List Char) (ss : List Segment) : Prop :=
  nstr ≠ [] → ∀ s ∈ ss.head?, s.isUnterminated = false

theorem Calm.tail (h : Calm (s :: ss)) : Calm ss := (List.isChain_cons.mp h).2

theorem Calm.unheld (h : Calm (.literal text :: ss)) (nstr : List Char) : Unheld nstr ss :=
  fun _ s hs ↦ (List.isChain_cons.mp h).1 s hs

/-- The loop keeps to a calm division, whose literals it joins. -/
theorem Divides.scanned (h : Divides false ss rest) (hcalm : Calm ss) (vec : List Piece)
    (error : Bool) (hdrop : pattern.drop i = rest) (hnstr : Verbatim nstr rest)
    (hunheld : Unheld nstr ss) :
    ∃ ss', Joins nstr rest ss ss' ∧
      converted (scan pattern i nstr vec error).1 = converted vec ++ ss'.map Segment.item := by
  induction h generalizing i nstr vec error with
  | nil =>
      rcases Divides.nil.flushed hnstr with ⟨ss', hjoins, hitems⟩
      refine ⟨ss', hjoins, ?_⟩
      rw [scan_end hdrop, converted_append, ← hitems, List.map_nil, List.append_nil]
  | @cons s ss rest hstands hdiv ih =>
      have hnone : Verbatim [] rest := trivial
      have hstart : Unheld [] ss := fun hne ↦ absurd rfl hne
      cases s with
      | literal text =>
          change pattern.drop i = text ++ rest at hdrop
          rcases scan_verbatim nstr vec error hdrop hstands.2 with ⟨n, hn, hscan⟩
          have htext : Verbatim (nstr ++ text) rest := hnstr.append hstands.2
          rcases ih hcalm.tail vec error hn htext (hcalm.unheld _) with ⟨ss', hjoins, hitems⟩
          refine ⟨ss', ⟨?_, ?_⟩, hscan ▸ hitems⟩
          · have hall := hjoins.divides
            rwa [List.append_assoc] at hall
          · rw [hjoins.count, List.countP_cons_of_neg Bool.false_ne_true]
      | directive name arg =>
          rcases scan_segment nstr vec error hdrop hstands with ⟨n, hn, hscan⟩
          rcases ih hcalm.tail (vec ++ flush nstr ++ [⟨name, arg.getD [], 1⟩]) error hn hnone hstart
            with ⟨ss', hjoins, hitems⟩
          have hall : Divides false (.directive name arg :: ss')
              ((Segment.directive name arg).text false ++ rest) := .cons hstands hjoins.divides
          rcases hall.flushed hnstr with ⟨ss'', hjoins', hitems'⟩
          refine ⟨ss'', ⟨hjoins'.divides, ?_⟩, ?_⟩
          · rw [hjoins'.count, List.countP_cons_of_neg Bool.false_ne_true, hjoins.count,
              List.countP_cons_of_neg Bool.false_ne_true]
          · rw [hscan, hitems, converted_directive, converted_append, ← hitems', List.map_cons,
              List.append_assoc, List.append_assoc]
            rfl
      | unterminated name arg =>
          have hnil : nstr = [] := by
            by_contra hne
            cases hunheld hne _ rfl
          subst hnil
          rcases scan_unterminated [] vec error hdrop hstands with ⟨fmt, hn, hscan⟩
          rcases ih hcalm.tail (vec ++ [⟨"<<pattern_error>>".toList, fmt, 0⟩]) true hn hnone hstart
            with ⟨ss', hjoins, hitems⟩
          refine ⟨.unterminated name arg :: ss', ⟨?_, ?_⟩, ?_⟩
          · exact .cons hstands hjoins.divides
          · rw [List.countP_cons_of_pos rfl, List.countP_cons_of_pos rfl, hjoins.count]
          · rw [hscan, hitems, converted_marker vec fmt name arg, List.map_cons, List.append_assoc]
            rfl

/-! ## Where the order is lost -/

/-- The loop comes to every segment. -/
theorem Divides.reaches {front back : List Segment} (h : Divides false (front ++ back) rest)
    (nstr : List Char) (vec : List Piece) (error : Bool) (hdrop : pattern.drop i = rest) :
    ∃ n rest' nstr' vec' error', pattern.drop n = rest' ∧ Divides false back rest' ∧
      scan pattern i nstr vec error = scan pattern n nstr' vec' error' := by
  induction front generalizing rest i nstr vec error with
  | nil => exact ⟨i, rest, nstr, vec, error, hdrop, h, rfl⟩
  | cons s front ih =>
      cases h with
      | @cons _ _ rest hstands hdiv =>
          rcases scan_step nstr vec error hdrop hstands with ⟨n, nstr', vec', hn, hscan, -⟩
          rw [hscan]
          exact ih hdiv _ _ _ hn

/-- What has been collected is in the next item, unless an unterminated directive comes first. -/
theorem Divides.held (h : Divides false ss rest) (hcalm : Calm ss) (vec : List Piece) (error : Bool)
    (hdrop : pattern.drop i = rest) (hne : nstr ≠ []) (hunheld : Unheld nstr ss) :
    ∃ text after, converted (scan pattern i nstr vec error).1 =
      converted vec ++ .string (nstr ++ text) :: after := by
  induction h generalizing i nstr vec error with
  | nil =>
      refine ⟨[], [], ?_⟩
      rw [scan_end hdrop, converted_append, flush_of_ne_nil hne, List.append_nil]
      rfl
  | @cons s ss rest hstands hdiv ih =>
      cases s with
      | literal text =>
          change pattern.drop i = text ++ rest at hdrop
          rcases scan_verbatim nstr vec error hdrop hstands.2 with ⟨n, hn, hscan⟩
          rcases ih hcalm.tail vec error hn (List.append_ne_nil_of_left_ne_nil hne text)
            (hcalm.unheld _) with ⟨text', after, hitems⟩
          refine ⟨text ++ text', after, ?_⟩
          rw [hscan, hitems, List.append_assoc]
      | directive name arg =>
          rcases scan_segment nstr vec error hdrop hstands with ⟨n, hn, hscan⟩
          rcases scan_prefix pattern n [] (vec ++ flush nstr ++ [⟨name, arg.getD [], 1⟩]) error with
            ⟨after, hafter⟩
          refine ⟨[], converted (⟨name, arg.getD [], 1⟩ :: after), ?_⟩
          rw [hscan, hafter, flush_of_ne_nil hne, List.append_nil, List.append_assoc,
            List.append_assoc, converted_append]
          rfl
      | unterminated name arg => cases hunheld hne _ rfl

/-- What is not calm has a last place where it is not. -/
theorem exists_last (h : ¬ Calm ss) : ∃ front text name arg back,
    ss = front ++ [.literal text, .unterminated name arg] ++ back ∧ Calm back := by
  induction ss with
  | nil => exact absurd List.isChain_nil h
  | cons s ss ih =>
      by_cases htail : Calm ss
      · have hhead : ¬ ∀ t ∈ ss.head?, (s.isLiteral && t.isUnterminated) = false :=
          fun hall ↦ h (List.isChain_cons.mpr ⟨hall, htail⟩)
        simp only [not_forall, Bool.not_eq_false, Bool.and_eq_true] at hhead
        rcases hhead with ⟨t, ht, hs, hopen⟩
        cases s with
        | literal text =>
            cases t with
            | unterminated name arg =>
                rcases List.head?_eq_some_iff.mp ht with ⟨back, rfl⟩
                exact ⟨[], text, name, arg, back, rfl, htail.tail⟩
            | _ => cases hopen
        | _ => cases hs
      · rcases ih htail with ⟨front, text, name, arg, back, rfl, hback⟩
        exact ⟨s :: front, text, name, arg, back, rfl, hback⟩

/-- The items that come from segments come from all segments with text. -/
theorem written_back {front back emitted : List Segment} {items : List FormatItem}
    (hsub : emitted.Sublist (front ++ back)) (hitems : items = emitted.map Segment.item)
    (htotal : written items = written ((front ++ back).map Segment.item)) :
    ∃ before after, items = before ++ after ∧ written after = written (back.map Segment.item) := by
  rcases List.sublist_append_iff.mp hsub with ⟨e, e', rfl, hfront, hback⟩
  refine ⟨e.map Segment.item, e'.map Segment.item, by rw [hitems, List.map_append], ?_⟩
  rw [hitems, List.map_append, written_append, List.map_append, written_append] at htotal
  have hle := written_le (hfront.map Segment.item)
  have hle' := written_le (hback.map Segment.item)
  omega

/-- If literal text comes first, it is in one item with what has been collected.  This item is longer
than the text, and what follows it is shorter than all that is to come. -/
theorem Divides.straddles {back : List Segment} (h : Divides false back rest) (hback : Calm back)
    (hstart : ∃ text more, back = .literal text :: more ∧ text ≠ []) (vec : List Piece)
    (error : Bool) (hdrop : pattern.drop i = rest) (hne : nstr ≠ []) :
    ∃ held after, converted (scan pattern i nstr vec error).1 =
        converted vec ++ .string held :: after ∧
      written after < written (back.map Segment.item) ∧
      written (back.map Segment.item) < held.length + written after := by
  rcases hstart with ⟨text, more, rfl, htext⟩
  cases h with
  | @cons _ _ rest hstands hdiv =>
      change pattern.drop i = text ++ rest at hdrop
      rcases scan_verbatim nstr vec error hdrop hstands.2 with ⟨n, hn, hscan⟩
      have htotal := hdiv.written_scan (nstr ++ text) vec error hn
      rcases hdiv.held hback.tail vec error hn (List.append_ne_nil_of_left_ne_nil hne text)
        (hback.unheld _) with ⟨text', after, hitems⟩
      refine ⟨nstr ++ text ++ text', after, hscan ▸ hitems, ?_⟩
      have hpos := List.length_pos_of_ne_nil hne
      have hpos' := List.length_pos_of_ne_nil htext
      have hlength : (Segment.literal text).item.length = text.length := rfl
      have hheld : (FormatItem.string (nstr ++ text ++ text')).length =
          nstr.length + text.length + text'.length := by
        simp [FormatItem.length, Nat.add_assoc]
      rw [hitems, written_append, written_cons, hheld, List.length_append] at htotal
      rw [List.map_cons, written_cons, hlength, List.length_append, List.length_append]
      omega

/-- A cut through a list of items is on one side of each item. -/
theorem written_cut {before before' after after' : List FormatItem} {item : FormatItem}
    (h : before ++ after = before' ++ item :: after') :
    written after ≤ written after' ∨ item.length + written after' ≤ written after := by
  rcases List.append_eq_append_iff.mp h with ⟨c, -, rfl⟩ | ⟨c, -, hc⟩
  · right
    rw [written_append, written_cons]
    omega
  · cases c with
    | nil =>
        right
        have hafter : item :: after' = after := hc
        rw [← hafter, written_cons]
    | cons x c =>
        left
        have hafter : after' = c ++ after := (List.cons.inj hc).2
        rw [hafter, written_append]
        omega

/-- A division from which the items come in order is calm. -/
theorem Divides.calm {p : String} {segments emitted : List Segment}
    (h : Divides false segments p.toList) (hsub : emitted.Sublist segments)
    (hitems : (LogFormatter.init p).items = emitted.map Segment.item) : Calm segments := by
  by_contra hcalm
  rcases exists_last hcalm with ⟨front, text, name, arg, back, rfl, hback⟩
  have htotal := h.written_scan [] [] false List.drop_zero
  rw [← items_init] at htotal
  -- the items of what stands behind the `%` are a part of all items, by their order
  rcases written_back hsub hitems (htotal.trans (Nat.zero_add _)) with
    ⟨before, after, hsplit, hafter⟩
  -- but where this part should begin there is the text in front of the `%`
  have hstraddles : ∃ before' held after', (LogFormatter.init p).items =
      before' ++ .string held :: after' ∧ written after' < written (back.map Segment.item) ∧
      written (back.map Segment.item) < held.length + written after' := by
    rw [List.append_assoc] at h
    rcases h.reaches [] [] false List.drop_zero with ⟨n, rest, nstr, vec, error, hn, hdiv, hscan⟩
    cases hdiv with
    | @cons _ _ rest hstands hdiv =>
        rcases scan_verbatim nstr vec error hn hstands.2 with ⟨n, hn, hscan'⟩
        change _ = scan p.toList n (nstr ++ text) vec error at hscan'
        cases hdiv with
        | @cons _ _ rest hstands' hdiv =>
            rcases scan_unterminated (nstr ++ text) vec error hn hstands' with ⟨fmt, hn, hopen⟩
            have hagain := starts_again hstands'.1 (hstands'.2.2 ▸ hdiv)
            rcases hdiv.straddles hback hagain (vec ++ [⟨"<<pattern_error>>".toList, fmt, 0⟩]) true hn
              (List.append_ne_nil_of_right_ne_nil nstr hstands.1) with ⟨held, after', hheld, hbounds⟩
            refine ⟨converted (vec ++ [⟨"<<pattern_error>>".toList, fmt, 0⟩]), held, after', ?_, hbounds⟩
            rw [items_init, hscan, hscan', hopen]
            exact hheld
  rcases hstraddles with ⟨before', held, after', hsplit', hlt, hgt⟩
  have hlength : (FormatItem.string held).length = held.length := rfl
  have hcut := written_cut (hsplit.symm.trans hsplit')
  omega

/-! ## The whole directive, and its percent sign alone -/

/-- A division with whole directives from which the items come has none that is unterminated. -/
theorem Divides.terminated {p : String} {segments emitted : List Segment}
    (h : Divides true segments p.toList) (hsub : emitted.Sublist segments)
    (hitems : (LogFormatter.init p).items = emitted.map Segment.item) : Terminated p := by
  rcases h.again with ⟨again, hdiv, hok | ⟨text, more, rfl, htext⟩⟩
  · exact ⟨segments, h, hok⟩
  · -- the text behind the `%` is written again
    have htotal := hdiv.written_scan [] [] false List.drop_zero
    have hle := written_le (hsub.map Segment.item)
    have hpos := List.length_pos_of_ne_nil htext
    have hlength : (Segment.literal text).item.length = text.length := rfl
    rw [← items_init, hitems, List.map_append, List.map_cons, written_append, written_cons,
      hlength] at htotal
    omega

/-- The items of a calm division come in order, and none is left out. -/
theorem Divides.attributed {p : String} (h : Divides false ss p.toList) (hcalm : Calm ss) :
    ∃ segments, Divides false segments p.toList ∧
      segments.countP Segment.isUnterminated = ss.countP Segment.isUnterminated ∧
      (LogFormatter.init p).items = segments.map Segment.item := by
  have hnone : Verbatim [] p.toList := trivial
  rcases h.scanned hcalm [] false List.drop_zero hnone fun hne ↦ absurd rfl hne with
    ⟨segments, hjoins, hitems⟩
  exact ⟨segments, hjoins.divides, hjoins.count, hitems⟩

theorem calm_of_complete (hok : ∀ s ∈ ss, s.isUnterminated = false) : Calm ss := by
  induction ss with
  | nil => exact List.isChain_nil
  | cons s ss ih =>
      rw [List.forall_mem_cons] at hok
      refine List.isChain_cons.mpr ⟨fun t ht ↦ ?_, ih hok.2⟩
      rw [hok.2 t (List.mem_of_mem_head? ht), Bool.and_false]

theorem Terminated.attributed {p : String} (h : Terminated p) : Attributed true p := by
  rcases h with ⟨ss, hdiv, hok⟩
  rcases (hdiv.of_complete hok false).attributed (calm_of_complete hok) with
    ⟨segments, hall, hcount, hitems⟩
  have hnone : ss.countP Segment.isUnterminated = 0 :=
    List.countP_eq_zero.mpr fun s hs ↦ Bool.eq_false_iff.mp (hok s hs)
  have hok' : ∀ s ∈ segments, s.isUnterminated = false :=
    fun s hs ↦ Bool.eq_false_iff.mpr (List.countP_eq_zero.mp (hcount.trans hnone) s hs)
  exact ⟨segments, segments, hall.of_complete hok' true, List.Sublist.refl _, hitems⟩

/-- The items follow the order of the pattern, and nothing of an unterminated directive is text as well,
exactly when there is no such directive.  The order alone is kept as long as no text stands right before
one. -/
theorem attributed_iff (pattern : String) :
    (Attributed true pattern ↔ Terminated pattern) ∧
      (Attributed false pattern ↔ ∃ segments, Divides false segments pattern.toList ∧ Calm segments) := by
  refine ⟨⟨?_, Terminated.attributed⟩, ?_, ?_⟩
  · rintro ⟨segments, emitted, hdiv, hsub, hitems⟩
    exact hdiv.terminated hsub hitems
  · rintro ⟨segments, emitted, hdiv, hsub, hitems⟩
    exact ⟨segments, hdiv, hdiv.calm hsub hitems⟩
  · rintro ⟨ss, hdiv, hcalm⟩
    rcases hdiv.attributed hcalm with ⟨segments, hall, -, hitems⟩
    exact ⟨segments, segments, hall, List.Sublist.refl _, hitems⟩

theorem Divides.isInfix (h : Divides whole ss rest) (hs : s ∈ ss) : s.text whole <:+: rest := by
  induction h with
  | nil => cases hs
  | cons _ _ ih =>
      rcases List.mem_cons.mp hs with rfl | hs
      · exact List.infix_append' [] _ _
      · exact (ih hs).trans (List.suffix_append _ _).isInfix

/-- The markers start with `<`. -/
theorem literal_of_item (h : s.item = .string text) (htext : text.head? ≠ some '<') :
    s = .literal text := by
  cases s with
  | literal text' =>
      cases h
      rfl
  | directive name arg =>
      change (convert ⟨name, arg.getD [], 1⟩).1 = _ at h
      unfold convert at h
      rw [if_neg Nat.one_ne_zero] at h
      split at h
      · cases h
        exact absurd rfl htext
      · cases h
  | unterminated name arg =>
      cases h
      exact absurd rfl htext

/-- Literal text, and a date whose brace is not closed: the marker comes before the text, and the date is
text as well. -/
theorem not_attributed :
    (LogFormatter.init "ab%d\x7bx").items =
        [.string "<<pattern_error>>".toList, .string "abd\x7bx".toList] ∧
      ¬ Attributed true "ab%d\x7bx" ∧ ¬ Attributed false "ab%d\x7bx" := by
  have hitems : (LogFormatter.init "ab%d\x7bx").items =
      [.string "<<pattern_error>>".toList, .string "abd\x7bx".toList] := by
    have hchars : "ab%d\x7bx".toList = ['a', 'b', '%', 'd', '{', 'x'] := rfl
    have hfront : ['a', 'b', '%', 'd', '{', 'x'].drop 0 = ['a', 'b'] ++ ['%', 'd', '{', 'x'] := rfl
    have hbefore : scan ['a', 'b', '%', 'd', '{', 'x'] 0 [] [] false =
        scan ['a', 'b', '%', 'd', '{', 'x'] 2 ['a', 'b'] [] false :=
      scan_literal hfront (by decide)
    have hstands : (Segment.unterminated ['d'] ['x']).Stands false ['d', '{', 'x'] :=
      ⟨List.forall_mem_singleton.mpr rfl, by decide, rfl⟩
    have hdrop : ['a', 'b', '%', 'd', '{', 'x'].drop 2 =
      (Segment.unterminated ['d'] ['x']).text false ++ ['d', '{', 'x'] := rfl
    rcases scan_unterminated ['a', 'b'] [] false hdrop hstands with ⟨fmt, -, hopen⟩
    have hbehind : ['a', 'b', '%', 'd', '{', 'x'].drop 3 = ['d', '{', 'x'] ++ [] := rfl
    have hagain : scan ['a', 'b', '%', 'd', '{', 'x'] 3 ['a', 'b']
          ([] ++ [⟨"<<pattern_error>>".toList, fmt, 0⟩]) true =
        scan ['a', 'b', '%', 'd', '{', 'x'] 6 ['a', 'b', 'd', '{', 'x']
          ([] ++ [⟨"<<pattern_error>>".toList, fmt, 0⟩]) true :=
      scan_literal hbehind (by decide)
    rw [items_init, hchars, hbefore, hopen, hagain, scan_end rfl]
    rfl
  -- the second item would be a piece of the pattern
  have hnone : ∀ whole, ¬ Attributed whole "ab%d\x7bx" := by
    rintro whole ⟨segments, emitted, hdiv, hsub, hemitted⟩
    have hmem : .string "abd\x7bx".toList ∈ emitted.map Segment.item := by
      rw [← hemitted, hitems]
      exact List.mem_cons_of_mem _ List.mem_cons_self
    rcases List.mem_map.mp hmem with ⟨s, hs, hitem⟩
    have hinfix := hdiv.isInfix (hsub.mem hs)
    rw [literal_of_item hitem (by decide)] at hinfix
    change "abd\x7bx".toList <:+: "ab%d\x7bx".toList at hinfix
    exact absurd hinfix (by decide)
  exact ⟨hitems, hnone true, hnone false⟩

end Server.Log
