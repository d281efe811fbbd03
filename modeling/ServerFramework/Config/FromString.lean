import ServerFramework.Library.OrderedMap
import Mathlib.Data.Nat.Basic

/-!
# `ConfigArg::fromString` with listeners that may throw

The conversion, the notifications and the assignment happen one after the other, with one handler
around all of them.
-/

namespace Server.Config

/-- A `ConfigArg`: the keys of `m_cbs` are the ids, a listener is whether it throws on a change. -/
structure ConfigArg (T : Type) where
  val : T
  cbs : OrderedMap Nat (T → T → Bool)

/-- One call of a listener. -/
structure Told (T : Type) where
  id : Nat
  oldValue : T
  newValue : T
  deriving DecidableEq, Repr

/-- What a call leaves behind: the argument, the listeners that were called, in their order, and for
`setValue` whether it returned at all, for `fromString` what it returned. -/
structure Outcome (T : Type) where
  arg : ConfigArg T
  told : List (Told T)
  returned : Bool

namespace ConfigArg

variable {T : Type}

/-- The loop over `m_cbs`: who was called, and whether the loop came to its end. -/
def notify (oldValue newValue : T) : List (Nat × (T → T → Bool)) → List (Told T) × Bool
  | [] => ([], true)
  | i :: rest =>
    -- the exception leaves the loop; the callback that throws has been called
    if i.2 oldValue newValue then ([⟨i.1, oldValue, newValue⟩], false)
    else
      let r := notify oldValue newValue rest
      (⟨i.1, oldValue, newValue⟩ :: r.1, r.2)

variable [DecidableEq T]

def setValue (s : ConfigArg T) (val : T) : Outcome T :=
  if s.val = val then ⟨s, [], true⟩
  else
    let r := notify s.val val s.cbs.entries
    if r.2 then ⟨{ s with val := val }, r.1, true⟩ else ⟨s, r.1, false⟩

/-- A conversion that throws is `none`. -/
def fromString (fromStr : String → Option T) (s : ConfigArg T) (text : String) : Outcome T :=
  match fromStr text with
  | none => ⟨s, [], false⟩
  | some val => s.setValue val

/-- Every listener once, in the order of their ids. -/
def everyone (s : ConfigArg T) (val : T) : List (Told T) := s.cbs.keys.map fun i ↦ ⟨i, s.val, val⟩

/-- The value is stored and everyone knows it, or nothing happened. -/
structure AllOrNothing (fromStr : String → Option T) (s : ConfigArg T) (text : String) : Prop where
  all : (s.fromString fromStr text).returned = true → ∃ val, fromStr text = some val ∧
    ((val = s.val ∧ (s.fromString fromStr text).told = []) ∨
      ((s.fromString fromStr text).told = s.everyone val ∧
        (s.fromString fromStr text).arg.val = val))
  nothing : (s.fromString fromStr text).returned = false →
    (s.fromString fromStr text).arg.val = s.val ∧ (s.fromString fromStr text).told = []

/-! ## When it is all or nothing -/

variable {s : ConfigArg T} {val : T} {fromStr : String → Option T} {text : String}

omit [DecidableEq T] in
theorem notify_quiet {oldValue newValue : T} {l : List (Nat × (T → T → Bool))}
    (h : ∀ i ∈ l, i.2 oldValue newValue = false) :
    notify oldValue newValue l = ((l.map Prod.fst).map fun i ↦ ⟨i, oldValue, newValue⟩, true) := by
  induction l with
  | nil => rfl
  | cons i l ih =>
      have hi := h i List.mem_cons_self
      rw [notify, if_neg (by simp [hi]), ih fun j hj ↦ h j (List.mem_cons_of_mem _ hj)]
      rfl

omit [DecidableEq T] in
/-- The one that throws has been called, so somebody has. -/
theorem notify_throws {oldValue newValue : T} {l : List (Nat × (T → T → Bool))}
    (h : ∃ i ∈ l, i.2 oldValue newValue = true) :
    (notify oldValue newValue l).1 ≠ [] ∧ (notify oldValue newValue l).2 = false := by
  induction l with
  | nil =>
      obtain ⟨i, hi, -⟩ := h
      cases hi
  | cons i l ih =>
      rw [notify]
      split
      · exact ⟨List.cons_ne_nil _ _, rfl⟩
      · rename_i hquiet
        obtain ⟨j, hj, hthrows⟩ := h
        have hmem : j ∈ l := by
          rcases List.mem_cons.mp hj with rfl | hj
          · exact absurd hthrows hquiet
          · exact hj
        exact ⟨List.cons_ne_nil _ _, (ih ⟨j, hmem, hthrows⟩).2⟩

theorem setValue_same (h : s.val = val) : s.setValue val = ⟨s, [], true⟩ := if_pos h

theorem setValue_quiet (hne : s.val ≠ val) (h : ∀ i ∈ s.cbs.entries, i.2 s.val val = false) :
    s.setValue val = ⟨{ s with val := val }, s.everyone val, true⟩ := by
  rw [setValue, if_neg hne, notify_quiet h]
  rfl

theorem setValue_throws (hne : s.val ≠ val) (h : ∃ i ∈ s.cbs.entries, i.2 s.val val = true) :
    (s.setValue val).told ≠ [] ∧ (s.setValue val).returned = false := by
  obtain ⟨htold, hthrew⟩ := notify_throws h
  rw [setValue, if_neg hne]
  dsimp only
  rw [if_neg (by rw [hthrew]; exact Bool.false_ne_true)]
  exact ⟨htold, rfl⟩

/-- The call is all or nothing exactly when no listener throws on the change that it makes. -/
theorem allOrNothing_iff (fromStr : String → Option T) (s : ConfigArg T) (text : String) :
    AllOrNothing fromStr s text ↔ ∀ val, fromStr text = some val → val ≠ s.val →
      ∀ i ∈ s.cbs.entries, i.2 s.val val = false := by
  constructor
  · intro h val hval hne i hi
    -- a listener that throws has been called, and the call returns false
    by_contra hthrows
    obtain ⟨htold, hreturned⟩ := setValue_throws (Ne.symm hne)
      ⟨i, hi, eq_true_of_ne_false hthrows⟩
    have heq : s.fromString fromStr text = s.setValue val := by
      rw [fromString, hval]
    rw [← heq] at htold hreturned
    exact htold (h.nothing hreturned).2
  · intro h
    cases hval : fromStr text with
    | none =>
        have heq : s.fromString fromStr text = ⟨s, [], false⟩ := by
          rw [fromString, hval]
        refine ⟨fun hreturned ↦ ?_, fun _ ↦ ?_⟩
        · rw [heq] at hreturned
          cases hreturned
        · rw [heq]
          exact ⟨rfl, rfl⟩
    | some val =>
        have heq : s.fromString fromStr text = s.setValue val := by
          rw [fromString, hval]
        by_cases hsame : s.val = val
        · rw [setValue_same hsame] at heq
          refine ⟨fun _ ↦ ⟨val, hval, .inl ⟨hsame.symm, by rw [heq]⟩⟩, fun hreturned ↦ ?_⟩
          rw [heq] at hreturned
          cases hreturned
        · rw [setValue_quiet hsame (h val hval (Ne.symm hsame))] at heq
          refine ⟨fun _ ↦ ⟨val, hval, .inr ?_⟩, fun hreturned ↦ ?_⟩
          · rw [heq]
            exact ⟨rfl, rfl⟩
          · rw [heq] at hreturned
            cases hreturned

/-- The first listener takes every change, the second one refuses negative values. -/
def guardedArg : ConfigArg Int :=
  ⟨1, ⟨[(1, fun _ _ ↦ false), (2, fun _ val ↦ decide (val < 0))], by decide⟩⟩

/-- What `lexical_cast<int>` makes of the text of the example. -/
def minusFive (text : String) : Option Int := if text = "-5" then some (-5) else none

/-- The value -5 is refused by the second listener, after the first one has acted on it. -/
theorem not_allOrNothing :
    (guardedArg.fromString minusFive "-5").told = [⟨1, 1, -5⟩, ⟨2, 1, -5⟩] ∧
      (guardedArg.fromString minusFive "-5").arg.val = 1 ∧
      ¬ AllOrNothing minusFive guardedArg "-5" := by
  refine ⟨by decide, by decide, fun h ↦ ?_⟩
  have htold := (h.nothing (by decide)).2
  exact absurd htold (by decide)

end ConfigArg

end Server.Config
