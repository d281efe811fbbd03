import Mathlib.Data.BitVec
import Mathlib.Tactic.IntervalCases

/-!
# Event masks of the IOManager

`IOManager::Event` is an `int` enumeration whose `READ` and `WRITE` are the epoll bits `EPOLLIN` and
`EPOLLOUT`.  `FdContext::events` only ever holds a union of the two, which `EventSet` keeps as a
field; the words handed to and received from the kernel stay arbitrary.
-/

namespace Server.IOManager

abbrev Word := BitVec 32

def EPOLLIN : Word := 0x1#32
def EPOLLOUT : Word := 0x4#32
def EPOLLERR : Word := 0x8#32
def EPOLLHUP : Word := 0x10#32
def EPOLLET : Word := 0x80000000#32

def NONE : Word := 0x0#32
def READ : Word := 0x1#32
def WRITE : Word := 0x4#32

/-- The events a call can name.  `getContext` asserts on every other value of the enumeration. -/
inductive Event where
  | read
  | write
  deriving DecidableEq, Repr

def Event.word : Event → Word
  | .read => READ
  | .write => WRITE

/-- The value of `FdContext::events`. -/
structure EventSet where
  word : Word
  valid : word &&& ~~~(READ ||| WRITE) = 0#32
  deriving DecidableEq

namespace EventSet

theorem word_split (w m : Word) : w = (w &&& m) ||| (w &&& ~~~m) := by
  ext i hi
  simp only [BitVec.getElem_or, BitVec.getElem_and, BitVec.getElem_not, ← Bool.and_or_distrib_left,
    Bool.or_not_self, Bool.and_true]

/-- A word without bits outside `READ | WRITE` is one of four words. -/
theorem word_cases (w : Word) (h : w &&& ~~~(READ ||| WRITE) = 0#32) :
    w = 0#32 ∨ w = 1#32 ∨ w = 4#32 ∨ w = 5#32 := by
  have hm : w = w &&& 5#32 := by
    have hs := word_split w (READ ||| WRITE)
    rw [h] at hs
    simpa [READ, WRITE] using hs
  have hle : w.toNat ≤ 5 := by
    have hand : (w &&& 5#32).toNat ≤ 5 := by
      rw [BitVec.toNat_and]
      exact Nat.and_le_right
    rwa [← hm] at hand
  have hw : w = BitVec.ofNat 32 w.toNat := by simp
  -- six values are left, and the mask rules out two of them
  generalize w.toNat = n at hle hw
  subst hw
  interval_cases n <;> revert hm <;> decide

def none : EventSet := ⟨NONE, by decide⟩
def readOnly : EventSet := ⟨READ, by decide⟩
def writeOnly : EventSet := ⟨WRITE, by decide⟩
def both : EventSet := ⟨READ ||| WRITE, by decide⟩

theorem eq_cases (s : EventSet) : s = none ∨ s = readOnly ∨ s = writeOnly ∨ s = both := by
  obtain ⟨w, hw⟩ := s
  rcases word_cases w hw with rfl | rfl | rfl | rfl
  · exact .inl rfl
  · exact .inr (.inl rfl)
  · exact .inr (.inr (.inl rfl))
  · exact .inr (.inr (.inr rfl))

/-- `static_cast<Event>(events | event)` -/
def insert (s : EventSet) (e : Event) : EventSet where
  word := s.word ||| e.word
  valid := by
    rcases s.eq_cases with rfl | rfl | rfl | rfl <;> cases e <;> decide

/-- `static_cast<Event>(events & ~event)` -/
def erase (s : EventSet) (e : Event) : EventSet where
  word := s.word &&& ~~~e.word
  valid := by
    rcases s.eq_cases with rfl | rfl | rfl | rfl <;> cases e <;> decide

/-- `events & ~mask` -/
def diff (s t : EventSet) : EventSet where
  word := s.word &&& ~~~t.word
  valid := by
    rcases s.eq_cases with rfl | rfl | rfl | rfl <;>
      rcases t.eq_cases with rfl | rfl | rfl | rfl <;> decide

/-- `events & event`, as a condition -/
def has (s : EventSet) (e : Event) : Bool := s.word &&& e.word != 0#32

/-- The number of bits set in the mask. -/
def count (s : EventSet) : Nat := (s.has .read).toNat + (s.has .write).toNat

@[simp] theorem has_none (e : Event) : none.has e = false := by cases e <;> decide

theorem has_insert (s : EventSet) (e e' : Event) :
    (s.insert e).has e' = (s.has e' || decide (e = e')) := by
  rcases s.eq_cases with rfl | rfl | rfl | rfl <;> cases e <;> cases e' <;> decide

theorem has_erase (s : EventSet) (e e' : Event) :
    (s.erase e).has e' = (s.has e' && decide (e ≠ e')) := by
  rcases s.eq_cases with rfl | rfl | rfl | rfl <;> cases e <;> cases e' <;> decide

theorem has_diff (s t : EventSet) (e : Event) : (s.diff t).has e = (s.has e && !t.has e) := by
  rcases s.eq_cases with rfl | rfl | rfl | rfl <;>
    rcases t.eq_cases with rfl | rfl | rfl | rfl <;> cases e <;> decide

theorem eq_of_has {s t : EventSet} (h : ∀ e, s.has e = t.has e) : s = t := by
  have hread := h .read
  have hwrite := h .write
  revert hread hwrite
  rcases s.eq_cases with rfl | rfl | rfl | rfl <;>
    rcases t.eq_cases with rfl | rfl | rfl | rfl <;> decide

theorem word_ne_none_iff (s : EventSet) : s.word ≠ NONE ↔ ∃ e, s.has e = true := by
  have hr : (∃ e, s.has e = true) ↔ s.has .read = true ∨ s.has .write = true :=
    ⟨fun ⟨e, he⟩ ↦ by cases e; exacts [.inl he, .inr he],
      fun h ↦ h.elim (fun h ↦ ⟨_, h⟩) fun h ↦ ⟨_, h⟩⟩
  rw [hr]
  rcases s.eq_cases with rfl | rfl | rfl | rfl <;> decide

theorem and_word_eq_zero_iff (s t : EventSet) :
    s.word &&& t.word = 0#32 ↔ ∀ e, s.has e = true → t.has e = false := by
  -- the right-hand side becomes decidable for each of the sixteen pairs of sets
  have hr : ∀ P : Event → Prop, (∀ e, P e) ↔ P .read ∧ P .write := fun P ↦
    ⟨fun h ↦ ⟨h _, h _⟩, fun h e ↦ by cases e; exacts [h.1, h.2]⟩
  rw [hr]
  rcases s.eq_cases with rfl | rfl | rfl | rfl <;>
    rcases t.eq_cases with rfl | rfl | rfl | rfl <;> decide

theorem count_none : none.count = 0 := by decide

theorem count_eq_zero_iff (s : EventSet) : s.count = 0 ↔ s.word = 0#32 := by
  rcases s.eq_cases with rfl | rfl | rfl | rfl <;> decide

theorem count_le (s : EventSet) : s.count ≤ 2 := by
  rcases s.eq_cases with rfl | rfl | rfl | rfl <;> decide

theorem count_insert (s : EventSet) (e : Event) (h : s.has e = false) :
    (s.insert e).count = s.count + 1 := by
  revert h
  rcases s.eq_cases with rfl | rfl | rfl | rfl <;> cases e <;> decide

theorem count_erase (s : EventSet) (e : Event) (h : s.has e = true) :
    (s.erase e).count + 1 = s.count := by
  revert h
  rcases s.eq_cases with rfl | rfl | rfl | rfl <;> cases e <;> decide

theorem erase_of_not_has (s : EventSet) (e : Event) (h : s.has e = false) : s.erase e = s := by
  revert h
  rcases s.eq_cases with rfl | rfl | rfl | rfl <;> cases e <;> decide

/-- `|` instead of `&` in the test of `delEvent` never sees a zero. -/
theorem or_word_ne_zero (s : EventSet) (e : Event) : s.word ||| e.word ≠ 0#32 := by
  rcases s.eq_cases with rfl | rfl | rfl | rfl <;> cases e <;> decide

end EventSet

end Server.IOManager
