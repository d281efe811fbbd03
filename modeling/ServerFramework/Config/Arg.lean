import ServerFramework.Library.Changes
import ServerFramework.Library.Runs
import Mathlib.Data.Fintype.Basic
import Mathlib.Data.List.Nodup

/-!
# `ConfigArg::setValue` from several threads

The first section of `setValue` compares and notifies the listeners under the read lock, which other
calls may hold at the same time; the second one assigns under the write lock.
-/

namespace Server.Config

open Runs Changes

/-- The keys of `m_cbs` in their order. -/
structure Callbacks (L : Type) where
  ids : List L
  nodup : ids.Nodup

/-- Where a thread is in `setValue(val)`. -/
inductive SetPc (T L : Type) where
  | out
  /-- in the section with the read lock, with the listeners that are still to be called -/
  | notifying (val : T) (rest : List L)
  /-- before the section with the write lock -/
  | assigning (val : T)
  deriving DecidableEq, Repr

/-- A `ConfigArg` with the threads `Θ` that use it, and what its listeners `L` were called with. -/
structure Arg (T L Θ : Type) where
  val : T
  cbs : Callbacks L
  /-- how many threads hold the read lock -/
  readers : Nat
  pc : Θ → SetPc T L
  log : L → List (T × T)

inductive ArgAction (T Θ : Type) where
  /-- the lock, and the comparison -/
  | setValue (t : Θ) (val : T)
  /-- `i.second(m_val, val)` -/
  | notify (t : Θ)
  /-- the end of the first section -/
  | unlock (t : Θ)
  /-- the second section -/
  | assign (t : Θ)
  deriving DecidableEq, Repr

namespace Arg

variable {T L Θ : Type} [DecidableEq T] [DecidableEq L] [DecidableEq Θ]

def setPc (s : Arg T L Θ) (t : Θ) (pc : SetPc T L) : Arg T L Θ :=
  { s with pc := Function.update s.pc t pc }

def call (s : Arg T L Θ) (i : L) (val : T) : Arg T L Θ :=
  { s with log := Function.update s.log i (s.log i ++ [(s.val, val)]) }

def step (s : Arg T L Θ) : ArgAction T Θ → Option (Arg T L Θ)
  | .setValue t val =>
    match s.pc t with
    | .out =>
      if s.val = val then some s
      else some ({ s with readers := s.readers + 1 }.setPc t (.notifying val s.cbs.ids))
    | _ => none
  | .notify t =>
    match s.pc t with
    | .notifying val (i :: rest) => some ((s.call i val).setPc t (.notifying val rest))
    | _ => none
  | .unlock t =>
    match s.pc t with
    | .notifying val [] => some ({ s with readers := s.readers - 1 }.setPc t (.assigning val))
    | _ => none
  | .assign t =>
    match s.pc t with
    | .assigning val => if s.readers = 0 then some ({ s with val := val }.setPc t .out) else none
    | _ => none

/-- Before any call. -/
def start (val : T) (cbs : Callbacks L) : Arg T L Θ := ⟨val, cbs, 0, fun _ ↦ .out, fun _ ↦ []⟩

/-- No call finds a new value while another call that found one has not assigned it yet. -/
def Alone (s : Arg T L Θ) : ArgAction T Θ → Prop
  | .setValue _ val => s.val = val ∨ ∀ t, s.pc t = .out
  | _ => True

/-! ## The invariant -/

/-- What the listeners were told last: in a call, those before its place the new value, the others
the stored one. -/
structure Agrees (init : T) (s : Arg T L Θ) : Prop where
  chained : ∀ i, Chained init (s.log i)
  alone : ∀ t t', s.pc t ≠ .out → s.pc t' ≠ .out → t = t'
  quiet : (∀ t, s.pc t = .out) → ∀ i ∈ s.cbs.ids, final init (s.log i) = s.val
  notifying : ∀ t val rest, s.pc t = .notifying val rest → rest.Nodup ∧
    (∀ i ∈ rest, i ∈ s.cbs.ids ∧ final init (s.log i) = s.val) ∧
    ∀ i ∈ s.cbs.ids, i ∉ rest → final init (s.log i) = val
  assigning : ∀ t val, s.pc t = .assigning val → ∀ i ∈ s.cbs.ids, final init (s.log i) = val

variable {init : T} {s s' : Arg T L Θ} {t : Θ} {val : T}

omit [DecidableEq Θ] [DecidableEq T] [DecidableEq L] in
theorem Agrees.others (h : Agrees init s) (ht : s.pc t ≠ .out) {t' : Θ} (hne : t' ≠ t) :
    s.pc t' = .out := by
  by_contra hout
  exact hne (h.alone t' t hout ht)

omit [DecidableEq T] [DecidableEq L] in
/-- While only the thread `t` is in a call, what is to be shown is about where it is. -/
theorem agrees_of_only {pc : SetPc T L} (hpc : s'.pc = Function.update s.pc t pc)
    (hothers : ∀ t', t' ≠ t → s.pc t' = .out) (hchained : ∀ i, Chained init (s'.log i))
    (hout : pc = .out → ∀ i ∈ s'.cbs.ids, final init (s'.log i) = s'.val)
    (hnotifying : ∀ val rest, pc = .notifying val rest → rest.Nodup ∧
      (∀ i ∈ rest, i ∈ s'.cbs.ids ∧ final init (s'.log i) = s'.val) ∧
      ∀ i ∈ s'.cbs.ids, i ∉ rest → final init (s'.log i) = val)
    (hassigning : ∀ val, pc = .assigning val →
      ∀ i ∈ s'.cbs.ids, final init (s'.log i) = val) : Agrees init s' := by
  have hself : s'.pc t = pc := by rw [hpc, Function.update_self]
  have hother : ∀ t', t' ≠ t → s'.pc t' = .out := by
    intro t' hne
    rw [hpc, Function.update_of_ne hne]
    exact hothers t' hne
  have hat : ∀ t', s'.pc t' ≠ .out → t' = t := by
    intro t' ht'
    by_contra hne
    exact ht' (hother t' hne)
  refine ⟨hchained, fun t₁ t₂ h₁ h₂ ↦ (hat t₁ h₁).trans (hat t₂ h₂).symm, fun hall ↦ ?_, ?_, ?_⟩
  · exact hout (hself ▸ hall t)
  · intro t' val rest ht'
    obtain rfl := hat t' (by rw [ht']; nofun)
    exact hnotifying val rest (hself ▸ ht')
  · intro t' val ht'
    obtain rfl := hat t' (by rw [ht']; nofun)
    exact hassigning val (hself ▸ ht')

omit [DecidableEq T] [DecidableEq L] in
theorem Agrees.setValue (h : Agrees init s) (hall : ∀ t, s.pc t = .out) :
    Agrees init ({ s with readers := s.readers + 1 }.setPc t (.notifying val s.cbs.ids)) := by
  refine agrees_of_only rfl (fun t' _ ↦ hall t') h.chained ?_ ?_ ?_
  · nofun
  · intro val' rest heq
    cases heq
    exact ⟨s.cbs.nodup, fun i hi ↦ ⟨hi, h.quiet hall i hi⟩, fun i hi hni ↦ absurd hi hni⟩
  · nofun

omit [DecidableEq T] in
theorem Agrees.notify (h : Agrees init s) {i : L} {rest : List L}
    (ht : s.pc t = .notifying val (i :: rest)) :
    Agrees init ((s.call i val).setPc t (.notifying val rest)) := by
  obtain ⟨hnodup, hrest, hdone⟩ := h.notifying t val _ ht
  obtain ⟨hi, hnodup⟩ := List.nodup_cons.mp hnodup
  have hself : (s.call i val).log i = s.log i ++ [(s.val, val)] := Function.update_self _ _ _
  have hother : ∀ j, j ≠ i → (s.call i val).log j = s.log j := fun j hj ↦
    Function.update_of_ne hj _ _
  have hold := (hrest i List.mem_cons_self).2
  apply agrees_of_only rfl fun t' hne ↦ h.others (by rw [ht]; nofun) hne
  · intro j
    show Chained init ((s.call i val).log j)
    by_cases hj : j = i
    · rw [hj, hself, chained_concat]
      exact ⟨h.chained i, hold.symm⟩
    · rw [hother j hj]
      exact h.chained j
  · nofun
  · intro val' rest' heq
    cases heq
    refine ⟨hnodup, fun j hj ↦ ?_, fun j hj hnj ↦ ?_⟩
    · have hne : j ≠ i := fun heq ↦ hi (heq ▸ hj)
      show j ∈ s.cbs.ids ∧ final init ((s.call i val).log j) = s.val
      rw [hother j hne]
      exact hrest j (List.mem_cons_of_mem _ hj)
    · show final init ((s.call i val).log j) = val
      by_cases hne : j = i
      · rw [hne, hself, final_concat]
      · rw [hother j hne]
        exact hdone j hj fun hmem ↦ (List.mem_cons.mp hmem).elim hne hnj
  · nofun

omit [DecidableEq T] [DecidableEq L] in
theorem Agrees.unlock (h : Agrees init s) (ht : s.pc t = .notifying val []) :
    Agrees init ({ s with readers := s.readers - 1 }.setPc t (.assigning val)) := by
  refine agrees_of_only rfl (fun t' hne ↦ h.others (by rw [ht]; nofun) hne) h.chained ?_ ?_ ?_
  · nofun
  · nofun
  · intro val' heq i hi
    cases heq
    exact (h.notifying t val [] ht).2.2 i hi List.not_mem_nil

omit [DecidableEq T] [DecidableEq L] in
theorem Agrees.assign (h : Agrees init s) (ht : s.pc t = .assigning val) :
    Agrees init ({ s with val := val }.setPc t .out) := by
  refine agrees_of_only rfl (fun t' hne ↦ h.others (by rw [ht]; nofun) hne) h.chained ?_ ?_ ?_
  · intro _ i hi
    exact h.assigning t val ht i hi
  · nofun
  · nofun

theorem Agrees.step (h : Agrees init s) {a : ArgAction T Θ} (hok : s.Alone a)
    (hs : s.step a = some s') : Agrees init s' := by
  cases a with
  | setValue t val =>
      simp only [Arg.step] at hs
      split at hs
      · split at hs
        · cases hs
          exact h
        · rename_i hne
          cases hs
          exact h.setValue (hok.resolve_left hne)
      · cases hs
  | notify t =>
      simp only [Arg.step] at hs
      split at hs
      · rename_i val i rest ht
        cases hs
        exact h.notify ht
      · cases hs
  | unlock t =>
      simp only [Arg.step] at hs
      split at hs
      · rename_i val ht
        cases hs
        exact h.unlock ht
      · cases hs
  | assign t =>
      simp only [Arg.step] at hs
      split at hs
      · rename_i val ht
        split at hs
        · cases hs
          exact h.assign ht
        · cases hs
      · cases hs

omit [DecidableEq T] [DecidableEq L] [DecidableEq Θ] in
theorem start_agrees (init : T) (cbs : Callbacks L) : Agrees init (start init cbs : Arg T L Θ) :=
  ⟨fun _ ↦ trivial, fun _ _ h ↦ absurd rfl h, fun _ _ _ ↦ rfl, nofun, nofun⟩

/-- The steps in which no two calls overlap between their comparisons and their assignments. -/
def Serial : Arg T L Θ → ArgAction T Θ → Arg T L Θ → Prop := Guarded (Of step) Alone

/-- What each listener is called with are the changes of one variable from the initial value on, and
when all calls have returned, it is told the stored value. -/
theorem notifications_agree {cbs : Callbacks L} {as : List (ArgAction T Θ)}
    (h : Run Serial (start init cbs) as s) :
    (∀ i, Chained init (s.log i)) ∧
      ((∀ t, s.pc t = .out) → ∀ i ∈ s.cbs.ids, final init (s.log i) = s.val) := by
  have hagrees : Agrees init s :=
    h.invariant (fun _ _ _ hs hstep ↦ hs.step hstep.2 hstep.1) (start_agrees init cbs)
  exact ⟨hagrees.chained, hagrees.quiet⟩

/-! ## Runs on fixed inputs -/

instance [Fintype Θ] (s : Arg T L Θ) (a : ArgAction T Θ) : Decidable (s.Alone a) :=
  match a with
  | .setValue _ _ => inferInstanceAs (Decidable (_ ∨ _))
  | .notify _ | .unlock _ | .assign _ => isTrue trivial

/-- Two threads and one listener. -/
abbrev oneListener : Arg Nat Unit Bool := start 0 ⟨[()], by decide⟩

theorem notifications_agree_pair : ∃ s : Arg Nat Unit Bool,
    Run Serial oneListener
      [.setValue true 1, .notify true, .unlock true, .assign true, .setValue false 1,
        .setValue false 2, .notify false, .unlock false, .assign false] s ∧
      Chained 0 (s.log ()) ∧ final 0 (s.log ()) = s.val := by
  obtain ⟨s, h, hP⟩ := exists_run (R := Serial) step (fun s a ↦ decide (s.Alone a))
    (fun _ _ _ hs hok ↦ ⟨hs, of_decide_eq_true hok⟩) oneListener
    [.setValue true 1, .notify true, .unlock true, .assign true, .setValue false 1,
      .setValue false 2, .notify false, .unlock false, .assign false]
    (P := fun s ↦ decide (s.pc true = .out ∧ s.pc false = .out ∧ s.cbs.ids = [()]))
    (by decide +kernel)
  obtain ⟨htrue, hfalse, hids⟩ := of_decide_eq_true hP
  obtain ⟨hchained, hfinal⟩ := notifications_agree h
  refine ⟨s, h, hchained (), hfinal (fun t ↦ ?_) () (by rw [hids]; decide)⟩
  cases t
  · exact hfalse
  · exact htrue

/-- Both calls compare before either assigns: the listener is told of two changes of the initial
value, and in the end of a value that is not the stored one. -/
theorem notifications_disagree : ∃ s : Arg Nat Unit Bool,
    Run (Of step) oneListener
      [.setValue true 1, .setValue false 2, .notify true, .notify false, .unlock true,
        .unlock false, .assign false, .assign true] s ∧
      (∀ t, s.pc t = .out) ∧ ¬ Chained 0 (s.log ()) ∧ final 0 (s.log ()) ≠ s.val := by
  obtain ⟨s, h, hP⟩ := exists_run (R := Of step) step (fun _ _ ↦ true) (fun _ _ _ hs _ ↦ hs)
    oneListener
    [.setValue true 1, .setValue false 2, .notify true, .notify false, .unlock true, .unlock false,
      .assign false, .assign true]
    (P := fun s ↦ decide ((∀ t, s.pc t = .out) ∧ s.log () = [(0, 1), (0, 2)] ∧ s.val = 1))
    (by decide +kernel)
  obtain ⟨hout, hlog, hval⟩ := of_decide_eq_true hP
  refine ⟨s, h, hout, ?_, ?_⟩
  · rw [hlog]
    intro hchained
    cases hchained.2.1
  · rw [hlog, hval]
    decide

end Arg

end Server.Config
