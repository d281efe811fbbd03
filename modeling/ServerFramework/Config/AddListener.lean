import ServerFramework.Library.OrderedMap
import ServerFramework.Library.Runs
import Mathlib.Data.Fintype.Basic
import Mathlib.Algebra.Group.Nat.Defs

/-!
# `ConfigArg::addListener` from several threads

The counter `funcId` is a static of the class, so it is shared by all arguments of one type. The read
lock of the argument excludes no other registration, and the counter is read again after it was
incremented: once for the insertion and once for the result.
-/

namespace Server.Config

open Runs

/-- Where a thread is in `addListener(cb)` of the argument `arg`. -/
inductive AddPc (A C : Type) where
  | out
  /-- before `m_cbs[funcId] = cb` -/
  | incremented (arg : A) (cb : C)
  /-- before `return funcId` -/
  | inserted (arg : A) (cb : C)
  deriving DecidableEq, Repr

/-- A call that has returned. -/
structure Registered (A C : Type) where
  arg : A
  cb : C
  id : Nat
  deriving DecidableEq, Repr

/-- The arguments `A` of one type, the threads `Θ`, and the callbacks `C`. -/
structure Listeners (A C Θ : Type) where
  funcId : Nat
  cbs : A → OrderedMap Nat C
  pc : Θ → AddPc A C
  returned : List (Registered A C)

inductive AddAction (A C Θ : Type) where
  /-- the lock, and `funcId++` -/
  | addListener (t : Θ) (arg : A) (cb : C)
  | insert (t : Θ)
  | ret (t : Θ)
  deriving DecidableEq, Repr

namespace Listeners

variable {A C Θ : Type} [DecidableEq A] [DecidableEq Θ]

def setPc (s : Listeners A C Θ) (t : Θ) (pc : AddPc A C) : Listeners A C Θ :=
  { s with pc := Function.update s.pc t pc }

/-- The increment of a `uint64_t`. -/
def increment (s : Listeners A C Θ) : Listeners A C Θ := { s with funcId := (s.funcId + 1) % 2 ^ 64 }

def store (s : Listeners A C Θ) (arg : A) (cb : C) : Listeners A C Θ :=
  { s with cbs := Function.update s.cbs arg ((s.cbs arg).set s.funcId cb) }

def answer (s : Listeners A C Θ) (arg : A) (cb : C) : Listeners A C Θ :=
  { s with returned := s.returned ++ [⟨arg, cb, s.funcId⟩] }

def step (s : Listeners A C Θ) : AddAction A C Θ → Option (Listeners A C Θ)
  | .addListener t arg cb =>
    match s.pc t with
    | .out => some (s.increment.setPc t (.incremented arg cb))
    | _ => none
  | .insert t =>
    match s.pc t with
    | .incremented arg cb => some ((s.store arg cb).setPc t (.inserted arg cb))
    | _ => none
  | .ret t =>
    match s.pc t with
    | .inserted arg cb => some ((s.answer arg cb).setPc t .out)
    | _ => none

/-- Before any call. -/
def start : Listeners A C Θ := ⟨0, fun _ ↦ .empty, fun _ ↦ .out, []⟩

/-- A call increments the counter while no other call of the type is between its increment and its
return, and the counter does not wrap. -/
def Alone (s : Listeners A C Θ) : AddAction A C Θ → Prop
  | .addListener _ _ _ => (∀ t, s.pc t = .out) ∧ s.funcId + 1 < 2 ^ 64
  | _ => True

/-! ## What is lost -/

/-- The ids are distinct, every callback is where its caller will look for it, and the insertion that
comes next replaces nothing. -/
structure LosesNothing (s : Listeners A C Θ) : Prop where
  distinct : s.returned.Pairwise fun r r' ↦ r.id ≠ r'.id
  stored : ∀ r ∈ s.returned, (s.cbs r.arg).find r.id = some r.cb
  kept : ∀ t arg cb, s.pc t = .incremented arg cb → (s.cbs arg).find s.funcId = none

/-- The only call that is going on has the counter for itself, the others got less. -/
structure Fresh (s : Listeners A C Θ) : Prop where
  alone : ∀ t t', s.pc t ≠ .out → s.pc t' ≠ .out → t = t'
  below : ∀ arg k, s.funcId < k → (s.cbs arg).find k = none
  given : ∀ r ∈ s.returned, r.id ≤ s.funcId
  distinct : s.returned.Pairwise fun r r' ↦ r.id ≠ r'.id
  stored : ∀ r ∈ s.returned, (s.cbs r.arg).find r.id = some r.cb
  unused : ∀ t arg cb, s.pc t = .incremented arg cb → ∀ arg', (s.cbs arg').find s.funcId = none
  placed : ∀ t arg cb, s.pc t = .inserted arg cb → (s.cbs arg).find s.funcId = some cb
  ahead : ∀ t, s.pc t ≠ .out → ∀ r ∈ s.returned, r.id < s.funcId

variable {s s' : Listeners A C Θ} {t : Θ} {arg : A} {cb : C}

omit [DecidableEq A] [DecidableEq Θ] in
theorem Fresh.losesNothing (h : Fresh s) : LosesNothing s :=
  ⟨h.distinct, h.stored, fun t arg cb ht ↦ h.unused t arg cb ht arg⟩

omit [DecidableEq A] in
theorem pc_of_update {pc : AddPc A C} (hpc : s'.pc = Function.update s.pc t pc) (t' : Θ) :
    t' = t ∧ s'.pc t' = pc ∨ t' ≠ t ∧ s'.pc t' = s.pc t' := by
  rw [hpc]
  by_cases ht : t' = t
  · rw [ht, Function.update_self]
    exact .inl ⟨rfl, rfl⟩
  · rw [Function.update_of_ne ht]
    exact .inr ⟨ht, rfl⟩

omit [DecidableEq A] in
/-- While only the thread `t` is in a call, what is to be shown of the threads is about where it is. -/
theorem fresh_of_only {pc : AddPc A C} (hpc : s'.pc = Function.update s.pc t pc)
    (hothers : ∀ t', t' ≠ t → s.pc t' = .out)
    (hbelow : ∀ arg k, s'.funcId < k → (s'.cbs arg).find k = none)
    (hgiven : ∀ r ∈ s'.returned, r.id ≤ s'.funcId)
    (hdistinct : s'.returned.Pairwise fun r r' ↦ r.id ≠ r'.id)
    (hstored : ∀ r ∈ s'.returned, (s'.cbs r.arg).find r.id = some r.cb)
    (hunused : ∀ arg cb, pc = .incremented arg cb → ∀ arg', (s'.cbs arg').find s'.funcId = none)
    (hplaced : ∀ arg cb, pc = .inserted arg cb → (s'.cbs arg).find s'.funcId = some cb)
    (hahead : pc ≠ .out → ∀ r ∈ s'.returned, r.id < s'.funcId) : Fresh s' := by
  have hat : ∀ t', s'.pc t' ≠ .out → t' = t ∧ s'.pc t' = pc := by
    intro t' ht'
    rcases pc_of_update hpc t' with h | ⟨hne, hkept⟩
    · exact h
    · rw [hkept, hothers t' hne] at ht'
      exact absurd rfl ht'
  refine ⟨fun t₁ t₂ h₁ h₂ ↦ (hat t₁ h₁).1.trans (hat t₂ h₂).1.symm, hbelow, hgiven, hdistinct,
    hstored, fun t' arg cb ht' ↦ ?_, fun t' arg cb ht' ↦ ?_, fun t' ht' ↦ ?_⟩
  · exact hunused arg cb (((hat t' (by rw [ht']; nofun)).2).symm.trans ht')
  · exact hplaced arg cb (((hat t' (by rw [ht']; nofun)).2).symm.trans ht')
  · exact hahead ((hat t' ht').2 ▸ ht')

omit [DecidableEq A] [DecidableEq Θ] in
theorem Fresh.others (h : Fresh s) (ht : s.pc t ≠ .out) {t' : Θ} (hne : t' ≠ t) :
    s.pc t' = .out := by
  by_contra hout
  exact hne (h.alone t' t hout ht)

omit [DecidableEq A] in
theorem Fresh.increment (h : Fresh s) (hall : ∀ t, s.pc t = .out) (hwrap : s.funcId + 1 < 2 ^ 64) :
    Fresh (s.increment.setPc t (.incremented arg cb)) := by
  have hid : (s.increment.setPc t (.incremented arg cb)).funcId = s.funcId + 1 :=
    Nat.mod_eq_of_lt hwrap
  apply fresh_of_only (s := s) rfl fun t' _ ↦ hall t'
  · intro arg k hk
    rw [hid] at hk
    exact h.below arg k (by omega)
  · intro r hr
    rw [hid]
    exact Nat.le_succ_of_le (h.given r hr)
  · exact h.distinct
  · exact h.stored
  · intro _ _ _ arg'
    rw [hid]
    exact h.below arg' _ (Nat.lt_succ_self _)
  · nofun
  · intro _ r hr
    rw [hid]
    exact Nat.lt_succ_of_le (h.given r hr)

/-- The entry is put at a key that nothing was stored under before. -/
theorem Fresh.insert (h : Fresh s) (ht : s.pc t = .incremented arg cb) :
    Fresh ((s.store arg cb).setPc t (.inserted arg cb)) := by
  have hat : s.pc t ≠ .out := by rw [ht]; nofun
  have hother : ∀ arg' k, k ≠ s.funcId →
      ((s.store arg cb).cbs arg').find k = (s.cbs arg').find k := by
    intro arg' k hk
    show (Function.update s.cbs arg _ arg').find k = _
    by_cases harg : arg' = arg
    · subst harg
      rw [Function.update_self, OrderedMap.find_set_ne hk]
    · rw [Function.update_of_ne harg]
  apply fresh_of_only (s := s) rfl fun t' hne ↦ h.others hat hne
  · intro arg' k hk
    exact (hother arg' k (Nat.ne_of_gt hk)).trans (h.below arg' k hk)
  · exact h.given
  · exact h.distinct
  · intro r hr
    exact (hother r.arg r.id (Nat.ne_of_lt (h.ahead t hat r hr))).trans (h.stored r hr)
  · nofun
  · intro arg' cb' heq
    cases heq
    show (Function.update s.cbs arg _ arg).find s.funcId = some cb
    rw [Function.update_self, OrderedMap.find_set_self]
  · intro _ r hr
    exact h.ahead t hat r hr

omit [DecidableEq A] in
theorem Fresh.ret (h : Fresh s) (ht : s.pc t = .inserted arg cb) :
    Fresh ((s.answer arg cb).setPc t .out) := by
  have hat : s.pc t ≠ .out := by rw [ht]; nofun
  apply fresh_of_only (s := s) rfl fun t' hne ↦ h.others hat hne
  · exact h.below
  · intro r hr
    rcases List.mem_append.mp hr with hr | hr
    · exact h.given r hr
    · rw [List.mem_singleton.mp hr]
      exact Nat.le_refl _
  · refine List.pairwise_append.mpr ⟨h.distinct, List.pairwise_singleton _ _, fun r hr r' hr' ↦ ?_⟩
    rw [List.mem_singleton.mp hr']
    exact Nat.ne_of_lt (h.ahead t hat r hr)
  · intro r hr
    rcases List.mem_append.mp hr with hr | hr
    · exact h.stored r hr
    · rw [List.mem_singleton.mp hr]
      exact h.placed t arg cb ht
  · nofun
  · nofun
  · exact fun hout ↦ absurd rfl hout

theorem Fresh.step (h : Fresh s) {a : AddAction A C Θ} (hok : s.Alone a) (hs : s.step a = some s') :
    Fresh s' := by
  cases a with
  | addListener t arg cb =>
      simp only [Listeners.step] at hs
      split at hs
      · cases hs
        exact h.increment hok.1 hok.2
      · cases hs
  | insert t =>
      simp only [Listeners.step] at hs
      split at hs
      · rename_i arg cb ht
        cases hs
        exact h.insert ht
      · cases hs
  | ret t =>
      simp only [Listeners.step] at hs
      split at hs
      · rename_i arg cb ht
        cases hs
        exact h.ret ht
      · cases hs

omit [DecidableEq A] [DecidableEq Θ] in
theorem start_fresh : Fresh (start : Listeners A C Θ) :=
  ⟨fun _ _ h ↦ absurd rfl h, fun _ _ _ ↦ OrderedMap.find_empty, nofun, .nil, nofun, nofun, nofun,
    nofun⟩

/-- The steps in which every call has the counter for itself. -/
def Serial : Listeners A C Θ → AddAction A C Θ → Listeners A C Θ → Prop := Guarded (Of step) Alone

/-- While no two registrations of the type overlap, none of them is lost. -/
theorem registrations_kept {as : List (AddAction A C Θ)} (h : Run Serial start as s) :
    LosesNothing s :=
  (h.invariant (fun _ _ _ hs hstep ↦ hs.step hstep.2 hstep.1) start_fresh).losesNothing

/-! ## Runs on fixed inputs -/

instance decidableAlone [Fintype Θ] [DecidableEq C] (s : Listeners A C Θ) (a : AddAction A C Θ) :
    Decidable (s.Alone a) :=
  match a with
  | .addListener _ _ _ => inferInstanceAs (Decidable (_ ∧ _))
  | .insert _ | .ret _ => isTrue trivial

/-- Two arguments, two callbacks and two threads. -/
abbrev twoThreads : Listeners Bool Char Bool := start

theorem registrations_kept_pair : ∃ s : Listeners Bool Char Bool,
    Run Serial twoThreads [.addListener true true 'a', .insert true, .ret true,
      .addListener false true 'b', .insert false, .ret false] s ∧
      s.returned = [⟨true, 'a', 1⟩, ⟨true, 'b', 2⟩] ∧ LosesNothing s := by
  obtain ⟨s, h, hP⟩ := exists_run (R := Serial) step (fun s a ↦ decide (s.Alone a))
    (fun _ _ _ hs hok ↦ ⟨hs, of_decide_eq_true hok⟩) twoThreads
    [.addListener true true 'a', .insert true, .ret true, .addListener false true 'b',
      .insert false, .ret false]
    (P := fun s ↦ decide (s.returned = [⟨true, 'a', 1⟩, ⟨true, 'b', 2⟩])) (by decide +kernel)
  exact ⟨s, h, of_decide_eq_true hP, registrations_kept h⟩

/-- Both calls increment before either inserts: both get the id 2, under which only the second
callback is stored. -/
theorem registration_lost : ∃ s : Listeners Bool Char Bool,
    Run (Of step) twoThreads [.addListener true true 'a', .addListener false true 'b',
      .insert true, .insert false, .ret true, .ret false] s ∧
      s.returned = [⟨true, 'a', 2⟩, ⟨true, 'b', 2⟩] ∧ (s.cbs true).entries = [(2, 'b')] ∧
      ¬ LosesNothing s := by
  obtain ⟨s, h, hP⟩ := exists_run (R := Of step) step (fun _ _ ↦ true) (fun _ _ _ hs _ ↦ hs)
    twoThreads
    [.addListener true true 'a', .addListener false true 'b', .insert true, .insert false,
      .ret true, .ret false]
    (P := fun s ↦ decide (s.returned = [⟨true, 'a', 2⟩, ⟨true, 'b', 2⟩] ∧
      (s.cbs true).entries = [(2, 'b')])) (by decide +kernel)
  obtain ⟨hreturned, hcbs⟩ := of_decide_eq_true hP
  refine ⟨s, h, hreturned, hcbs, fun hkept ↦ ?_⟩
  have hdistinct := hkept.distinct
  rw [hreturned] at hdistinct
  exact absurd hdistinct (by decide)

end Listeners

end Server.Config
