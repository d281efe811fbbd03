import ServerFramework.Library.Counter
import ServerFramework.Library.Runs
import ServerFramework.Library.SharedLocks

/-!
# Scoped locks

The mutexes of `mutex.hpp` and the guards that threads hold them with.  A lock counts its readers and
knows whether it has a writer, and a `CASLock` is one flag; all else is in the guards, of which every
thread has a stack of its own.
-/

namespace Server.Guards

open Runs Counter SharedLocks

/-- The locks of `mutex.hpp`. -/
inductive Kind where
  | mutex
  | rwMutex
  | spinlock
  | casLock
  deriving DecidableEq, Repr

/-- A lock.  Only an `RWMutex` has readers, and only there it matters who the writer is. -/
structure Cell (T : Type) where
  readers : Nat
  writer : Option T
  deriving DecidableEq, Repr

namespace Cell

variable {T : Type}

def free : Cell T := ⟨0, none⟩

variable [DecidableEq T]

/-- `rdlock`, or else `lock` and `wrlock`, which are one; `none` is a caller that is not let in
yet. -/
def lock (kind : Kind) (t : T) (c : Cell T) (mode : Mode) : Option (Cell T) :=
  -- `pthread_rwlock` answers its own writer `EDEADLK` at once, and `RWMutex` drops the answer
  if kind = .rwMutex ∧ c.writer = some t then some c
  else
    match mode with
    | .shared => if c.writer.isSome then none else some { c with readers := c.readers + 1 }
    | .exclusive =>
      if c.writer.isSome || c.readers != 0 then none else some { c with writer := some t }

/-- `unlock`, which is for the writer if it is he who calls. -/
def unlock (t : T) (c : Cell T) : Cell T :=
  if c.writer = some t then { c with writer := none } else { c with readers := c.readers - 1 }

end Cell

/-- An iteration of the loop of `CASLock::lock`: `test_and_set` returns the flag, and sets it; the
loop ends when the flag was clear. -/
def testAndSet (flag : Bool) : Bool × Bool := (flag, true)

/-- The loop goes on exactly while a `lock` would not let the caller in, and leaves the flag as it
is. -/
theorem lock_of_testAndSet {T : Type} [DecidableEq T] (t : T) (writer : Option T) :
    (Cell.lock .casLock t ⟨0, writer⟩ .exclusive).map (fun c ↦ (c.readers, c.writer.isSome)) =
      if (testAndSet writer.isSome).1 then none else some (0, (testAndSet writer.isSome).2) := by
  cases writer <;> rfl

theorem testAndSet_again (flag : Bool) (h : (testAndSet flag).1 = true) :
    (testAndSet flag).2 = flag := by
  cases flag with
  | false => cases h
  | true => rfl

/-- A `ScopedLock`, `ScopedRdLock` or `ScopedWriteLock`. -/
structure Guard (M : Type) where
  /-- `m_mutex` -/
  mutex : M
  mode : Mode
  /-- `m_locked` -/
  locked : Bool
  deriving DecidableEq, Repr

namespace Guard

variable {T M : Type} [DecidableEq T]

def lock (kind : Kind) (t : T) (g : Guard M) (c : Cell T) : Option (Guard M × Cell T) :=
  if g.locked then some (g, c)
  else (c.lock kind t g.mode).map fun c ↦ ({ g with locked := true }, c)

def unlock (t : T) (g : Guard M) (c : Cell T) : Guard M × Cell T :=
  if g.locked then ({ g with locked := false }, c.unlock t) else (g, c)

/-- The constructor. -/
def make (kind : Kind) (t : T) (m : M) (mode : Mode) (c : Cell T) : Option (Guard M × Cell T) :=
  (c.lock kind t mode).map fun c ↦ (⟨m, mode, true⟩, c)

end Guard

/-- What a thread does with its guards, the newest first.  A scope that is left, by an exception or
not, destroys them in this order. -/
inductive Act (T M : Type) where
  | make (t : T) (m : M) (mode : Mode)
  | lock (t : T) (i : Nat)
  | unlock (t : T) (i : Nat)
  | destroy (t : T)
  deriving DecidableEq, Repr

structure State (T M : Type) where
  cell : M → Cell T
  guards : T → List (Guard M)

namespace State

variable {T M : Type}

def start : State T M := ⟨fun _ ↦ .free, fun _ ↦ []⟩

variable [DecidableEq T] [DecidableEq M]

/-- After a thread has come to have these guards, and a lock to be like this. -/
def put (s : State T M) (t : T) (gs : List (Guard M)) (m : M) (c : Cell T) : State T M :=
  ⟨Function.update s.cell m c, Function.update s.guards t gs⟩

def step (kind : M → Kind) (s : State T M) : Act T M → Option (State T M)
  | .make t m mode =>
    (Guard.make (kind m) t m mode (s.cell m)).map fun (g, c) ↦ s.put t (g :: s.guards t) m c
  | .lock t i =>
    (s.guards t)[i]?.bind fun g ↦
      (g.lock (kind g.mutex) t (s.cell g.mutex)).map fun (g', c) ↦
        s.put t ((s.guards t).set i g') g.mutex c
  | .unlock t i =>
    (s.guards t)[i]?.map fun g ↦
      let (g', c) := g.unlock t (s.cell g.mutex)
      s.put t ((s.guards t).set i g') g.mutex c
  | .destroy t =>
    match s.guards t with
    | [] => none
    | g :: gs => some (s.put t gs g.mutex (g.unlock t (s.cell g.mutex)).2)

end State

/-! ## The guards alone -/

/-- No guard keeps others from the lock. -/
def Free {T M : Type} (guards : T → List (Guard M)) (m : M) (mode : Mode) : Prop :=
  ∀ t, ∀ g ∈ guards t, g.locked = true → g.mutex = m → mode = .shared ∧ g.mode = .shared

instance {T M : Type} [Fintype T] [DecidableEq M] (guards : T → List (Guard M)) (m : M) (mode : Mode) :
    Decidable (Free guards m mode) :=
  inferInstanceAs (Decidable (∀ t, ∀ g ∈ guards t, g.locked = true → g.mutex = m → _))

/-- The guards as they would be if each lock asked them. -/
def ideal {T M : Type} [Fintype T] [DecidableEq T] [DecidableEq M] (guards : T → List (Guard M)) :
    Act T M → Option (T → List (Guard M))
  | .make t m mode =>
    if Free guards m mode then some (Function.update guards t (⟨m, mode, true⟩ :: guards t)) else none
  | .lock t i =>
    (guards t)[i]?.bind fun g ↦
      if g.locked = true ∨ Free guards g.mutex g.mode then
        some (Function.update guards t ((guards t).set i { g with locked := true }))
      else none
  | .unlock t i =>
    (guards t)[i]?.map fun g ↦ Function.update guards t ((guards t).set i { g with locked := false })
  | .destroy t =>
    match guards t with
    | [] => none
    | _ :: gs => some (Function.update guards t gs)

/-! ## Asking again -/

/-- The thread has the lock for itself. -/
def Owns {T M : Type} (guards : T → List (Guard M)) (t : T) (m : M) : Prop :=
  ∃ g ∈ guards t, g.locked = true ∧ g.mutex = m ∧ g.mode = .exclusive

instance {T M : Type} [DecidableEq M] (guards : T → List (Guard M)) (t : T) (m : M) :
    Decidable (Owns guards t m) :=
  inferInstanceAs (Decidable (∃ g ∈ guards t, _))

/-- The thread asks an `RWMutex` that it has for itself. -/
def Again {T M : Type} (kind : M → Kind) (guards : T → List (Guard M)) : Act T M → Prop
  | .make t m _ => kind m = .rwMutex ∧ Owns guards t m
  | .lock t i =>
    ∃ g ∈ (guards t)[i]?, g.locked = false ∧ kind g.mutex = .rwMutex ∧ Owns guards t g.mutex
  | .unlock _ _ | .destroy _ => False

instance {T M : Type} [DecidableEq M] (kind : M → Kind) (guards : T → List (Guard M)) (a : Act T M) :
    Decidable (Again kind guards a) := by
  cases a <;> unfold Again <;> infer_instance

/-- No step of the sequence asks again. -/
def Apart {T M : Type} [DecidableEq T] [DecidableEq M] (kind : M → Kind) :
    State T M → List (Act T M) → Prop
  | _, [] => True
  | s, a :: as => ¬ Again kind s.guards a ∧ ∀ s', s.step kind a = some s' → Apart kind s' as

/-! ## What the cells count -/

section

variable {T M : Type} [DecidableEq M] {g : Guard M} {m m' : M} {mode : Mode}

def Guard.holds (m : M) (mode : Mode) (g : Guard M) : Nat :=
  if g.locked = true ∧ g.mutex = m ∧ g.mode = mode then 1 else 0

theorem Guard.holds_ne (h : g.mutex ≠ m) : g.holds m mode = 0 :=
  if_neg fun ⟨_, hm, _⟩ ↦ h hm

theorem Guard.holds_eq_zero_iff :
    g.holds m mode = 0 ↔ (g.locked = true → g.mutex = m → g.mode ≠ mode) := by
  unfold holds
  split <;> simp_all

section

variable [Fintype T] {guards : T → List (Guard M)} {t : T}

/-- How many guards hold the lock in the mode. -/
def total (guards : T → List (Guard M)) (m : M) (mode : Mode) : Nat :=
  ∑ t, ((guards t).map (Guard.holds m mode)).sum

theorem total_eq_zero_iff : total guards m mode = 0 ↔ ∀ t, ∀ g ∈ guards t, g.holds m mode = 0 := by
  unfold total
  rw [Finset.sum_eq_zero_iff]
  simp only [Finset.mem_univ, true_implies, sum_map_eq_zero_iff]

theorem holds_le_total (hg : g ∈ guards t) : g.holds m mode ≤ total guards m mode := by
  by_cases hzero : total guards m mode = 0
  · exact (total_eq_zero_iff.mp hzero t g hg).trans_le (Nat.zero_le _)
  · have hone : g.holds m mode ≤ 1 := by
      unfold Guard.holds
      split <;> omega
    omega

theorem free_exclusive_iff :
    Free guards m .exclusive ↔ total guards m .shared = 0 ∧ total guards m .exclusive = 0 := by
  simp only [total_eq_zero_iff, Guard.holds_eq_zero_iff]
  constructor
  · intro h
    exact ⟨fun t g hg hl hm _ ↦ absurd (h t g hg hl hm).1 nofun,
      fun t g hg hl hm _ ↦ absurd (h t g hg hl hm).1 nofun⟩
  · rintro ⟨hshared, hexclusive⟩ t g hg hl hm
    cases hmode : g.mode with
    | shared => exact absurd hmode (hshared t g hg hl hm)
    | exclusive => exact absurd hmode (hexclusive t g hg hl hm)

theorem free_shared_iff : Free guards m .shared ↔ total guards m .exclusive = 0 := by
  simp only [total_eq_zero_iff, Guard.holds_eq_zero_iff]
  constructor
  · intro h t g hg hl hm hmode
    cases hmode.symm.trans (h t g hg hl hm).2
  · intro h t g hg hl hm
    refine ⟨rfl, ?_⟩
    cases hmode : g.mode with
    | shared => rfl
    | exclusive => exact absurd hmode (h t g hg hl hm)

end

/-- How many guards of a thread the cell has as its writer. -/
def Cell.held [DecidableEq T] (c : Cell T) (t : T) : Nat := if c.writer = some t then 1 else 0

variable [DecidableEq T] {kind : M → Kind} {c c' : Cell T} {t : T}

/-- A cell whose counts change as much as those of the guards of a thread do. -/
structure Follows (t : T) (c c' : Cell T) (before after : Mode → Nat) : Prop where
  readers : c'.readers + before .shared = c.readers + after .shared
  writer : c'.held t + before .exclusive = c.held t + after .exclusive
  others : ∀ t', t' ≠ t → c'.held t' = c.held t'
  apart : ∀ t', c'.writer = some t' → c'.readers = 0

theorem lock_follows {k : Kind} (hg : g.locked = false) (hagain : ¬ (k = .rwMutex ∧ c.writer = some t))
    (h : c.lock k t g.mode = some c') :
    Follows t c c' (fun mode ↦ g.holds g.mutex mode)
      (fun mode ↦ ({ g with locked := true } : Guard M).holds g.mutex mode) := by
  obtain ⟨m, mode, locked⟩ := g
  obtain rfl : locked = false := hg
  unfold Cell.lock at h
  rw [if_neg hagain] at h
  cases mode with
  | shared =>
      dsimp only at h
      split at h
      · cases h
      · rename_i hwriter
        obtain hwriter : c.writer = none := by simpa using hwriter
        cases h
        refine ⟨by simp [Guard.holds], by simp [Guard.holds, Cell.held], fun _ _ ↦ rfl, fun t' h' ↦ ?_⟩
        cases hwriter.symm.trans h'
  | exclusive =>
      dsimp only at h
      split at h
      · cases h
      · rename_i hfree
        obtain ⟨hwriter, hreaders⟩ : c.writer = none ∧ c.readers = 0 := by simpa using hfree
        cases h
        refine ⟨by simp [Guard.holds], by simp [Guard.holds, Cell.held, hwriter], fun t' ht ↦ ?_,
          fun _ _ ↦ hreaders⟩
        simp [Cell.held, hwriter, Ne.symm ht]

/-- A guard that holds its lock is counted there, and its `unlock` takes it off the count. -/
theorem unlock_follows (hapart : ∀ t', c.writer = some t' → c.readers = 0) (hg : g.locked = true)
    (hreaders : g.holds g.mutex .shared ≤ c.readers) (hwriter : g.holds g.mutex .exclusive ≤ c.held t) :
    Follows t c (c.unlock t) (fun mode ↦ g.holds g.mutex mode)
      (fun mode ↦ ({ g with locked := false } : Guard M).holds g.mutex mode) := by
  obtain ⟨m, mode, locked⟩ := g
  obtain rfl : locked = true := hg
  cases mode with
  | shared =>
      -- a reader is counted, so there is no writer whom `unlock` could take the caller for
      have hpos : 1 ≤ c.readers := by simpa [Guard.holds] using hreaders
      have hno : ∀ t', c.writer ≠ some t' := by
        intro t' h
        rw [hapart t' h] at hpos
        cases hpos
      have hunlock : c.unlock t = { c with readers := c.readers - 1 } := if_neg (hno t)
      rw [hunlock]
      refine ⟨?_, by simp [Guard.holds, Cell.held], fun _ _ ↦ rfl, fun t' h' ↦ absurd h' (hno t')⟩
      simp [Guard.holds]
      omega
  | exclusive =>
      -- the guard is counted as the writer, and this thread is the only one it can be
      have hyes : c.writer = some t := by
        have hpos : 1 ≤ c.held t := by simpa [Guard.holds] using hwriter
        by_contra hne
        rw [Cell.held, if_neg hne] at hpos
        cases hpos
      have hunlock : c.unlock t = { c with writer := none } := if_pos hyes
      rw [hunlock]
      refine ⟨by simp [Guard.holds], by simp [Guard.holds, Cell.held, hyes], fun t' ht ↦ ?_, nofun⟩
      simp [Cell.held, hyes, Ne.symm ht]

/-! ## Every step keeps the counts -/

variable [Fintype T] {s s' : State T M} {guards : T → List (Guard M)} {gs : List (Guard M)}

/-- The cells count the guards that hold them. -/
structure Exact (s : State T M) : Prop where
  readers : ∀ m, (s.cell m).readers = total s.guards m .shared
  writer : ∀ m t, (s.cell m).held t = ((s.guards t).map (Guard.holds m .exclusive)).sum
  apart : ∀ m t, (s.cell m).writer = some t → (s.cell m).readers = 0

theorem start_exact : Exact (.start : State T M) := by
  have hzero : ∀ m mode, total (fun _ : T ↦ ([] : List (Guard M))) m mode = 0 :=
    fun m mode ↦ total_eq_zero_iff.mpr fun _ _ hg ↦ nomatch hg
  exact ⟨fun m ↦ (hzero m _).symm, fun _ _ ↦ rfl, nofun⟩

theorem Exact.total_exclusive (h : Exact s) (m : M) :
    total s.guards m .exclusive = (s.cell m).writer.isSome.toNat := by
  unfold total
  simp only [← h.writer]
  unfold Cell.held
  cases (s.cell m).writer with
  | none => simp
  | some w => simp

/-- A lock's writer is the thread that has it for itself. -/
theorem Exact.writer_iff (h : Exact s) (m : M) (t : T) :
    (s.cell m).writer = some t ↔ Owns s.guards t m := by
  have hzero : (s.cell m).held t = 0 ↔ ¬ Owns s.guards t m := by
    rw [h.writer, sum_map_eq_zero_iff]
    simp only [Guard.holds_eq_zero_iff, Owns, not_exists, not_and]
  rw [← not_iff_not, ← hzero]
  unfold Cell.held
  split <;> simp_all

/-- Whether a lock lets a guard in is what the guards say, unless its writer asks again. -/
theorem Exact.lock_eq_none_iff (h : Exact s) {k : Kind} {t : T} (m : M) (mode : Mode)
    (hagain : ¬ (k = .rwMutex ∧ Owns s.guards t m)) :
    (s.cell m).lock k t mode = none ↔ ¬ Free s.guards m mode := by
  rw [← h.writer_iff] at hagain
  have hwriter : (s.cell m).writer.isSome = false ↔ total s.guards m .exclusive = 0 := by
    rw [h.total_exclusive]
    cases (s.cell m).writer <;> simp
  unfold Cell.lock
  rw [if_neg hagain]
  cases mode with
  | shared =>
      rw [free_shared_iff, ← hwriter]
      simp
  | exclusive =>
      rw [free_exclusive_iff, ← hwriter, ← h.readers]
      cases hw : (s.cell m).writer <;> simp

/-- The `unlock` of a guard takes off what the guard adds to the count. -/
theorem Exact.unlock_follows (h : Exact s) (hg : g ∈ s.guards t) :
    Follows t (s.cell g.mutex) (g.unlock t (s.cell g.mutex)).2 (fun mode ↦ g.holds g.mutex mode)
      (fun mode ↦ (g.unlock t (s.cell g.mutex)).1.holds g.mutex mode) := by
  unfold Guard.unlock
  cases hl : g.locked with
  | false => exact ⟨rfl, rfl, fun _ _ ↦ rfl, h.apart _⟩
  | true =>
      have hreaders : g.holds g.mutex .shared ≤ (s.cell g.mutex).readers :=
        (holds_le_total hg).trans_eq (h.readers _).symm
      have hwriter : g.holds g.mutex .exclusive ≤ (s.cell g.mutex).held t := by
        rw [h.writer]
        exact List.single_le_sum (fun _ _ ↦ Nat.zero_le _) _ (List.mem_map_of_mem hg)
      exact Guards.unlock_follows (h.apart _) hl hreaders hwriter

omit [DecidableEq M] [Fintype T] in
theorem unlock_mutex : (g.unlock t c).1.mutex = g.mutex := by
  unfold Guard.unlock
  split <;> rfl

theorem total_put (c : Cell T) (m' : M) :
    total (s.put t gs m c).guards m' mode + ((s.guards t).map (Guard.holds m' mode)).sum =
      total s.guards m' mode + (gs.map (Guard.holds m' mode)).sum :=
  sum_update (fun gs ↦ (gs.map (Guard.holds m' mode)).sum) s.guards t gs

/-- One guard of a thread changes with the cell, and no guard for another lock. -/
theorem Exact.put (h : Exact s) {before after : Mode → Nat}
    (hf : Follows t (s.cell m) c before after)
    (hsame : ∀ mode, (gs.map (Guard.holds m mode)).sum + before mode =
      ((s.guards t).map (Guard.holds m mode)).sum + after mode)
    (hother : ∀ m' mode, m ≠ m' → (gs.map (Guard.holds m' mode)).sum =
      ((s.guards t).map (Guard.holds m' mode)).sum) : Exact (s.put t gs m c) := by
  have hcell : (s.put t gs m c).cell m = c := Function.update_self _ _ _
  have hcells : ∀ m', m ≠ m' → (s.put t gs m c).cell m' = s.cell m' :=
    fun m' hm ↦ Function.update_of_ne (Ne.symm hm) _ _
  have hguards : (s.put t gs m c).guards t = gs := Function.update_self _ _ _
  have hothers : ∀ t', t' ≠ t → (s.put t gs m c).guards t' = s.guards t' :=
    fun t' ht ↦ Function.update_of_ne ht _ _
  -- for the lock in question by `hf` and `hsame`, for another one because nothing changed
  refine ⟨fun m' ↦ ?_, fun m' t' ↦ ?_, fun m' ↦ ?_⟩
  · have htotal : total (s.put t gs m c).guards m' .shared + _ = _ := total_put c m'
    have hcount := h.readers m'
    by_cases hm : m = m'
    · subst hm
      rw [hcell]
      have hlist := hsame .shared
      have hreaders := hf.readers
      omega
    · rw [hcells m' hm]
      have hlist := hother m' .shared hm
      omega
  · have hcount := h.writer m' t'
    by_cases hm : m = m'
    · subst hm
      rw [hcell]
      by_cases ht : t' = t
      · subst ht
        rw [hguards]
        have hlist := hsame .exclusive
        have hwriter := hf.writer
        omega
      · rw [hothers t' ht, hf.others t' ht, hcount]
    · rw [hcells m' hm, hcount]
      by_cases ht : t' = t
      · subst ht
        rw [hguards, hother m' .exclusive hm]
      · rw [hothers t' ht]
  · by_cases hm : m = m'
    · subst hm
      rw [hcell]
      exact hf.apart
    · rw [hcells m' hm]
      exact h.apart m'

omit [DecidableEq M] [Fintype T] in
theorem unlock_fst : (g.unlock t c).1 = { g with locked := false } := by
  unfold Guard.unlock
  split
  · rfl
  · rename_i hl
    have hl : g.locked = false := Bool.not_eq_true _ ▸ hl
    rw [← hl]

/-- A guard in the list is replaced by one for the same lock. -/
theorem sum_set (g' : Guard M) {l : List (Guard M)} {i : Nat} (hi : l[i]? = some g)
    (hm : g'.mutex = g.mutex) :
    (∀ mode, ((l.set i g').map (Guard.holds g.mutex mode)).sum + g.holds g.mutex mode =
      (l.map (Guard.holds g.mutex mode)).sum + g'.holds g.mutex mode) ∧
    ∀ m' mode, g.mutex ≠ m' → ((l.set i g').map (Guard.holds m' mode)).sum =
      (l.map (Guard.holds m' mode)).sum := by
  refine ⟨fun mode ↦ sum_map_set _ l i g g' hi, fun m' mode hne ↦ ?_⟩
  have hset := sum_map_set (Guard.holds m' mode) l i g g' hi
  rw [Guard.holds_ne hne, Guard.holds_ne (hm.symm ▸ hne)] at hset
  exact hset

theorem Exact.step (h : Exact s) {a : Act T M} (hagain : ¬ Again kind s.guards a)
    (hs : s.step kind a = some s') : Exact s' := by
  cases a with
  | make t m mode =>
      -- the constructor puts the new guard in front and locks it
      obtain ⟨⟨g, c⟩, hmake, rfl⟩ := Option.map_eq_some_iff.mp hs
      obtain ⟨c', hc, heq⟩ := Option.map_eq_some_iff.mp hmake
      cases heq
      have hfollows := lock_follows (g := ⟨m, mode, false⟩) rfl (by rwa [h.writer_iff]) hc
      refine h.put hfollows (fun mode' ↦ ?_) fun m' mode' hne ↦ ?_
      · simp only [List.map_cons, List.sum_cons, Guard.holds, Bool.false_eq_true, false_and, if_false]
        omega
      · rw [List.map_cons, List.sum_cons, Guard.holds_ne hne, Nat.zero_add]
  | lock t i =>
      obtain ⟨g, hg, hs⟩ := Option.bind_eq_some_iff.mp hs
      obtain ⟨⟨g', c⟩, hlock, rfl⟩ := Option.map_eq_some_iff.mp hs
      unfold Guard.lock at hlock
      split at hlock
      · cases hlock
        obtain ⟨hsame, hother⟩ := sum_set g hg rfl
        exact h.put ⟨rfl, rfl, fun _ _ ↦ rfl, h.apart _⟩ hsame hother
      · rename_i hl
        obtain ⟨c', hc, heq⟩ := Option.map_eq_some_iff.mp hlock
        cases heq
        have hl : g.locked = false := Bool.not_eq_true _ ▸ hl
        obtain ⟨hsame, hother⟩ := sum_set { g with locked := true } hg rfl
        refine h.put (lock_follows hl ?_ hc) hsame hother
        rw [h.writer_iff]
        exact fun hown ↦ hagain ⟨g, hg, hl, hown⟩
  | unlock t i =>
      obtain ⟨g, hg, rfl⟩ := Option.map_eq_some_iff.mp hs
      obtain ⟨hsame, hother⟩ := sum_set (g.unlock t (s.cell g.mutex)).1 hg unlock_mutex
      exact h.put (h.unlock_follows (List.mem_of_getElem? hg)) hsame hother
  | destroy t =>
      unfold State.step at hs
      dsimp only at hs
      split at hs
      · cases hs
      · rename_i g gs hgs
        cases hs
        have hmem : g ∈ s.guards t := hgs ▸ List.mem_cons_self
        -- a guard that goes away has been unlocked by its destructor
        have hgone : ∀ mode, (g.unlock t (s.cell g.mutex)).1.holds g.mutex mode = 0 := by
          intro mode
          rw [Guard.holds_eq_zero_iff]
          unfold Guard.unlock
          split
          · nofun
          · rename_i hl
            exact fun h' ↦ absurd h' hl
        refine h.put (h.unlock_follows hmem) (fun mode ↦ ?_) fun m' mode hne ↦ ?_
        · rw [hgs, hgone, List.map_cons, List.sum_cons]
          omega
        · rw [hgs, List.map_cons, List.sum_cons, Guard.holds_ne hne, Nat.zero_add]

/-! ## The cells behave as the guards say -/

theorem step_ideal (h : Exact s) {a : Act T M} (hagain : ¬ Again kind s.guards a) :
    (s.step kind a).map State.guards = ideal s.guards a := by
  cases a with
  | make t m mode =>
      have hlock := h.lock_eq_none_iff m mode hagain
      unfold State.step ideal Guard.make
      dsimp only
      cases hc : (s.cell m).lock (kind m) t mode with
      | none => rw [if_neg (hlock.mp hc)]; rfl
      | some c =>
          rw [if_pos]
          · rfl
          · by_contra hfree
            rw [hlock.mpr hfree] at hc
            cases hc
  | lock t i =>
      unfold State.step ideal
      dsimp only
      cases hg : (s.guards t)[i]? with
      | none => rfl
      | some g =>
          rw [Option.bind_some, Option.bind_some]
          unfold Guard.lock
          by_cases hl : g.locked = true
          · -- a guard that holds its lock asks nobody
            have hsame : ({ g with locked := true } : Guard M) = g := by rw [← hl]
            rw [if_pos hl, if_pos (.inl hl), hsame]
            rfl
          · have hlock := h.lock_eq_none_iff g.mutex g.mode (k := kind g.mutex) (t := t)
              fun hown ↦ hagain ⟨g, hg, Bool.not_eq_true _ ▸ hl, hown⟩
            rw [if_neg hl]
            cases hc : (s.cell g.mutex).lock (kind g.mutex) t g.mode with
            | none =>
                rw [if_neg (not_or.mpr ⟨hl, hlock.mp hc⟩)]
                rfl
            | some c =>
                rw [if_pos]
                · rfl
                · refine .inr (not_not.mp fun hfree ↦ ?_)
                  rw [hlock.mpr hfree] at hc
                  cases hc
  | unlock t i =>
      unfold State.step ideal
      dsimp only
      rw [Option.map_map]
      congr 1
      funext g
      show Function.update s.guards t ((s.guards t).set i (g.unlock t (s.cell g.mutex)).1) = _
      rw [unlock_fst]
  | destroy t =>
      unfold State.step ideal
      dsimp only
      split <;> rfl

omit [DecidableEq M] [DecidableEq T] [Fintype T] in
/-- To share a lock, or to have it, others must not have it. -/
theorem Owns.not_free (h : Owns guards t m) : ¬ Free guards m mode := by
  obtain ⟨g, hg, hl, hm, hmode⟩ := h
  intro hfree
  rw [(hfree t g hg hl hm).2] at hmode
  cases hmode

theorem Exact.lock_again (h : Exact s) (hkind : kind m = .rwMutex) (hown : Owns s.guards t m) :
    (s.cell m).lock (kind m) t mode = some (s.cell m) :=
  if_pos ⟨hkind, (h.writer_iff m t).mpr hown⟩

/-- A thread that asks again is let in, which the guards would forbid. -/
theorem Exact.again_ne (h : Exact s) {a : Act T M} (hagain : Again kind s.guards a) :
    (s.step kind a).map State.guards ≠ ideal s.guards a := by
  cases a with
  | make t m mode =>
      obtain ⟨hkind, hown⟩ := hagain
      unfold State.step ideal Guard.make
      dsimp only
      rw [h.lock_again hkind hown, if_neg hown.not_free]
      exact Option.some_ne_none _
  | lock t i =>
      obtain ⟨g, hg, hl, hkind, hown⟩ := hagain
      unfold State.step ideal
      dsimp only
      rw [Option.mem_def.mp hg, Option.bind_some, Option.bind_some, Guard.lock,
        if_neg (Bool.not_eq_true _ ▸ hl), h.lock_again hkind hown,
        if_neg (not_or.mpr ⟨Bool.not_eq_true _ ▸ hl, hown.not_free⟩)]
      exact Option.some_ne_none _
  | unlock t i => cases hagain
  | destroy t => cases hagain

/-- The steps of threads that do not ask a lock again. -/
def Asking (kind : M → Kind) : State T M → Act T M → State T M → Prop :=
  Guarded (Of (State.step kind)) fun s a ↦ ¬ Again kind s.guards a

theorem run_exact {as : List (Act T M)} (h : Run (Asking kind) .start as s) : Exact s :=
  h.invariant (fun _ _ _ hs hstep ↦ hs.step hstep.2 hstep.1) start_exact

/-- What a sequence of guards, locks and scopes may do, and what it leaves, is as if each lock asked
all guards, exactly when no thread asks an `RWMutex` that it has for itself: but for that, the counts
and flags of the locks lose nothing. -/
theorem cells_ideal_iff (kind : M → Kind) (as : List (Act T M)) :
    (∀ bs, bs <+: as →
      (exec (State.step kind) .start bs).map State.guards = exec ideal (fun _ ↦ []) bs) ↔
    Apart kind (.start : State T M) as := by
  -- by induction on the sequence, from any state whose cells are exact
  have hrun : ∀ s : State T M, Exact s →
      ((∀ bs, bs <+: as → (exec (State.step kind) s bs).map State.guards = exec ideal s.guards bs) ↔
        Apart kind s as) := by
    induction as with
    | nil =>
        intro s _
        refine ⟨fun _ ↦ trivial, fun _ bs hbs ↦ ?_⟩
        rw [List.prefix_nil.mp hbs]
        rfl
    | cons a as ih =>
        intro s h
        constructor
        · intro hall
          have hstep : (s.step kind a).map State.guards = ideal s.guards a := by
            -- the first step already tells them apart if it asks again
            have hone := hall [a] (List.prefix_append [a] as)
            simp only [exec] at hone
            rwa [Option.bind_fun_some, Option.bind_fun_some] at hone
          have hagain : ¬ Again kind s.guards a := fun hagain ↦ h.again_ne hagain hstep
          refine ⟨hagain, fun s' hs' ↦ (ih s' (h.step hagain hs')).mp fun bs hbs ↦ ?_⟩
          have hmore := hall (a :: bs) ((List.prefix_cons_inj a).mpr hbs)
          rwa [exec, exec, ← hstep, hs', Option.map_some, Option.bind_some, Option.bind_some] at hmore
        · rintro ⟨hagain, hrest⟩ bs hbs
          cases bs with
          | nil => rfl
          | cons b bs =>
              obtain ⟨rfl, hmore⟩ := List.cons_prefix_cons.mp hbs
              rw [exec, exec, ← step_ideal h hagain]
              cases hs : s.step kind b with
              | none => rfl
              | some s' => exact (ih s' (h.step hagain hs)).mpr (hrest s' hs) bs hmore
  exact hrun .start start_exact

/-- Without a guard that holds its lock, the list counts one less. -/
theorem sum_eraseIdx {l : List (Guard M)} {i : Nat} (hi : l[i]? = some g) (m : M) (mode : Mode) :
    ((l.eraseIdx i).map (Guard.holds m mode)).sum + g.holds m mode =
      (l.map (Guard.holds m mode)).sum := by
  obtain ⟨hlt, rfl⟩ := List.getElem?_eq_some_iff.mp hi
  have hperm := (List.getElem_cons_eraseIdx_perm hlt).map (Guard.holds m mode)
  rw [← hperm.sum_eq, List.map_cons, List.sum_cons, Nat.add_comm]

/-- Whatever threads do with guards, except to ask an `RWMutex` that they have for themselves, a guard
that holds its lock has it for itself, or shares it with readers only, and a lock is free when no
guard holds it, and only then. -/
theorem guards_exclusive {as : List (Act T M)} (h : Run (Asking kind) .start as s) :
    (∀ t i g, (s.guards t)[i]? = some g → g.locked = true →
      Free (Function.update s.guards t ((s.guards t).eraseIdx i)) g.mutex g.mode) ∧
    ∀ m, s.cell m = .free ↔ ∀ t, ∀ g ∈ s.guards t, g.mutex = m → g.locked = false := by
  have hexact := run_exact h
  refine ⟨fun t i g hi hl ↦ ?_, fun m ↦ ?_⟩
  · have hrest : ∀ mode, total (Function.update s.guards t ((s.guards t).eraseIdx i)) g.mutex mode +
        g.holds g.mutex mode = total s.guards g.mutex mode := by
      intro mode
      have hupdate := sum_update (fun gs ↦ (gs.map (Guard.holds g.mutex mode)).sum) s.guards t
        ((s.guards t).eraseIdx i)
      have hsum := sum_eraseIdx hi g.mutex mode
      unfold total
      omega
    -- the guard counts one itself, and what is left is what the others count
    have hshared := hrest .shared
    have hexclusive := hrest .exclusive
    rw [← hexact.readers] at hshared
    rw [hexact.total_exclusive] at hexclusive
    cases hmode : g.mode with
    | shared =>
        have hone : g.holds g.mutex .shared = 1 := by simp [Guard.holds, hl, hmode]
        rw [free_shared_iff]
        cases hw : (s.cell g.mutex).writer with
        | none =>
            rw [hw, Option.isSome_none, Bool.toNat_false] at hexclusive
            omega
        | some w =>
            have hreaders := hexact.apart _ w hw
            omega
    | exclusive =>
        have hone : g.holds g.mutex .exclusive = 1 := by simp [Guard.holds, hl, hmode]
        rw [free_exclusive_iff]
        cases hw : (s.cell g.mutex).writer with
        | none =>
            rw [hw, Option.isSome_none, Bool.toNat_false] at hexclusive
            omega
        | some w =>
            have hreaders := hexact.apart _ w hw
            rw [hw, Option.isSome_some, Bool.toNat_true] at hexclusive
            omega
  · have hzero : s.cell m = .free ↔ Free s.guards m .exclusive := by
      rw [free_exclusive_iff, ← hexact.readers, hexact.total_exclusive]
      obtain ⟨readers, writer⟩ := s.cell m
      cases writer <;> simp [Cell.free]
    rw [hzero]
    constructor
    · intro hfree t g hg hm
      cases hl : g.locked with
      | false => rfl
      | true => cases (hfree t g hg hl hm).1
    · intro hnone t g hg hl hm
      rw [hnone t g hg hm] at hl
      cases hl

end

/-- Two readers of one lock, one of which unlocks early and locks again; a writer waits for both. -/
theorem guards_exclusive_readers : ∃ s : State Bool Unit,
    Run (Asking fun _ ↦ .rwMutex) .start
      [.make false () .shared, .make true () .shared, .unlock false 0, .lock false 0, .destroy true] s ∧
    s.step (fun _ ↦ .rwMutex) (.make true () .exclusive) = none ∧
    (∀ t i g, (s.guards t)[i]? = some g → g.locked = true →
      Free (Function.update s.guards t ((s.guards t).eraseIdx i)) g.mutex g.mode) ∧
    ∀ m, s.cell m = .free ↔ ∀ t, ∀ g ∈ s.guards t, g.mutex = m → g.locked = false := by
  obtain ⟨s, h, hs⟩ := exists_run (R := Asking fun _ ↦ .rwMutex) (State.step fun _ ↦ .rwMutex)
    (fun s a ↦ decide (¬ Again (fun _ ↦ .rwMutex) s.guards a))
    (fun _ _ _ hs hok ↦ ⟨hs, of_decide_eq_true hok⟩) (.start : State Bool Unit)
    [.make false () .shared, .make true () .shared, .unlock false 0, .lock false 0, .destroy true]
    (P := fun s ↦ (s.step (fun _ ↦ .rwMutex) (.make true () .exclusive)).isNone) (by decide)
  exact ⟨s, h, Option.isNone_iff_eq_none.mp hs, guards_exclusive h⟩

/-- A writer that asks again has the lock twice, and the inner guard frees it under the outer one. -/
example : ((exec (State.step fun _ ↦ .rwMutex) (.start : State Bool Unit)
    [.make false () .exclusive, .make false () .exclusive, .destroy false]).map fun s ↦
      (s.cell (), s.guards false)) = some (.free, [⟨(), .exclusive, true⟩]) := by
  decide

end Server.Guards
