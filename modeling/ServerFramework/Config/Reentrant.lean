import ServerFramework.Library.OrderedMap
import Mathlib.Data.List.Count
import Mathlib.Data.List.Nodup
import Mathlib.Data.Nat.Basic

/-!
# Listeners that use their own argument

A listener runs inside the read-locked section of `setValue` and inside the loop over `m_cbs`, and it
may read the argument, set it and take itself out of `m_cbs`.
-/

namespace Server.Config.Reentrant

/-- What a listener does in one call; `S` is what the listeners have captured and may change. -/
inductive Script (T S : Type) where
  | ret (captured : S)
  | getValue (k : T → Script T S)
  | setValue (captured : S) (val : T) (k : S → Script T S)
  /-- `delListener` with the listener's own id -/
  | delListener (k : Script T S)

/-- A listener, called with the captured state, the old value and the new one. -/
abbrev CallBack (T S : Type) := S → T → T → Script T S

inductive Event where
  /-- a call of a listener, and how many calls of `setValue` it is in -/
  | called (depth id : Nat)
  | removed (id : Nat)
  deriving DecidableEq, Repr

/-- A `ConfigArg`, and the only thread that uses it. -/
structure ConfigArg (T S : Type) where
  val : T
  cbs : OrderedMap Nat (CallBack T S)
  captured : S
  /-- how often the thread holds the read lock -/
  readers : Nat
  log : List Event

inductive Fault where
  /-- the write lock is requested by the thread that holds the read lock -/
  | deadlock
  /-- the iteration over `m_cbs` goes on from an erased entry -/
  | erased
  deriving DecidableEq, Repr

/-- A call that has not come to its end with the fuel it got is `running`. -/
inductive Result (σ : Type) where
  | done (s : σ)
  | fault (f : Fault)
  | running

def Result.bind {σ : Type} (r : Result σ) (k : σ → Result σ) : Result σ :=
  match r with
  | .done s => k s
  | .fault f => .fault f
  | .running => .running

theorem Result.bind_done {σ : Type} {r : Result σ} {k : σ → Result σ} {s' : σ}
    (h : r.bind k = .done s') : ∃ s, r = .done s ∧ k s = .done s' := by
  cases r with
  | done s => exact ⟨s, rfl, h⟩
  | fault f => cases h
  | running => cases h

variable {T S : Type}

namespace ConfigArg

def rdlock (s : ConfigArg T S) : ConfigArg T S := { s with readers := s.readers + 1 }

def unlock (s : ConfigArg T S) : ConfigArg T S := { s with readers := s.readers - 1 }

def call (s : ConfigArg T S) (id : Nat) : ConfigArg T S :=
  { s with log := s.log ++ [.called s.readers id] }

def delListener (s : ConfigArg T S) (id : Nat) : ConfigArg T S :=
  { s with cbs := s.cbs.erase id, log := s.log ++ [.removed id] }

end ConfigArg

/-- The call of the listener `id`; `nested` is `setValue`. -/
def Script.run (nested : ConfigArg T S → T → Result (ConfigArg T S)) (id : Nat) :
    Script T S → ConfigArg T S → Result (ConfigArg T S)
  | .ret captured, s => .done { s with captured := captured }
  | .getValue k, s => (k s.val).run nested id s
  | .setValue captured val k, s =>
    (nested { s with captured := captured } val).bind fun s ↦ (k s.captured).run nested id s
  | .delListener k, s => k.run nested id (s.delListener id)

/-- The loop over `m_cbs` with the iterator at the entry of `it`, or at the end. -/
def loop (nested : ConfigArg T S → T → Result (ConfigArg T S)) (val : T) :
    Nat → Option Nat → ConfigArg T S → Result (ConfigArg T S)
  | _, none, s => .done s
  | 0, some _, _ => .running
  | n + 1, some it, s =>
    match s.cbs.find it with
    | none => .fault .erased
    | some cb =>
      ((cb s.captured s.val val).run nested it (s.call it)).bind fun s ↦
        -- `++it` reads the entry that was just called
        if it ∈ s.cbs.keys then loop nested val n (s.cbs.next it) s else .fault .erased

variable [DecidableEq T]

/-- The fuel bounds the depth of the calls and the length of the loops. -/
def setValue : Nat → ConfigArg T S → T → Result (ConfigArg T S)
  | 0, _, _ => .running
  | n + 1, s, val =>
    if s.val = val then .done s
    else
      (loop (setValue n) val n s.cbs.first s.rdlock).bind fun s ↦
        -- the second section: the write lock waits for every reader
        if s.unlock.readers = 0 then .done { s.unlock with val := val } else .fault .deadlock

/-- Before the outer call. -/
def start (val : T) (cbs : OrderedMap Nat (CallBack T S)) (captured : S) : ConfigArg T S :=
  ⟨val, cbs, captured, 0, []⟩

/-- A listener took itself out before the outer call came to it. -/
def RemovedBefore (id : Nat) (log : List Event) : Prop :=
  ∃ l l', log = l ++ .removed id :: l' ∧ .called 1 id ∉ l

/-- The outer call returns, and if it changes the value, it has called every listener once that did not
take itself out before. -/
def Completes (s : ConfigArg T S) (val : T) : Prop :=
  ∃ n s', setValue n s val = .done s' ∧ (s.val ≠ val → ∀ id ∈ s.cbs.keys,
    s'.log.count (.called 1 id) = 1 ∨ RemovedBefore id s'.log)

/-! ## Listeners that change nothing -/

/-- The captured state that a call leaves while the value `old` is stored, unless the listener takes
itself out or sets another value. -/
def Script.quiet (old : T) : Script T S → Option S
  | .ret captured => some captured
  | .getValue k => (k old).quiet old
  | .setValue captured val k => if old = val then (k captured).quiet old else none
  | .delListener _ => none

/-- The same for the calls of the listeners in the order of their ids. -/
def quiet (old val : T) : List (Nat × CallBack T S) → S → Option S
  | [], captured => some captured
  | e :: l, captured => ((e.2 captured old val).quiet old).bind (quiet old val l)

variable {s s' : ConfigArg T S} {val : T} {n id : Nat}

theorem setValue_same (h : s.val = val) : setValue (n + 1) s val = .done s := if_pos h

/-! ## Quiet listeners let the call return -/

theorem run_quiet {p : Script T S} {captured : S} (h : p.quiet s.val = some captured) :
    p.run (setValue (n + 1)) id s = .done { s with captured := captured } := by
  induction p generalizing s with
  | ret captured' =>
      cases h
      rfl
  | getValue k ih =>
      rw [Script.run]
      exact ih s.val h
  | setValue captured' val k ih =>
      rw [Script.quiet] at h
      split at h
      · rename_i hsame
        rw [Script.run, setValue_same (s := { s with captured := captured' }) hsame]
        exact ih captured' h
      · cases h
  | delListener k ih => cases h

/-- The loop over the listeners that are left, after those in `pre`. -/
theorem loop_quiet {pre post : List (Nat × CallBack T S)} {captured : S}
    (hentries : s.cbs.entries = pre ++ post) (h : quiet s.val val post s.captured = some captured)
    (hfuel : post.length ≤ n) {m : Nat} :
    loop (setValue (m + 1)) val n (post.map Prod.fst).head? s = .done { s with
      captured := captured
      log := s.log ++ post.map fun e ↦ .called s.readers e.1 } := by
  induction post generalizing s pre n with
  | nil =>
      cases h
      show loop _ _ n none s = _
      rw [loop, List.map_nil, List.append_nil]
  | cons e post ih =>
      obtain ⟨k, rfl⟩ : ∃ k, n = k + 1 := ⟨n - 1, by rw [List.length_cons] at hfuel; omega⟩
      obtain ⟨captured', he, hpost⟩ := Option.bind_eq_some_iff.mp h
      have hmem : e ∈ s.cbs.entries := by rw [hentries]; simp
      have hkeys := OrderedMap.keys_of_entries hentries
      show loop _ _ (k + 1) (some e.1) s = _
      rw [loop, OrderedMap.find_of_mem (v := e.2) hmem]
      dsimp only
      rw [run_quiet (s := s.call e.1) he]
      -- the iterator goes on to the entry after the one that was called
      show (if e.1 ∈ s.cbs.keys then loop _ _ k (s.cbs.next e.1) _ else _) = _
      rw [if_pos (by rw [hkeys]; simp), OrderedMap.next_eq hkeys,
        ih (s := { s.call e.1 with captured := captured' })
          (hentries.trans (List.append_cons pre e post)) hpost
          (by rw [List.length_cons] at hfuel; omega)]
      simp [ConfigArg.call]

omit [DecidableEq T] in
theorem count_called {depth : Nat} (m : OrderedMap Nat (CallBack T S)) (h : id ∈ m.keys) :
    (m.entries.map fun e ↦ Event.called depth e.1).count (.called depth id) = 1 := by
  have hmap : (m.entries.map fun e ↦ Event.called depth e.1) = m.keys.map (Event.called depth) := by
    rw [OrderedMap.keys, List.map_map]
    rfl
  rw [hmap, List.count_map_of_injective _ _ fun a b heq ↦ by cases heq; rfl]
  exact List.count_eq_one_of_mem m.keys_nodup h

theorem completes_of_quiet {cbs : OrderedMap Nat (CallBack T S)} {old : T} {captured : S}
    (h : old = val ∨ (quiet old val cbs.entries captured).isSome = true) :
    Completes (start old cbs captured) val := by
  by_cases hsame : old = val
  · exact ⟨1, _, setValue_same hsame, fun hne ↦ absurd hsame hne⟩
  · obtain ⟨captured', hquiet⟩ := Option.isSome_iff_exists.mp (h.resolve_left hsame)
    have hloop : loop (setValue (cbs.entries.length + 1)) val (cbs.entries.length + 1) cbs.first
        (start old cbs captured).rdlock =
          .done ⟨old, cbs, captured', 1, cbs.entries.map fun e ↦ .called 1 e.1⟩ :=
      loop_quiet (s := (start old cbs captured).rdlock) (List.nil_append _).symm hquiet (Nat.le_succ _)
    refine ⟨cbs.entries.length + 2, ⟨val, cbs, captured', 0,
      cbs.entries.map fun e ↦ .called 1 e.1⟩, ?_, fun _ id hid ↦ .inl (count_called cbs hid)⟩
    rw [setValue, if_neg (show (start old cbs captured).val ≠ val from hsame)]
    show (loop _ _ _ cbs.first _).bind _ = _
    rw [hloop]
    rfl

/-! ## Other listeners do not -/

/-- What a call that returns keeps: the value and the locks, and no listener comes back. -/
structure Kept (s s' : ConfigArg T S) : Prop where
  val : s'.val = s.val
  readers : s'.readers = s.readers
  keys : ∀ id ∈ s'.cbs.keys, id ∈ s.cbs.keys

omit [DecidableEq T] in
theorem Kept.refl (s : ConfigArg T S) : Kept s s := ⟨rfl, rfl, fun _ hid ↦ hid⟩

omit [DecidableEq T] in
theorem Kept.trans {s'' : ConfigArg T S} (h : Kept s s') (h' : Kept s' s'') : Kept s s'' :=
  ⟨h'.val.trans h.val, h'.readers.trans h.readers, fun id hid ↦ h.keys id (h'.keys id hid)⟩

/-- Inside a section of the thread, a call returns only if it has nothing to change. -/
def Inert (nested : ConfigArg T S → T → Result (ConfigArg T S)) : Prop :=
  ∀ s val s', 0 < s.readers → nested s val = .done s' → s.val = val ∧ s' = s

variable {nested : ConfigArg T S → T → Result (ConfigArg T S)}

omit [DecidableEq T] in
theorem run_kept (hnested : Inert nested) {p : Script T S} (hreaders : 0 < s.readers)
    (h : p.run nested id s = .done s') : Kept s s' := by
  induction p generalizing s with
  | ret captured =>
      cases h
      exact ⟨rfl, rfl, fun _ hid ↦ hid⟩
  | getValue k ih => exact ih s.val hreaders h
  | setValue captured val k ih =>
      obtain ⟨t, ht, hrest⟩ := Result.bind_done h
      obtain ⟨-, rfl⟩ := hnested { s with captured := captured } val t hreaders ht
      have hkept := ih captured (s := { s with captured := captured }) hreaders hrest
      exact ⟨hkept.val, hkept.readers, hkept.keys⟩
  | delListener k ih =>
      have hkept := ih (s := s.delListener id) hreaders h
      exact ⟨hkept.val, hkept.readers, fun i hi ↦ (OrderedMap.mem_keys_erase.mp (hkept.keys i hi)).1⟩

/-- A listener that is still there after its call was quiet. -/
theorem quiet_of_run (hnested : Inert nested) {p : Script T S} (hreaders : 0 < s.readers)
    (h : p.run nested id s = .done s') (hid : id ∈ s'.cbs.keys) :
    p.quiet s.val = some s'.captured ∧ s'.cbs = s.cbs := by
  induction p generalizing s with
  | ret captured =>
      cases h
      exact ⟨rfl, rfl⟩
  | getValue k ih => exact ih s.val hreaders h
  | setValue captured val k ih =>
      obtain ⟨t, ht, hrest⟩ := Result.bind_done h
      obtain ⟨hsame, rfl⟩ := hnested { s with captured := captured } val t hreaders ht
      rw [Script.quiet, if_pos hsame]
      exact ih captured (s := { s with captured := captured }) hreaders hrest
  | delListener k ih =>
      have hkept := run_kept hnested (s := s.delListener id) hreaders h
      exact absurd rfl (OrderedMap.mem_keys_erase.mp (hkept.keys id hid)).2

omit [DecidableEq T] in
theorem loop_kept (hnested : Inert nested) {it : Option Nat} (hreaders : 0 < s.readers)
    (h : loop nested val n it s = .done s') : Kept s s' := by
  induction n generalizing s it with
  | zero =>
      cases it with
      | none =>
          cases h
          exact .refl _
      | some it => cases h
  | succ n ih =>
      cases it with
      | none =>
          cases h
          exact .refl _
      | some it =>
          rw [loop] at h
          split at h
          · cases h
          · rename_i cb hcb
            obtain ⟨t, ht, hrest⟩ := Result.bind_done h
            have hcall : Kept s (s.call it) := ⟨rfl, rfl, fun _ hid ↦ hid⟩
            have hkept := hcall.trans (run_kept hnested (s := s.call it) hreaders ht)
            split at hrest
            · exact hkept.trans (ih (hkept.readers ▸ hreaders) hrest)
            · cases hrest

/-- The loop that goes on to its end has found every listener quiet. -/
theorem quiet_of_loop (hnested : Inert nested) {pre post : List (Nat × CallBack T S)}
    (hentries : s.cbs.entries = pre ++ post) (hreaders : 0 < s.readers)
    (h : loop nested val n (post.map Prod.fst).head? s = .done s') :
    (quiet s.val val post s.captured).isSome = true := by
  induction post generalizing s pre n with
  | nil => rfl
  | cons e post ih =>
      have hmem : e ∈ s.cbs.entries := by rw [hentries]; simp
      have hkeys := OrderedMap.keys_of_entries hentries
      cases n with
      | zero => cases h
      | succ n =>
          change loop _ _ (n + 1) (some e.1) s = _ at h
          rw [loop, OrderedMap.find_of_mem (v := e.2) hmem] at h
          obtain ⟨t, ht, hrest⟩ := Result.bind_done h
          split at hrest
          · rename_i hid
            have hkept := run_kept hnested (s := s.call e.1) hreaders ht
            obtain ⟨hquiet, hcbs⟩ := quiet_of_run hnested (s := s.call e.1) hreaders ht hid
            have hcbs : t.cbs = s.cbs := hcbs
            rw [hcbs, OrderedMap.next_eq hkeys] at hrest
            have htail : t.cbs.entries = (pre ++ [e]) ++ post := by
              rw [hcbs, hentries, List.append_cons]
            have hpost := ih htail (hkept.readers ▸ hreaders) hrest
            have hval : t.val = s.val := hkept.val
            rw [hval] at hpost
            show ((Script.quiet s.val _).bind _).isSome = true
            rw [show Script.quiet s.val (e.2 s.captured s.val val) = some t.captured from hquiet]
            exact hpost
          · cases hrest

/-- The write lock waits for the thread's own read lock. -/
theorem inert_setValue (n : Nat) : Inert (setValue n : ConfigArg T S → T → Result (ConfigArg T S)) := by
  induction n with
  | zero => intro s val s' _ h; cases h
  | succ n ih =>
      intro s val s' hreaders h
      rw [setValue] at h
      split at h
      · rename_i hsame
        cases h
        exact ⟨hsame, rfl⟩
      · obtain ⟨t, ht, hrest⟩ := Result.bind_done h
        have hkept := loop_kept ih (s := s.rdlock) (Nat.succ_pos _) ht
        have heq : t.unlock.readers = s.readers := by
          show t.readers - 1 = s.readers
          rw [hkept.readers]
          rfl
        rw [if_neg (by omega)] at hrest
        cases hrest

theorem quiet_of_completes {cbs : OrderedMap Nat (CallBack T S)} {old : T} {captured : S}
    (h : Completes (start old cbs captured) val) :
    old = val ∨ (quiet old val cbs.entries captured).isSome = true := by
  obtain ⟨n, s', hdone, -⟩ := h
  cases n with
  | zero => cases hdone
  | succ n =>
      rw [setValue] at hdone
      split at hdone
      · rename_i hsame
        exact .inl hsame
      · obtain ⟨t, ht, -⟩ := Result.bind_done hdone
        exact .inr (quiet_of_loop (s := (start old cbs captured).rdlock) (inert_setValue n)
          (List.nil_append _).symm Nat.one_pos ht)

/-- A call that is to change the value completes exactly when no listener, called in its turn with the
old value stored, takes itself out or sets another value. -/
theorem completes_iff_quiet (old val : T) (cbs : OrderedMap Nat (CallBack T S)) (captured : S) :
    Completes (start old cbs captured) val ↔
      old = val ∨ (quiet old val cbs.entries captured).isSome = true :=
  ⟨quiet_of_completes, completes_of_quiet⟩

/-! ## Runs on fixed inputs -/

/-- A listener that wants to be called once only. -/
def once : CallBack Int Unit := fun _ _ _ ↦ .delListener (.ret ())

/-- A listener that takes negative values back. -/
def clamp : CallBack Int Unit := fun _ _ val ↦
  if val < 0 then .setValue () 0 fun _ ↦ .ret () else .ret ()

theorem not_completes :
    setValue 3 (start 1 ⟨[(1, once)], by decide⟩ ()) 2 = .fault .erased ∧
      ¬ Completes (start 1 ⟨[(1, once)], by decide⟩ ()) 2 ∧
      setValue 4 (start 1 ⟨[(1, clamp)], by decide⟩ ()) (-5) = .fault .deadlock ∧
      ¬ Completes (start 1 ⟨[(1, clamp)], by decide⟩ ()) (-5) :=
  ⟨rfl, fun h ↦ (quiet_of_completes h).elim (by decide) (by decide), rfl,
    fun h ↦ (quiet_of_completes h).elim (by decide) (by decide)⟩

end Server.Config.Reentrant
