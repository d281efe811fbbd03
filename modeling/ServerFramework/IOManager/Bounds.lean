import ServerFramework.IOManager.Cancel

/-!
# Where the operations read the table

Each operation compares its fd with the size of `m_fdContexts` in its own way before it reads the
entry.  `cancelAll` lets the index equal to the size through, and the cast of the size to an `int`
is exact for tables below `2 ^ 31` entries only.
-/

namespace Server.IOManager

open Fallible Runs

/-- The index at which a step reads `m_fdContexts`, and the size of the vector at that moment. -/
def tableReads (io : IOManager) : Op → List (Nat × Nat)
  | .addEvent fd _ _ _ _ =>
    if (fd : Int) < io.tableSize then [(fd, io.fdContexts.length)]
    else [(fd, (io.contextResize (growSize fd)).fdContexts.length)]
  | .delEvent fd _ _ => if io.tableSize ≤ fd then [] else [(fd, io.fdContexts.length)]
  | .cancelEvent fd _ _ => if io.tableSize ≤ fd then [] else [(fd, io.fdContexts.length)]
  | .cancelAll fd _ => if io.tableSize < fd then [] else [(fd, io.fdContexts.length)]
  | .idle _ _ => []

/-- A `cancelAll` of the index one past the table. -/
def AtEnd (io : IOManager) : Op → Prop
  | .cancelAll fd _ => fd.val = io.fdContexts.length
  | _ => False

instance (io : IOManager) : (op : Op) → Decidable (io.AtEnd op)
  | .cancelAll fd _ => inferInstanceAs (Decidable (fd.val = io.fdContexts.length))
  | .addEvent .. | .delEvent .. | .cancelEvent .. | .idle .. => .isFalse id

/-! ## The reads are what can go out of bounds -/

theorem contextPtr_outOfBounds_iff {io : IOManager} {fd : Fd} :
    io.contextPtr fd = .error .outOfBounds ↔ io.fdContexts.length ≤ fd.val := by
  unfold contextPtr
  rw [← List.getElem?_eq_none_iff]
  split <;> simp_all

theorem deref_ne_outOfBounds {io : IOManager} {p : FdPtr} : io.deref p ≠ .error .outOfBounds := by
  unfold deref
  split <;> nofun

theorem newHandler_ne_outOfBounds {caller : Caller} {cb : Option Callback} :
    newHandler caller cb ≠ .error .outOfBounds := by
  unfold newHandler
  split
  · nofun
  · split <;> nofun

theorem triggerEvent_ne_outOfBounds {ctx : FdContext} {e : Event} {queues : Queues} :
    ctx.triggerEvent e queues ≠ .error .outOfBounds := by
  intro h
  unfold FdContext.triggerEvent at h
  split at h
  · rcases bind_error h with h | ⟨x, -, h⟩
    · unfold FdContext.handOver at h
      split at h
      · cases h
      · split at h <;> cases h
    · cases h
  · cases h

theorem triggerIf_ne_outOfBounds {cond : Bool} {e : Event} {st : FdContext × Queues × BitVec 64} :
    triggerIf cond e st ≠ .error .outOfBounds := by
  intro h
  unfold triggerIf at h
  split at h
  · rcases bind_error h with h | ⟨x, -, h⟩
    · exact triggerEvent_ne_outOfBounds h
    · cases h
  · cases h

theorem addEventLocked_ne_outOfBounds {io : IOManager} {p : FdPtr} {fd : Fd} {event : Event}
    {caller : Caller} {cb : Option Callback} {ok : Bool} :
    io.addEventLocked p fd event caller cb ok ≠ .error .outOfBounds := by
  intro h
  unfold addEventLocked at h
  rcases bind_error h with h | ⟨ctx, -, h⟩
  · exact deref_ne_outOfBounds h
  · split at h
    · cases h
    · dsimp only at h
      split at h
      · cases h
      · split at h
        · rcases bind_error h with h | ⟨ec, -, h⟩
          · exact newHandler_ne_outOfBounds h
          · cases h
        · cases h

section

variable {io : IOManager} {fd : Fd} {event : Event} {ok : Bool}

theorem read_outOfBounds_iff {α : Type} {f : FdPtr → Except Fault α}
    (hf : ∀ p, f p ≠ .error .outOfBounds) :
    (io.contextPtr fd >>= f) = .error .outOfBounds ↔ io.fdContexts.length ≤ fd.val := by
  rw [← contextPtr_outOfBounds_iff]
  constructor
  · intro h
    rcases bind_error h with h | ⟨p, -, h⟩
    · exact h
    · exact absurd h (hf p)
  · intro h
    rw [h]
    rfl

theorem addEvent_outOfBounds_iff {caller : Caller} {cb : Option Callback} :
    io.addEvent fd event caller cb ok = .error .outOfBounds ↔
      ∃ r ∈ io.tableReads (.addEvent fd event caller cb ok), r.2 ≤ r.1 := by
  rw [tableReads, addEvent]
  by_cases hlt : (fd : Int) < io.tableSize
  · have hfind : io.addEventFind fd = io.contextPtr fd >>= fun p ↦ .ok (some p) := if_pos hlt
    rw [if_pos hlt, hfind]
    simp only [List.mem_singleton, exists_eq_left, bind_assoc]
    exact read_outOfBounds_iff fun p ↦ addEventLocked_ne_outOfBounds
  · have hfind : io.addEventFind fd = .ok none := if_neg hlt
    have hgrow : io.addEventGrow fd = (io.contextResize (growSize fd)).contextPtr fd >>=
        fun p ↦ .ok (p, io.contextResize (growSize fd)) := rfl
    rw [if_neg hlt, hfind]
    simp only [List.mem_singleton, exists_eq_left]
    show (io.addEventGrow fd >>= _) = _ ↔ _
    rw [hgrow, bind_assoc]
    exact read_outOfBounds_iff fun p ↦ addEventLocked_ne_outOfBounds

theorem delEvent_outOfBounds_iff : io.delEvent fd event ok = .error .outOfBounds ↔
    ∃ r ∈ io.tableReads (.delEvent fd event ok), r.2 ≤ r.1 := by
  rw [tableReads, delEvent]
  split
  · simp
  · simp only [List.mem_singleton, exists_eq_left]
    apply read_outOfBounds_iff
    intro p h
    rcases bind_error h with h | ⟨ctx, -, h⟩
    · exact deref_ne_outOfBounds h
    · split at h
      · cases h
      · split at h <;> cases h

theorem cancelEvent_outOfBounds_iff : io.cancelEvent fd event ok = .error .outOfBounds ↔
    ∃ r ∈ io.tableReads (.cancelEvent fd event ok), r.2 ≤ r.1 := by
  rw [tableReads, cancelEvent]
  split
  · simp
  · simp only [List.mem_singleton, exists_eq_left]
    apply read_outOfBounds_iff
    intro p h
    rcases bind_error h with h | ⟨ctx, -, h⟩
    · exact deref_ne_outOfBounds h
    · split at h
      · split at h
        · cases h
        · rcases bind_error h with h | ⟨x, -, h⟩
          · exact triggerEvent_ne_outOfBounds h
          · split at h <;> cases h
      · cases h

theorem cancelAll_outOfBounds_iff : io.cancelAll fd ok = .error .outOfBounds ↔
    ∃ r ∈ io.tableReads (.cancelAll fd ok), r.2 ≤ r.1 := by
  rw [tableReads, cancelAll]
  split
  · simp
  · simp only [List.mem_singleton, exists_eq_left]
    apply read_outOfBounds_iff
    intro p h
    rcases bind_error h with h | ⟨ctx, -, h⟩
    · exact deref_ne_outOfBounds h
    · split at h
      · cases h
      · split at h
        · cases h
        · rcases bind_error h with h | ⟨st, -, h⟩
          · exact triggerIf_ne_outOfBounds h
          · rcases bind_error h with h | ⟨st', -, h⟩
            · exact triggerIf_ne_outOfBounds h
            · split at h <;> cases h

theorem handleReport_ne_outOfBounds {report : EpollEvent} :
    io.handleReport report ok ≠ .error .outOfBounds := by
  intro h
  unfold handleReport at h
  split at h
  · split at h <;> cases h
  · rcases bind_error h with h | ⟨ctx, -, h⟩
    · exact deref_ne_outOfBounds h
    · dsimp only at h
      split at h
      · cases h
      · split at h
        · cases h
        · rcases bind_error h with h | ⟨st, -, h⟩
          · exact triggerIf_ne_outOfBounds h
          · rcases bind_error h with h | ⟨st', -, h⟩
            · exact triggerIf_ne_outOfBounds h
            · cases h

theorem map_outOfBounds_iff {α β : Type} {x : Except Fault α} {f : α → β} :
    f <$> x = .error .outOfBounds ↔ x = .error .outOfBounds := by
  constructor
  · exact map_error
  · intro h
    rw [h]
    rfl

theorem step_outOfBounds_iff {op : Op} :
    io.step op = .error .outOfBounds ↔ ∃ r ∈ io.tableReads op, r.2 ≤ r.1 := by
  cases op with
  | addEvent => exact map_outOfBounds_iff.trans addEvent_outOfBounds_iff
  | delEvent => exact map_outOfBounds_iff.trans delEvent_outOfBounds_iff
  | cancelEvent => exact map_outOfBounds_iff.trans cancelEvent_outOfBounds_iff
  | cancelAll => exact map_outOfBounds_iff.trans cancelAll_outOfBounds_iff
  | idle event ok =>
      refine ⟨fun h ↦ absurd h handleReport_ne_outOfBounds, fun ⟨r, hr, _⟩ ↦ ?_⟩
      exact absurd hr List.not_mem_nil

end

/-! ## Every reachable state -/

/-- A table large enough for every growth to enlarge it, and small enough for the cast. -/
structure Sized (io : IOManager) : Prop where
  sound : io.Sound
  min : 32 ≤ io.fdContexts.length
  small : io.fdContexts.length < 2 ^ 31

section

variable {io io' : IOManager}

theorem Sized.entered (h : io.Sized) {fd : Fd}
    (hfits : fd.val < io.fdContexts.length ∨ growSize fd < 2 ^ 31) (he : Entered io fd io') :
    io'.Sized := by
  rcases he with ⟨rfl, -⟩ | ⟨rfl, hge⟩
  · exact h
  · rw [tableSize_eq h.small] at hge
    have hmin := h.min
    have hgrow := lt_growSize_succ fd
    refine ⟨⟨h.sound.wellFormed.contextResize _, contextResize_filled h.sound.filled _⟩, ?_, ?_⟩
    · rw [contextResize_length]
      omega
    · rw [contextResize_length]
      omega

theorem Sized.change (h : io.Sized) {op : Op} (hfits : io.Fits op) (hc : Change io op io') :
    io'.Sized := by
  have hsound := h.sound.change hc
  cases hc with
  | same => exact h
  | grown he => exact h.entered hfits he
  | @registered io₁ _ _ _ _ _ _ _ _ _ he =>
      have h₁ : io₁.Sized := h.entered hfits he
      exact ⟨hsound, h₁.min, h₁.small⟩
  | discarded | cancelled | cancelledAll | reported => exact ⟨hsound, h.min, h.small⟩

theorem construct_sized (notifyFd : Fd) : (construct notifyFd).Sized := by
  have hlen : (construct notifyFd).fdContexts.length = 32 := contextResize_length _ 32
  refine ⟨construct_sound notifyFd, ?_, ?_⟩
  · omega
  · omega

/-- Where `addEvent` has to grow the table, its fd is at least 32, so the new size exceeds it. -/
theorem Sized.lt_growSize (h : io.Sized) {fd : Fd} (hge : io.tableSize ≤ fd) :
    fd.val < growSize fd := by
  rw [tableSize_eq h.small] at hge
  have hmin := h.min
  unfold growSize
  omega

/-- The reads of every operation but one are in bounds, and those of `cancelAll` unless its fd is the
size of the table. -/
theorem Sized.reads_iff (h : io.Sized) (op : Op) :
    (∀ r ∈ io.tableReads op, r.1 < r.2) ↔ ¬ io.AtEnd op := by
  have hsize := tableSize_eq h.small
  cases op with
  | addEvent fd event caller cb ok =>
      refine iff_of_true ?_ id
      rw [tableReads]
      split
      · intro r hr
        rw [List.mem_singleton.mp hr]
        show fd.val < io.fdContexts.length
        omega
      · rename_i hge
        intro r hr
        rw [List.mem_singleton.mp hr]
        show fd.val < (io.contextResize (growSize fd)).fdContexts.length
        rw [contextResize_length]
        exact h.lt_growSize (Int.not_lt.mp hge)
  -- these test `fd` against the size with `<=`, `cancelAll` with `<`
  | delEvent fd event ok | cancelEvent fd event ok =>
      refine iff_of_true ?_ id
      rw [tableReads]
      split
      · exact fun r hr ↦ absurd hr List.not_mem_nil
      · intro r hr
        rw [List.mem_singleton.mp hr]
        show fd.val < io.fdContexts.length
        omega
  | cancelAll fd ok =>
      rw [tableReads]
      -- the test lets the size itself pass
      show _ ↔ ¬ fd.val = io.fdContexts.length
      split
      · refine iff_of_true (fun r hr ↦ absurd hr List.not_mem_nil) ?_
        omega
      · simp only [List.mem_singleton, forall_eq]
        omega
  | idle => exact iff_of_true (fun r hr ↦ absurd hr List.not_mem_nil) id

/-- Behind the table `delEvent` and `cancelEvent` do nothing, and `cancelAll` does nothing one further
on. -/
theorem Sized.outside (h : io.Sized) {fd : Fd} (hfd : io.fdContexts.length ≤ fd.val) (event : Event)
    (ok : Bool) : io.delEvent fd event ok = .ok (false, io) ∧
      io.cancelEvent fd event ok = .ok (false, io) ∧
      (io.cancelAll fd ok = .ok (false, io) ↔ fd.val ≠ io.fdContexts.length) := by
  have hsize := tableSize_eq h.small
  have hle : io.tableSize ≤ fd := by omega
  refine ⟨if_pos hle, if_pos hle, ?_⟩
  constructor
  · intro hall hend
    rw [cancelAll_at_size hfd (by omega)] at hall
    cases hall
  · intro hne
    apply if_pos
    omega

end

/-- The steps of a run in which every access stays in the table. -/
def Bounded (io : IOManager) (op : Op) : Prop := io.Fits op ∧ ¬ io.AtEnd op

theorem run_sized {notifyFd : Fd} {ops : List Op} {io : IOManager}
    (h : Run (Guarded Step Bounded) (construct notifyFd) ops io) : io.Sized :=
  h.invariant
    (fun _ _ _ hs hstep ↦ hs.change hstep.2.1 (step_cases hs.sound.wellFormed hstep.1))
    (construct_sized notifyFd)

/-- In every state reached by steps that keep the size of the table within an `int`: each entry is a
context whose `fd` is its index, a growth makes the index valid, every read of the next step is in
bounds unless that step is a `cancelAll` of the index equal to the size, and behind the table the
removals do nothing, with the same exception. -/
theorem table_in_bounds {notifyFd : Fd} {ops : List Op} {io : IOManager}
    (h : Run (Guarded Step Bounded) (construct notifyFd) ops io) :
    (∀ k, k < io.fdContexts.length →
      ∃ p ctx, io.fdContexts[k]? = some (some p) ∧ io.heap[p]? = some ctx ∧ ctx.fd = k) ∧
    (∀ fd : Fd, io.tableSize ≤ fd → fd.val < (io.contextResize (growSize fd)).fdContexts.length) ∧
    (∀ op, (∀ r ∈ io.tableReads op, r.1 < r.2) ↔ ¬ io.AtEnd op) ∧
    ∀ fd : Fd, io.fdContexts.length ≤ fd.val → ∀ event ok,
      io.delEvent fd event ok = .ok (false, io) ∧ io.cancelEvent fd event ok = .ok (false, io) ∧
        (io.cancelAll fd ok = .ok (false, io) ↔ fd.val ≠ io.fdContexts.length) := by
  have hs := run_sized h
  refine ⟨hs.sound.filled, fun fd hge ↦ ?_, hs.reads_iff, fun fd hfd event ok ↦ hs.outside hfd event ok⟩
  rw [contextResize_length]
  exact hs.lt_growSize hge

/-- A run in which the table grows, and calls name descriptors behind it. -/
def growingRun : List Op :=
  [.addEvent 5 .read someCaller (some 7) true, .cancelAll 33 true, .delEvent 32 .read true,
    .addEvent 32 .write someCaller none true, .cancelAll 32 true, .cancelEvent 48 .read true]

theorem table_in_bounds_growing : ∃ io, Run (Guarded Step Bounded) (construct 4) growingRun io ∧
    (∀ k, k < io.fdContexts.length →
      ∃ p ctx, io.fdContexts[k]? = some (some p) ∧ io.heap[p]? = some ctx ∧ ctx.fd = k) ∧
    (∀ fd : Fd, io.tableSize ≤ fd → fd.val < (io.contextResize (growSize fd)).fdContexts.length) ∧
    (∀ op, (∀ r ∈ io.tableReads op, r.1 < r.2) ↔ ¬ io.AtEnd op) ∧
    ∀ fd : Fd, io.fdContexts.length ≤ fd.val → ∀ event ok,
      io.delEvent fd event ok = .ok (false, io) ∧ io.cancelEvent fd event ok = .ok (false, io) ∧
        (io.cancelAll fd ok = .ok (false, io) ↔ fd.val ≠ io.fdContexts.length) := by
  obtain ⟨io, hrun, -⟩ := exists_checked_run (R := Guarded Step Bounded)
    (fun io op ↦ decide (io.Fits op) && !decide (io.AtEnd op))
    (fun s a s' hs hok ↦ ⟨hs, by simpa [Bounded] using hok⟩) (construct 4) growingRun
    (P := fun _ ↦ true) (by decide +kernel)
  exact ⟨io, hrun, table_in_bounds hrun⟩

/-- Right after the constructor `cancelAll(32)` reads one past the table.  And after a growth to
`2 ^ 31 + 1` entries `addEvent(1)` cuts the table down to one entry and reads the second. -/
theorem table_out_of_bounds :
    ((32, 32) ∈ (construct 4).tableReads (.cancelAll 32 true) ∧
      (construct 4).step (.cancelAll 32 true) = .error .outOfBounds) ∧
    ∃ io, Run Step (construct 4) [.addEvent 1431655766 .read someCaller none false] io ∧
      (1, 1) ∈ io.tableReads (.addEvent 1 .read someCaller none true) ∧
      io.step (.addEvent 1 .read someCaller none true) = .error .outOfBounds := by
  have hlen : (construct 4).fdContexts.length = 32 := contextResize_length _ 32
  have hread : (32, 32) ∈ (construct 4).tableReads (.cancelAll 32 true) := by decide +kernel
  have hlarge : ∀ io : IOManager, io.fdContexts.length = 2147483649 →
      (1, 1) ∈ io.tableReads (.addEvent 1 .read someCaller none true) := by
    intro io hio
    -- the cast makes the size negative
    have hneg : ¬ ((1 : Fd) : Int) < io.tableSize := by
      unfold tableSize
      rw [hio]
      decide
    rw [tableReads, if_neg hneg, contextResize_length]
    exact List.mem_singleton.mpr rfl
  have hgrown : (((construct 4).contextResize 2147483649)).fdContexts.length = 2147483649 :=
    contextResize_length _ _
  refine ⟨⟨hread, step_outOfBounds_iff.mpr ⟨_, hread, Nat.le_refl _⟩⟩, _, .cons ?_ (.nil _),
    hlarge _ hgrown, step_outOfBounds_iff.mpr ⟨_, hlarge _ hgrown, Nat.le_refl _⟩⟩
  have hsize : (construct 4).tableSize = 32 := by
    rw [tableSize_eq (by omega), hlen]
    rfl
  apply addEvent_refused (construct_filled 4) (by decide) (by rw [hsize]; decide)
  rw [context_outside (by rw [hlen]; decide)]
  rfl

end Server.IOManager
