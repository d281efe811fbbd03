import ServerFramework.IOManager.Specs

/-!
# The table of contexts and its growth

`contextResize` only allocates: the objects already on the heap stay as they are, and every new one
is empty.  Entries that stay inside the new size keep their pointer.
-/

namespace Server.IOManager

theorem fillNulls_heap (heap : List FdContext) (i : Nat) (table : List (Option FdPtr)) :
    ∃ news, (fillNulls heap i table).1 = heap ++ news ∧ ∀ c ∈ news, ∃ j, c = FdContext.new j := by
  induction table generalizing heap i with
  | nil => exact ⟨[], by simp [fillNulls], by simp⟩
  | cons o rest ih =>
      cases o with
      | some p =>
          obtain ⟨news, hn, hall⟩ := ih heap (i + 1)
          exact ⟨news, hn, hall⟩
      | none =>
          obtain ⟨news, hn, hall⟩ := ih (heap ++ [FdContext.new i]) (i + 1)
          refine ⟨FdContext.new i :: news, ?_, ?_⟩
          · rw [fillNulls, hn, List.append_assoc, List.singleton_append]
          · intro c hc
            rcases List.mem_cons.mp hc with rfl | hc
            · exact ⟨i, rfl⟩
            · exact hall c hc

/-- Pointers are kept, and null entries get a context whose `fd` is their index. -/
theorem fillNulls_getElem? (heap : List FdContext) (i : Nat) (table : List (Option FdPtr))
    (k : Nat) :
    (fillNulls heap i table).2[k]? = none ∧ table[k]? = none ∨
      (∃ p, (fillNulls heap i table).2[k]? = some (some p) ∧
        (table[k]? = some (some p) ∨ table[k]? = some none ∧
          (fillNulls heap i table).1[p]? = some (FdContext.new (i + k)))) := by
  induction table generalizing heap i k with
  | nil => exact .inl ⟨by simp [fillNulls], by simp⟩
  | cons o rest ih =>
      cases o with
      | some p =>
          cases k with
          | zero => exact .inr ⟨p, rfl, .inl rfl⟩
          | succ k =>
              have hk := ih heap (i + 1) k
              rw [show i + 1 + k = i + (k + 1) by omega] at hk
              simpa only [fillNulls, List.getElem?_cons_succ] using hk
      | none =>
          cases k with
          | zero =>
              -- the first null entry gets the first object that is allocated
              refine .inr ⟨heap.length, rfl, .inr ⟨rfl, ?_⟩⟩
              obtain ⟨news, hn, -⟩ := fillNulls_heap (heap ++ [FdContext.new i]) (i + 1) rest
              rw [fillNulls, hn]
              simp
          | succ k =>
              have hk := ih (heap ++ [FdContext.new i]) (i + 1) k
              rw [show i + 1 + k = i + (k + 1) by omega] at hk
              simpa only [fillNulls, List.getElem?_cons_succ] using hk

/-- Every object that is allocated is entered in the table, at the index in its `fd`. -/
theorem fillNulls_new (heap : List FdContext) (i : Nat) (table : List (Option FdPtr)) {q : FdPtr}
    {ctx : FdContext} (hq : heap.length ≤ q) (h : (fillNulls heap i table).1[q]? = some ctx) :
    ∃ k, ctx = FdContext.new (i + k) ∧ (fillNulls heap i table).2[k]? = some (some q) := by
  induction table generalizing heap i with
  | nil =>
      rw [fillNulls, List.getElem?_eq_none hq] at h
      cases h
  | cons o rest ih =>
      cases o with
      | some p =>
          obtain ⟨k, hctx, hk⟩ := ih heap (i + 1) hq h
          exact ⟨k + 1, by rw [hctx, Nat.add_right_comm, Nat.add_assoc], hk⟩
      | none =>
          -- the object is this entry's own, or one of a later entry
          by_cases hnew : q = heap.length
          · subst hnew
            obtain ⟨news, hn, -⟩ := fillNulls_heap (heap ++ [FdContext.new i]) (i + 1) rest
            rw [fillNulls, hn, List.append_assoc, List.getElem?_append_right (Nat.le_refl _)] at h
            simp only [Nat.sub_self, List.singleton_append, List.getElem?_cons_zero,
              Option.some_inj] at h
            exact ⟨0, h.symm, rfl⟩
          · have hq' : (heap ++ [FdContext.new i]).length ≤ q := by
              rw [List.length_append, List.length_singleton]
              exact Nat.lt_of_le_of_ne hq (Ne.symm hnew)
            obtain ⟨k, hctx, hk⟩ := ih (heap ++ [FdContext.new i]) (i + 1) hq' h
            exact ⟨k + 1, by rw [hctx, Nat.add_right_comm, Nat.add_assoc], hk⟩

theorem fillNulls_length (heap : List FdContext) (i : Nat) (table : List (Option FdPtr)) :
    (fillNulls heap i table).2.length = table.length := by
  induction table generalizing heap i with
  | nil => rfl
  | cons o rest ih => cases o <;> simp [fillNulls, ih]

/-- One object is allocated for each null entry. -/
theorem fillNulls_heap_length (heap : List FdContext) (i : Nat) (table : List (Option FdPtr)) :
    (fillNulls heap i table).1.length = heap.length + table.count none := by
  induction table generalizing heap i with
  | nil => simp [fillNulls]
  | cons o rest ih =>
      cases o with
      | some p => simp [fillNulls, ih]
      | none =>
          simp only [fillNulls, ih, List.length_append, List.length_singleton,
            List.count_cons_self]
          omega

theorem resizeTable_getElem? (table : List (Option FdPtr)) (size k : Nat) :
    (resizeTable table size)[k]? =
      if k < size then (if k < table.length then table[k]? else some none) else none := by
  unfold resizeTable
  by_cases hs : k < size
  · by_cases ht : k < table.length
    · rw [if_pos hs, if_pos ht, List.getElem?_append_left (by simp; omega), List.getElem?_take,
        if_pos hs]
    · rw [if_pos hs, if_neg ht, List.getElem?_append_right (by simp; omega),
        List.getElem?_replicate, if_pos (by simp; omega)]
  · rw [if_neg hs]
    apply List.getElem?_eq_none
    simp only [List.length_append, List.length_take, List.length_replicate]
    omega

theorem contextResize_heap (io : IOManager) (size : Nat) :
    ∃ news, (io.contextResize size).heap = io.heap ++ news ∧
      ∀ c ∈ news, ∃ j, c = FdContext.new j :=
  fillNulls_heap _ _ _

theorem contextResize_length (io : IOManager) (size : Nat) :
    (io.contextResize size).fdContexts.length = size := by
  unfold contextResize
  rw [fillNulls_length, resizeTable, List.length_append, List.length_take, List.length_replicate]
  omega

/-- A table without null entries that grows allocates one object for each new index. -/
theorem contextResize_heap_length {io : IOManager} {size : Nat}
    (hfull : io.fdContexts.count none = 0) (hsize : io.fdContexts.length ≤ size) :
    (io.contextResize size).heap.length = io.heap.length + (size - io.fdContexts.length) := by
  unfold contextResize
  rw [fillNulls_heap_length, resizeTable, List.take_of_length_le hsize, List.count_append, hfull,
    List.count_replicate_self, Nat.zero_add]

/-- An object on the heap is untouched by a resize. -/
theorem contextResize_getElem?_heap {io : IOManager} {p : FdPtr} {ctx : FdContext}
    (h : io.heap[p]? = some ctx) (size : Nat) : (io.contextResize size).heap[p]? = some ctx := by
  obtain ⟨news, hn, -⟩ := contextResize_heap io size
  rw [hn, List.getElem?_append_left (List.getElem?_eq_some_iff.mp h).1, h]

/-- An entry that stays inside the table keeps its pointer. -/
theorem contextResize_keeps {io : IOManager} {k size : Nat} {p : FdPtr}
    (h : io.fdContexts[k]? = some (some p)) (hk : k < size) :
    (io.contextResize size).fdContexts[k]? = some (some p) := by
  have hlen : k < io.fdContexts.length := (List.getElem?_eq_some_iff.mp h).1
  have hr : (resizeTable io.fdContexts size)[k]? = some (some p) := by
    rw [resizeTable_getElem?, if_pos hk, if_pos hlen, h]
  rcases fillNulls_getElem? io.heap 0 (resizeTable io.fdContexts size) k with
    ⟨-, hn⟩ | ⟨p', hp', hsome | ⟨hnone, -⟩⟩
  · rw [hr] at hn
    cases hn
  · rw [hr] at hsome
    cases hsome
    exact hp'
  · rw [hr] at hnone
    cases hnone

/-- While the size fits an `int`, the cast does not change it. -/
theorem tableSize_eq {io : IOManager} (h : io.fdContexts.length < 2 ^ 31) :
    io.tableSize = io.fdContexts.length := by
  unfold tableSize
  rw [BitVec.toInt_ofNat', Int.bmod_def]
  omega

theorem lt_growSize_succ (fd : Fd) : fd.val ≤ growSize fd := by
  unfold growSize
  omega

/-- Every entry is a context whose `fd` is the index. -/
def TableFilled (io : IOManager) : Prop :=
  ∀ k, k < io.fdContexts.length →
    ∃ p ctx, io.fdContexts[k]? = some (some p) ∧ io.heap[p]? = some ctx ∧ ctx.fd = k

theorem TableFilled.count_none {io : IOManager} (h : io.TableFilled) :
    io.fdContexts.count none = 0 := by
  rw [List.count_eq_zero]
  intro hmem
  obtain ⟨k, hk, hnone⟩ := List.mem_iff_getElem.mp hmem
  obtain ⟨p, ctx, hp, -⟩ := h k hk
  rw [List.getElem?_eq_getElem hk, hnone] at hp
  cases hp

theorem contextResize_filled {io : IOManager} (h : io.TableFilled) (size : Nat) :
    (io.contextResize size).TableFilled := by
  intro k hk
  rw [contextResize_length] at hk
  rcases fillNulls_getElem? io.heap 0 (resizeTable io.fdContexts size) k with
    ⟨-, hn⟩ | ⟨p, hp, hsome | ⟨-, hnew⟩⟩
  · rw [resizeTable_getElem?, if_pos hk] at hn
    split at hn
    · rename_i hlen
      rw [List.getElem?_eq_getElem hlen] at hn
      cases hn
    · cases hn
  · rw [resizeTable_getElem?, if_pos hk] at hsome
    split at hsome
    · rename_i hlen
      obtain ⟨p', ctx, hp', hctx, hfd⟩ := h k hlen
      rw [hp'] at hsome
      cases hsome
      exact ⟨p, ctx, hp, contextResize_getElem?_heap hctx size, hfd⟩
    · cases hsome
  · exact ⟨p, _, hp, hnew, by simp [FdContext.new]⟩

/-- A resize keeps the table as a prefix exactly when it does not shrink it. -/
theorem contextResize_prefix_iff {io : IOManager} (h : io.TableFilled) (size : Nat) :
    io.fdContexts <+: (io.contextResize size).fdContexts ↔ io.fdContexts.length ≤ size := by
  constructor
  · intro hpre
    have hle := hpre.length_le
    rwa [contextResize_length] at hle
  · intro hsize
    rw [List.prefix_iff_getElem?]
    intro k hk
    obtain ⟨p, ctx, hp, -⟩ := h k hk
    rw [List.getElem?_eq_getElem hk] at hp
    rw [Option.some.inj hp]
    exact contextResize_keeps ((List.getElem?_eq_getElem hk).trans hp) (Nat.lt_of_lt_of_le hk hsize)

theorem construct_filled (notifyFd : Fd) : (construct notifyFd).TableFilled := by
  apply contextResize_filled
  intro k hk
  exact absurd hk (Nat.not_lt_zero k)

/-- Rewriting one context without changing its `fd` keeps the table filled. -/
theorem TableFilled.set {io io' : IOManager} (h : io.TableFilled) {p : FdPtr}
    {ctx ctx' : FdContext} (hctx : io.heap[p]? = some ctx) (hfd : ctx'.fd = ctx.fd)
    (htable : io'.fdContexts = io.fdContexts) (hheap : io'.heap = io.heap.set p ctx') :
    io'.TableFilled := by
  intro k hk
  rw [htable] at hk ⊢
  obtain ⟨q, c, hq, hc, hk⟩ := h k hk
  -- the pointer stays, whether or not its object is the one that is rewritten
  by_cases hpq : p = q
  · subst hpq
    rw [hctx] at hc
    cases hc
    refine ⟨p, ctx', hq, ?_, hfd.trans hk⟩
    rw [hheap, List.getElem?_set_self (List.getElem?_eq_some_iff.mp hctx).1]
  · refine ⟨q, c, hq, ?_, hk⟩
    rw [hheap, List.getElem?_set_ne hpq, hc]

end Server.IOManager
