import ServerFramework.IOManager.Linearization
import Mathlib.Data.List.Nodup

/-!
# The destructor

`~IOManager` deletes what its table points to.  Two `addEvent`s that grow the table at the same time
can make it smaller again, and nobody deletes the objects that are cut off then; of all others each
is deleted once.
-/

namespace Server.IOManager

open Fallible Runs

inductive DeleteFault where
  /-- an object is deleted twice, or does not exist -/
  | invalidDelete
  deriving DecidableEq, Repr

/-- The loop of the destructor, with the objects that have been deleted. -/
def deleteAll (io : IOManager) (deleted : List FdPtr) :
    List (Option FdPtr) → Except DeleteFault (List FdPtr)
  | [] => .ok deleted
  | none :: rest => io.deleteAll deleted rest
  | some p :: rest =>
    if p ∈ deleted ∨ io.heap.length ≤ p then .error .invalidDelete
    else io.deleteAll (deleted ++ [p]) rest

/-- `~IOManager` after `stop`; the descriptors that it closes are not modelled. -/
def destroy (io : IOManager) : Except DeleteFault (List FdPtr) := io.deleteAll [] io.fdContexts

section

variable {io io' : IOManager} {p : FdPtr} {ctx ctx' : FdContext} {op : Op} {e : Event}

theorem deleteAll_ok {ps deleted : List FdPtr} (hnodup : (deleted ++ ps).Nodup)
    (hlt : ∀ p ∈ ps, p < io.heap.length) :
    io.deleteAll deleted (ps.map some) = .ok (deleted ++ ps) := by
  induction ps generalizing deleted with
  | nil => simp [deleteAll]
  | cons p ps ih =>
      have hp : p ∉ deleted := fun hmem ↦
        (List.nodup_append.mp hnodup).2.2 p hmem p List.mem_cons_self rfl
      have hrest : (deleted ++ [p] ++ ps).Nodup := by simpa using hnodup
      rw [List.map_cons, deleteAll, if_neg, ih hrest fun q hq ↦ hlt q (List.mem_cons_of_mem p hq)]
      · simp
      · rintro (hmem | hle)
        · exact hp hmem
        · exact absurd (hlt p List.mem_cons_self) (Nat.not_lt.mpr hle)

/-- The table points to different objects. -/
theorem TableFilled.pointers (h : io.TableFilled) :
    ∃ ps : List FdPtr, io.fdContexts = ps.map some ∧ ps.Nodup ∧ ∀ p ∈ ps, p < io.heap.length := by
  have hsome : ∀ x ∈ io.fdContexts, some (x.getD 0) = x := by
    intro x hx
    obtain ⟨k, hk, rfl⟩ := List.mem_iff_getElem.mp hx
    obtain ⟨p, -, hp, -⟩ := h k hk
    rw [List.getElem?_eq_getElem hk] at hp
    rw [Option.some.inj hp]
    rfl
  obtain ⟨ps, hps⟩ : ∃ ps : List FdPtr, ps.map some = io.fdContexts := by
    refine ⟨io.fdContexts.map (·.getD 0), ?_⟩
    rw [List.map_map]
    exact (List.map_congr_left hsome).trans (List.map_id _)
  -- the object at an index carries the index
  have hat : ∀ k (hk : k < ps.length), ∃ ctx, io.heap[ps[k]]? = some ctx ∧ ctx.fd = k := by
    intro k hk
    obtain ⟨p, ctx, hp, hctx, hfd⟩ := h k (by rw [← hps, List.length_map]; exact hk)
    rw [← hps, List.getElem?_map, List.getElem?_eq_getElem hk, Option.map_some] at hp
    cases hp
    exact ⟨ctx, hctx, hfd⟩
  refine ⟨ps, hps.symm, ?_, fun p hp ↦ ?_⟩
  · -- so equal objects have equal indices
    rw [List.nodup_iff_injective_getElem]
    rintro ⟨i, hi⟩ ⟨j, hj⟩ hij
    obtain ⟨ctx, hctx, rfl⟩ := hat i hi
    obtain ⟨ctx', hctx', rfl⟩ := hat j hj
    dsimp only at hij
    rw [hij, hctx'] at hctx
    cases hctx
    rfl
  · obtain ⟨k, hk, rfl⟩ := List.mem_iff_getElem.mp hp
    obtain ⟨ctx, hctx, -⟩ := hat k hk
    exact (List.getElem?_eq_some_iff.mp hctx).1

/-! ## What a section does to the objects -/

/-- The table stays, and so do the objects, with their descriptors. -/
inductive Rewrites (io io' : IOManager) : Prop where
  | same : io' = io → Rewrites io io'
  | context (p : FdPtr) (ctx ctx' : FdContext) : io.heap[p]? = some ctx → ctx'.fd = ctx.fd →
      io'.fdContexts = io.fdContexts → io'.heap = io.heap.set p ctx' → Rewrites io io'

theorem triggerEvent_fd {queues queues' : Queues}
    (h : ctx.triggerEvent e queues = .ok (ctx', queues')) : ctx'.fd = ctx.fd := by
  unfold FdContext.triggerEvent at h
  split at h
  · obtain ⟨⟨ec, queues₁⟩, -, h⟩ := bind_ok h
    cases h
    exact FdContext.setContext_fd _ _ _
  · cases h

theorem triggerIf_fd {cond : Bool} {st st' : FdContext × Queues × BitVec 64}
    (h : triggerIf cond e st = .ok st') : st'.1.fd = st.1.fd := by
  unfold triggerIf at h
  split at h
  · obtain ⟨⟨ctx, queues⟩, htrigger, h⟩ := bind_ok h
    cases h
    exact triggerEvent_fd htrigger
  · cases h
    rfl

theorem rewrites_handleReport {event : EpollEvent} {ok : Bool}
    (h : io.handleReport event ok = .ok io') : Rewrites io io' := by
  unfold handleReport at h
  split at h
  · split at h
    · cases h
      exact .same rfl
    · cases h
  · rename_i p hdata
    obtain ⟨ctx, hctx, h⟩ := bind_ok h
    dsimp only at h
    split at h
    · cases h
      exact .same rfl
    · split at h
      · cases h
        exact .same rfl
      · obtain ⟨st, hread, h⟩ := bind_ok h
        obtain ⟨⟨ctx', queues, count⟩, hwrite, h⟩ := bind_ok h
        cases h
        exact .context p ctx ctx' (deref_ok hctx) ((triggerIf_fd hwrite).trans (triggerIf_fd hread)) rfl
          rfl

theorem rewrites_locked {r : Option Bool} (h : io.locked p op = .ok (r, io')) : Rewrites io io' := by
  cases op with
  | addEvent fd event caller cb ok =>
      obtain ⟨⟨r', io''⟩, hlocked, heq⟩ := map_ok h
      cases heq
      rcases addEventLocked_ok hlocked with ⟨-, rfl⟩ | ⟨-, ctx, epoll, ec, hctx, -, -, -, -, rfl⟩
      · exact .same rfl
      · exact .context p ctx _ hctx (FdContext.register_fd _ _ _) rfl rfl
  | delEvent fd event ok =>
      obtain ⟨⟨r', io''⟩, hlocked, heq⟩ := map_ok h
      cases heq
      obtain ⟨ctx, hctx, hlocked⟩ := bind_ok hlocked
      dsimp only at hlocked
      split at hlocked
      · cases hlocked
        exact .same rfl
      · split at hlocked
        · cases hlocked
          exact .same rfl
        · cases hlocked
          exact .context p ctx _ (deref_ok hctx)
            (FdContext.setContext_fd { ctx with events := ctx.events.erase event } _ _) rfl rfl
  | cancelEvent fd event ok =>
      obtain ⟨⟨r', io''⟩, hlocked, heq⟩ := map_ok h
      cases heq
      obtain ⟨ctx, hctx, hlocked⟩ := bind_ok hlocked
      dsimp only at hlocked
      split at hlocked
      · split at hlocked
        · cases hlocked
          exact .same rfl
        · obtain ⟨⟨ctx', queues⟩, htrigger, hlocked⟩ := bind_ok hlocked
          dsimp only at hlocked
          split at hlocked
          · cases hlocked
            exact .context p ctx ctx' (deref_ok hctx) (triggerEvent_fd htrigger) rfl rfl
          · cases hlocked
      · cases hlocked
        exact .same rfl
  | cancelAll fd ok =>
      obtain ⟨⟨r', io''⟩, hlocked, heq⟩ := map_ok h
      cases heq
      obtain ⟨ctx, hctx, hlocked⟩ := bind_ok hlocked
      dsimp only at hlocked
      split at hlocked
      · cases hlocked
        exact .same rfl
      · split at hlocked
        · cases hlocked
          exact .same rfl
        · -- two directions in turn, in one context
          obtain ⟨st, hread, hlocked⟩ := bind_ok hlocked
          obtain ⟨⟨ctx', queues, count⟩, hwrite, hlocked⟩ := bind_ok hlocked
          dsimp only at hlocked
          split at hlocked
          · cases hlocked
            exact .context p ctx ctx' (deref_ok hctx) ((triggerIf_fd hwrite).trans (triggerIf_fd hread))
              rfl rfl
          · cases hlocked
  | idle event ok =>
      obtain ⟨io'', hreport, heq⟩ := map_ok h
      cases heq
      exact rewrites_handleReport hreport

/-- Every entry of the table has its object; `io'.heap` has as many more objects than `io.heap` as
the table gains entries. -/
structure Keeps (io io' : IOManager) : Prop where
  filled : io'.TableFilled
  objects : io'.heap.length + io.fdContexts.length =
    io.heap.length + io'.fdContexts.length + (io.fdContexts.length - io'.fdContexts.length)

theorem Rewrites.keeps (h : Rewrites io io') (hf : io.TableFilled) : Keeps io io' := by
  cases h with
  | same heq =>
      rw [heq]
      exact ⟨hf, by omega⟩
  | context p ctx ctx' hctx hfd htable hheap =>
      refine ⟨hf.set hctx hfd htable hheap, ?_⟩
      rw [htable, hheap, List.length_set]
      omega

theorem keeps_contextResize (hf : io.TableFilled) (size : Nat) :
    Keeps io (io.contextResize size) := by
  refine ⟨contextResize_filled hf size, ?_⟩
  have hnone : (io.fdContexts.take size).count none = 0 :=
    Nat.le_zero.mp (hf.count_none ▸ (List.take_sublist _ _).count_le none)
  have hheap : (io.contextResize size).heap.length =
      io.heap.length + (size - io.fdContexts.length) := by
    unfold contextResize
    rw [fillNulls_heap_length, resizeTable, List.count_append, hnone, List.count_replicate_self,
      Nat.zero_add]
  rw [hheap, contextResize_length]
  omega

end

/-! ## Runs -/

namespace Threads

variable {T : Type} [DecidableEq T] {notifyFd : Fd} {s s' : Threads T} {a : Act T} {as : List (Act T)}

/-- How many entries a step cuts off the table. -/
def cut (s : Threads T) (a : Act T) : Nat :=
  (s.step a).elim 0 fun s' ↦ s.io.fdContexts.length - s'.io.fdContexts.length

theorem step_keeps (hf : s.io.TableFilled) (hs : s.step a = some s') : Keeps s.io s'.io := by
  cases a with
  | begin t op =>
      rcases (begin_cases hs).2 with ⟨event, ok, io, -, hio, rfl⟩ | ⟨fd, stage, -, -, rfl⟩
      · exact (rewrites_handleReport hio).keeps hf
      · exact (Rewrites.same rfl).keeps hf
  | grow t =>
      unfold step at hs
      dsimp only at hs
      split at hs
      · obtain ⟨⟨p, io⟩, hgrow, rfl⟩ := Option.map_eq_some_iff.mp hs
        obtain ⟨q, -, heq⟩ := map_ok (toOption_eq_some hgrow)
        cases heq
        exact keeps_contextResize hf _
      · cases hs
  | enter t =>
      unfold step at hs
      dsimp only at hs
      split at hs
      · obtain ⟨⟨r, io⟩, hlocked, rfl⟩ := Option.map_eq_some_iff.mp hs
        exact (rewrites_locked (toOption_eq_some hlocked)).keeps hf
      · cases hs

theorem run_keeps (h : Run (Of step) s as s') (hf : s.io.TableFilled) :
    s'.io.TableFilled ∧ s'.io.heap.length + s.io.fdContexts.length =
      s.io.heap.length + s'.io.fdContexts.length + tally step cut s as := by
  induction h with
  | nil => exact ⟨hf, rfl⟩
  | @cons s s₁ s' a as hs _ ih =>
      have hs : s.step a = some s₁ := hs
      have hfirst := step_keeps hf hs
      obtain ⟨hfilled, hrest⟩ := ih hfirst.filled
      have hobjects := hfirst.objects
      have hcut : s.cut a = s.io.fdContexts.length - s₁.io.fdContexts.length := by
        rw [cut, hs]
        rfl
      refine ⟨hfilled, ?_⟩
      simp only [tally, hcut, hs]
      omega

/-- However the calls follow each other, the destructor deletes the objects that the table points
to, each of them once, and of all objects ever made only those remain that calls cut off the
table. -/
theorem destroy_deletes (h : Run (Of step) (start notifyFd : Threads T) as s) :
    ∃ deleted, s.io.destroy = .ok deleted ∧ deleted.Nodup ∧ (∀ p ∈ deleted, p < s.io.heap.length) ∧
      s.io.heap.length = deleted.length + tally step cut (start notifyFd : Threads T) as := by
  obtain ⟨hfilled, hobjects⟩ := run_keeps h (construct_filled notifyFd)
  obtain ⟨ps, hps, hnodup, hlt⟩ := hfilled.pointers
  refine ⟨ps, ?_, hnodup, hlt, ?_⟩
  · rw [destroy, hps]
    exact deleteAll_ok hnodup hlt
  · have hstart : (start notifyFd : Threads T).io.heap.length =
        (start notifyFd : Threads T).io.fdContexts.length := by
      show (construct notifyFd).heap.length = (construct notifyFd).fdContexts.length
      unfold construct
      rw [contextResize_heap_length rfl (Nat.zero_le _), contextResize_length]
      rfl
    rw [hps, List.length_map] at hobjects
    omega

/-- Both calls find a table that is too small, and the one for the smaller descriptor resizes it
last. -/
def shrinking : List (Act Bool) :=
  [.begin false (.addEvent 40 .read someCaller (some 7) true),
    .begin true (.addEvent 60 .read someCaller (some 8) true), .grow true, .grow false, .enter true]

theorem destroy_deletes_shrinking :
    ∃ s, Run (Of step) (start 4 : Threads Bool) shrinking s ∧
      tally step cut (start 4 : Threads Bool) shrinking = 30 ∧
      ∃ deleted, s.io.destroy = .ok deleted ∧ deleted.Nodup ∧ (∀ p ∈ deleted, p < s.io.heap.length) ∧
        s.io.heap.length = deleted.length + tally step cut (start 4 : Threads Bool) shrinking := by
  obtain ⟨s, hrun, -⟩ := exists_run (R := Of step) step (fun _ _ ↦ true) (fun _ _ _ hs _ ↦ hs)
    (start 4 : Threads Bool) shrinking (P := fun _ ↦ true) (by decide +kernel)
  exact ⟨s, hrun, by decide +kernel, destroy_deletes hrun⟩

end Threads

end Server.IOManager
