import ServerFramework.Scheduler.Steps

/-!
# The order in which tasks are taken

`schedule` adds to the end of `m_fibers`, and a worker takes the first entry that it may take, which
need not be the first entry.  So callbacks for the same thread id are taken in the order in which
they were scheduled, and a worker that passes over an entry does not keep it from the others.
-/

namespace Server

open Runs

/-! ## The first that may be taken -/

section

variable {α : Type} {p : α → Bool} {a x : α} {before after l : List α}

theorem takeFirst_eq_none_iff : takeFirst p l = none ↔ l.findIdx? p = none := by
  induction l with
  | nil => simp [takeFirst]
  | cons y ys ih =>
      rw [takeFirst, List.findIdx?_cons]
      split
      · simp
      · rw [Option.map_eq_none_iff, Option.map_eq_none_iff, ih]

theorem takeFirst_ne_none (ha : p a = true) : takeFirst p (before ++ a :: after) ≠ none := by
  induction before with
  | nil =>
      rw [List.nil_append, takeFirst, if_pos ha]
      exact Option.some_ne_none _
  | cons y ys ih =>
      rw [List.cons_append, takeFirst]
      split
      · exact Option.some_ne_none _
      · exact fun hnone ↦ ih (Option.map_eq_none_iff.mp hnone)

theorem takeFirst_findIdx {rest : List α} (h : takeFirst p l = some (x, rest)) :
    ∃ j, l.findIdx? p = some j := by
  rw [← Option.ne_none_iff_exists', Ne, ← takeFirst_eq_none_iff, h]
  exact Option.some_ne_none _

/-- What is taken is the given element, or it stands before it or, if that may not be taken, behind
it. -/
theorem takeFirst_at (h : takeFirst p (before ++ a :: after) = some (x, l)) :
    ∃ j, (before ++ a :: after).findIdx? p = some j ∧ (p a = true → j ≤ before.length) ∧
      if j = before.length then x = a ∧ l = before ++ after
      else ∃ before' after', l = before' ++ a :: after' ∧
        before'.length = if j < before.length then before.length - 1 else before.length := by
  induction before generalizing l with
  | nil =>
      rw [List.nil_append, takeFirst] at h
      rw [List.nil_append, List.findIdx?_cons]
      split at h
      · rename_i ha
        cases h
        exact ⟨0, if_pos ha, fun _ ↦ le_refl 0, rfl, rfl⟩
      · rename_i ha
        obtain ⟨⟨z, zs⟩, hz, heq⟩ := Option.map_eq_some_iff.mp h
        cases heq
        obtain ⟨j, hj⟩ := takeFirst_findIdx hz
        refine ⟨j + 1, ?_, fun h' ↦ absurd h' ha, ?_⟩
        · rw [if_neg ha, hj]
          rfl
        · rw [if_neg (by simp)]
          exact ⟨[], zs, rfl, rfl⟩
  | cons y ys ih =>
      rw [List.cons_append, takeFirst] at h
      rw [List.cons_append, List.findIdx?_cons]
      split at h
      · rename_i hy
        cases h
        refine ⟨0, if_pos hy, fun _ ↦ Nat.zero_le _, ?_⟩
        rw [if_neg (by simp)]
        exact ⟨ys, after, rfl, by simp⟩
      · rename_i hy
        obtain ⟨⟨z, zs⟩, hz, heq⟩ := Option.map_eq_some_iff.mp h
        cases heq
        obtain ⟨j, hj, hle, hcases⟩ := ih hz
        refine ⟨j + 1, ?_, fun ha ↦ Nat.succ_le_succ (hle ha), ?_⟩
        · rw [if_neg hy, hj]
          rfl
        · rw [List.length_cons]
          by_cases heq : j = ys.length
          · rw [if_pos heq] at hcases
            obtain ⟨rfl, rfl⟩ := hcases
            rw [if_pos (by omega)]
            exact ⟨rfl, rfl⟩
          · rw [if_neg heq] at hcases
            obtain ⟨before', after', rfl, hlen⟩ := hcases
            rw [if_neg (by omega)]
            refine ⟨y :: before', after', rfl, ?_⟩
            rw [List.length_cons, hlen]
            split <;> split <;> omega

/-- Among elements that may all be taken, the first one is. -/
theorem filter_takeFirst {c : α → Bool} (hc : ∀ y, c y = true → c a = true → p a = p y)
    (h : takeFirst p l = some (a, before)) : l.filter c = [a].filter c ++ before.filter c := by
  induction l generalizing before with
  | nil => cases h
  | cons y ys ih =>
      rw [takeFirst] at h
      split at h
      · cases h
        rw [← List.filter_append, List.singleton_append]
      · rename_i hy
        obtain ⟨⟨z, zs⟩, hz, heq⟩ := Option.map_eq_some_iff.mp h
        cases heq
        have hrest := ih hz
        by_cases ha : c a = true
        · -- the head was passed over, so it is not of the kind
          have hcy : c y = false := by
            rw [← Bool.not_eq_true]
            exact fun hcy ↦ hy (hc y hcy ha ▸ (takeFirst_some hz).1)
          have hskip : ∀ l : List α, (y :: l).filter c = l.filter c :=
            fun l ↦ List.filter_cons_of_neg (by simp [hcy])
          rw [hskip, hskip]
          exact hrest
        · have hnil : [a].filter c = [] := by simp [ha]
          rw [hnil, List.nil_append] at hrest ⊢
          rw [List.filter_cons, List.filter_cons, hrest]

end

namespace Machine

variable {W D O : Type} [DecidableEq W]

/-- What a step adds to `m_fibers`. -/
def puts (s : Machine W D O) : Action W D O → List FiberAndThread
  | .schedule ft => [ft].filter FiberAndThread.nonempty
  | .push d =>
    match s.deliverer d with
    | .pushing ft => [ft].filter FiberAndThread.nonempty
    | _ => []
  | .work w =>
    match (s.worker w).pc with
    | .at .requeue _ f => [.ofFiber (some f) (-1)]
    | _ => []
  | _ => []

/-- What the scan of a worker takes from `m_fibers`. -/
def takes (s : Machine W D O) : Action W D O → List FiberAndThread
  | .work w =>
    match (s.worker w).pc with
    | .scan => ((takeFirst (s.takeable (s.worker w).thread) s.fibers).map Prod.fst).toList
    | _ => []
  | _ => []

/-- A callback that was scheduled for the thread `t`, or for any thread. -/
def isCallback (t : Int) (ft : FiberAndThread) : Bool := ft.fiber.isNone && ft.thread == t

/-- A scan that may take the entry, if it gets as far. -/
def mayTake (ft : FiberAndThread) (s : Machine W D O) : Action W D O → Nat
  | .work w => if (s.worker w).pc = .scan ∧ s.takeable (s.worker w).thread ft = true then 1 else 0
  | _ => 0

variable [DecidableEq D] [DecidableEq O] {s s' : Machine W D O} {w : W} {a : Action W D O}
  {as : List (Action W D O)} {ft : FiberAndThread} {before after : List FiberAndThread}

omit [DecidableEq W] [DecidableEq D] [DecidableEq O] in
theorem scheduleNoLock_filter (fibers : List FiberAndThread) (ft : FiberAndThread) :
    (scheduleNoLock fibers ft).2 = fibers ++ [ft].filter FiberAndThread.nonempty := by
  unfold scheduleNoLock
  cases hne : ft.nonempty with
  | true => simp [hne]
  | false => simp [hne]

/-- What a step does to `m_fibers`. -/
inductive QueueChange (s : Machine W D O) (a : Action W D O) (s' : Machine W D O) : Prop where
  | put : s'.fibers = s.fibers ++ s.puts a → s.takes a = [] →
      (∀ w, a = .work w → (s.worker w).pc = .scan →
        takeFirst (s.takeable (s.worker w).thread) s.fibers = none) → QueueChange s a s'
  | took (w : W) (ft : FiberAndThread) : a = .work w → (s.worker w).pc = .scan →
      takeFirst (s.takeable (s.worker w).thread) s.fibers = some (ft, s'.fibers) →
      s.puts a = [] → s.takes a = [ft] → (s'.worker w).pc = .dispatch ft true → QueueChange s a s'

omit [DecidableEq D] [DecidableEq O] in
theorem Worked.queueChange (h : Worked s w s') : QueueChange s (.work w) s' := by
  have hother : (s.worker w).pc ≠ .scan → s'.fibers = s.fibers ++ s.puts (.work w) →
      QueueChange s (.work w) s' := by
    intro hpc hfibers
    refine .put hfibers ?_ fun w' hw' hscan ↦ ?_
    · rw [takes]
      split
      · contradiction
      · rfl
    · cases hw'
      exact absurd hscan hpc
  have hkeep : (s.worker w).pc ≠ .scan → (∀ role f, (s.worker w).pc ≠ .at .requeue role f) →
      s'.fibers = s.fibers → QueueChange s (.work w) s' := by
    intro hpc hrequeue hfibers
    refine hother hpc ?_
    rw [puts]
    split
    · rename_i role f heq
      exact absurd heq (hrequeue role f)
    · rw [hfibers, List.append_nil]
  cases h with
  | @took ft rest hpc _ htake =>
      refine .took w ft rfl hpc htake ?_ ?_ ?_
      · simp [puts, hpc]
      · simp [takes, hpc, htake]
      · show (Function.update s.worker w _ w).pc = _
        rw [Function.update_self]
  | foundNone hpc _ htake =>
      refine .put ?_ ?_ fun w' hw' _ ↦ ?_
      · simp [puts, hpc, setPc, setWorker]
      · simp [takes, hpc, htake]
      · cases hw'
        exact htake
  | @requeued role f hpc _ =>
      refine hother (by rw [hpc]; nofun) ?_
      simp [puts, hpc, release, setWorker]
  | examined hpc | resumed hpc | reused hpc | made hpc | dropped hpc | idled hpc | checked hpc
  | marked hpc | switchedIn hpc | switchedOut hpc | decremented hpc | held hpc | retired hpc
  | awoke hpc => exact hkeep (by rw [hpc]; nofun) (by rw [hpc]; nofun) rfl

theorem step_queueChange (h : s.step a = some s') : QueueChange s a s' := by
  have hput : s'.fibers = s.fibers ++ s.puts a → (∀ w, a ≠ .work w) → QueueChange s a s' := by
    intro hfibers hne
    refine .put hfibers ?_ fun w hw ↦ absurd hw (hne w)
    unfold takes
    split
    · exact absurd rfl (hne _)
    · rfl
  cases step_cases h with
  | worked hw => exact hw.queueChange
  | scheduled => exact hput (scheduleNoLock_filter _ _) nofun
  | @pushed d ft hd _ =>
      refine hput ?_ nofun
      simp [puts, hd, setDeliverer, scheduleNoLock_filter]
  | _ => exact hput (List.append_nil _).symm nofun

/-! ## Callbacks for one thread id -/

omit [DecidableEq W] [DecidableEq D] [DecidableEq O] in
/-- Who may take one of them may take any. -/
theorem takeable_isCallback {t thread : Int} {ft ft' : FiberAndThread} (h : isCallback t ft = true)
    (h' : isCallback t ft' = true) : s.takeable thread ft = s.takeable thread ft' := by
  obtain ⟨hf, ht⟩ := Bool.and_eq_true_iff.mp h
  obtain ⟨hf', ht'⟩ := Bool.and_eq_true_iff.mp h'
  unfold takeable
  rw [beq_iff_eq.mp ht, beq_iff_eq.mp ht', Option.isNone_iff_eq_none.mp hf,
    Option.isNone_iff_eq_none.mp hf']

omit [DecidableEq W] [DecidableEq D] [DecidableEq O] in
theorem QueueChange.callbacks (h : QueueChange s a s') {t : Int} {c : FiberAndThread → Bool}
    (hc : ∀ ft, c ft = true → isCallback t ft = true) :
    s.fibers.filter c ++ (s.puts a).filter c = (s.takes a).filter c ++ s'.fibers.filter c := by
  cases h with
  | put hfibers htakes _ => rw [hfibers, htakes, List.filter_append, List.filter_nil, List.nil_append]
  | took w ft _ _ htake hputs htakes _ =>
      rw [hputs, htakes, List.filter_nil, List.append_nil]
      -- the first entry that may be taken is the first of these callbacks, or none of them
      exact filter_takeFirst (fun y hy hft ↦ takeable_isCallback (hc _ hft) (hc _ hy)) htake

omit [DecidableEq W] [DecidableEq D] [DecidableEq O] in
/-- Nothing gets lost. -/
theorem QueueChange.perm (h : QueueChange s a s') :
    (s.fibers ++ s.puts a).Perm (s.takes a ++ s'.fibers) := by
  cases h with
  | put hfibers htakes _ =>
      rw [hfibers, htakes, List.nil_append]
  | took w ft _ _ htake hputs htakes _ =>
      obtain ⟨-, before, after, hfibers, hfibers'⟩ := takeFirst_some htake
      rw [hputs, htakes, hfibers, hfibers', List.append_nil]
      exact List.perm_middle

/-- The callbacks for a thread id are taken in the order in which they were scheduled, whatever the
workers do. -/
theorem callbacks_in_order (h : Run (Of step) s as s') (t : Int) :
    s.fibers.filter (isCallback t) ++ (trace step puts s as).filter (isCallback t) =
      (trace step takes s as).filter (isCallback t) ++ s'.fibers.filter (isCallback t) := by
  rw [filter_trace, filter_trace]
  exact trace_queue (q := fun s : Machine W D O ↦ s.fibers.filter (isCallback t))
    (fun _ _ _ hs ↦ hs) (fun _ _ _ hs ↦ (step_queueChange hs).callbacks fun _ hft ↦ hft) h

theorem callbacks_in_order_two :
    ∃ s', Run (Of step) two [.schedule (.ofCb (some 7) (-1)), .schedule (.ofCb (some 8) (-1)), .work true] s' ∧
      s'.fibers = [.ofCb (some 8) (-1)] ∧
      two.fibers.filter (isCallback (-1)) ++ [.ofCb (some 7) (-1), .ofCb (some 8) (-1)] =
        [.ofCb (some 7) (-1)] ++ s'.fibers.filter (isCallback (-1)) := by
  obtain ⟨s', h, hs'⟩ := exists_run (R := Of step) step (fun _ _ ↦ true) (fun _ _ _ hs _ ↦ hs) two
    [.schedule (.ofCb (some 7) (-1)), .schedule (.ofCb (some 8) (-1)), .work true]
    (P := fun s ↦ decide (s.fibers = [.ofCb (some 8) (-1)])) (by decide)
  refine ⟨s', h, of_decide_eq_true hs', ?_⟩
  exact callbacks_in_order h (-1)

/-! ## How long an entry waits -/

/-- The place in `m_fibers` of the entry at `i` after a step, if the step does not take it. -/
def place (s : Machine W D O) (i : Nat) : Action W D O → Option Nat
  | .work w =>
    match (s.worker w).pc with
    | .scan =>
      match s.fibers.findIdx? (s.takeable (s.worker w).thread) with
      | none => some i
      | some j => if j = i then none else some (if j < i then i - 1 else i)
    | _ => some i
  | _ => some i

/-- The place of the entry at `i` after a run that does not take it. -/
def placed (s : Machine W D O) (i : Nat) : List (Action W D O) → Option Nat
  | [] => some i
  | a :: as => (s.place i a).bind fun i' ↦ (s.step a).bind fun s' ↦ s'.placed i' as

/-- The entry at `i` is taken by a step of the run, from a place no farther back than it had. -/
def Takes (ft : FiberAndThread) (i n : Nat) (s : Machine W D O) (as : List (Action W D O)) : Prop :=
  ∃ (as₁ as₂ : List (Action W D O)) (w : W) (s₁ s₂ : Machine W D O)
    (before after : List FiberAndThread), as = as₁ ++ .work w :: as₂ ∧ Run (Of step) s as₁ s₁ ∧
      s.placed i as₁ = some before.length ∧ s₁.place before.length (.work w) = none ∧
      s₁.step (.work w) = some s₂ ∧ (s₂.worker w).pc = .dispatch ft true ∧
      s₁.fibers = before ++ ft :: after ∧ s₂.fibers = before ++ after ∧
      before.length + tally step (mayTake ft) s as₁ ≤ n

theorem Takes.later {i i' n n' : Nat} {s₁ : Machine W D O} (h : Takes ft i' n' s₁ as)
    (hs : s.step a = some s₁) (hplace : s.place i a = some i') (hn : n' + mayTake ft s a ≤ n) :
    Takes ft i n s (a :: as) := by
  obtain ⟨as₁, as₂, w, s₂, s₃, before, after, rfl, hrun, hplaced, htaken, htake, hpc, hfibers,
    hfibers', hlen⟩ := h
  refine ⟨a :: as₁, as₂, w, s₂, s₃, before, after, rfl, .cons hs hrun, ?_, htaken, htake, hpc, hfibers,
    hfibers', ?_⟩
  · rw [placed, hplace, Option.bind_some, hs, Option.bind_some, hplaced]
  · rw [tally, hs]
    dsimp only
    omega

omit [DecidableEq W] [DecidableEq D] [DecidableEq O] in
theorem place_scan {i : Nat} (hpc : (s.worker w).pc = .scan) {j : Nat}
    (hj : s.fibers.findIdx? (s.takeable (s.worker w).thread) = some j) :
    s.place i (.work w) = if j = i then none else some (if j < i then i - 1 else i) := by
  rw [place]
  simp only [hpc, hj]

omit [DecidableEq W] [DecidableEq D] [DecidableEq O] in
/-- A scan that finds nothing leaves the entries where they are. -/
theorem place_put {i : Nat} (h : ∀ w, a = .work w → (s.worker w).pc = .scan →
      takeFirst (s.takeable (s.worker w).thread) s.fibers = none) : s.place i a = some i := by
  unfold place
  split
  · rename_i w
    split
    · rename_i hpc
      have hnone := h w rfl hpc
      rw [takeFirst_eq_none_iff] at hnone
      rw [hnone]
    · rfl
  · rfl

omit [DecidableEq W] [DecidableEq D] [DecidableEq O] in
theorem mayTake_scan (hpc : (s.worker w).pc = .scan) :
    mayTake ft s (.work w) = if s.takeable (s.worker w).thread ft = true then 1 else 0 := by
  rw [mayTake]
  simp [hpc]

omit [DecidableEq W] [DecidableEq D] [DecidableEq O] in
theorem mayTake_put (h : ∀ w, a = .work w → (s.worker w).pc = .scan →
      takeFirst (s.takeable (s.worker w).thread) s.fibers = none)
    (hfibers : s.fibers = before ++ ft :: after) : mayTake ft s a = 0 := by
  unfold mayTake
  split
  · rename_i w
    refine if_neg fun ⟨hpc, htakeable⟩ ↦ ?_
    have hnone := h w rfl hpc
    rw [hfibers] at hnone
    exact takeFirst_ne_none htakeable hnone
  · rfl

/-- An entry waits for no more scans of workers that may take it than there are entries in front of
it. The others take from behind it at most. -/
theorem taken_within (h : Run (Of step) s as s') (hfibers : s.fibers = before ++ ft :: after)
    (hscans : before.length < tally step (mayTake ft) s as) :
    Takes ft before.length before.length s as := by
  induction h generalizing before after with
  | nil => exact absurd hscans (Nat.not_lt_zero _)
  | @cons s s₁ s' a as hs hrest ih =>
      rw [tally, show s.step a = some s₁ from hs] at hscans
      dsimp only at hscans
      cases step_queueChange hs with
      | put hq _ hnone =>
          -- the entry stays where it is, and no scan passed it
          have hzero : mayTake ft s a = 0 := mayTake_put hnone hfibers
          rw [hfibers, List.append_assoc, List.cons_append] at hq
          exact (ih hq (by omega)).later hs (place_put hnone) (by omega)
      | took w x hw hpc htake hputs htakes hpc' =>
          subst hw
          have hmay : mayTake ft s (.work w) = _ := mayTake_scan hpc
          rw [hfibers] at htake
          obtain ⟨j, hj, hle, hcases⟩ := takeFirst_at htake
          rw [← hfibers] at hj
          have hplace : s.place before.length (.work w) = _ := place_scan hpc hj
          by_cases heq : j = before.length
          · -- the entry itself is taken
            rw [if_pos heq] at hcases hplace
            obtain ⟨rfl, hq⟩ := hcases
            exact ⟨[], as, w, s, s₁, before, after, rfl, .nil s, rfl, hplace, hs, hpc', hfibers, hq,
              by simp [tally]⟩
          · -- another entry is taken, and this one moves up if that was in front of it
            rw [if_neg heq] at hcases hplace
            obtain ⟨before', after', hq, hlen⟩ := hcases
            rw [← hlen] at hplace
            -- a worker that may take the entry takes one before it
            have hbound : before'.length + mayTake ft s (.work w) ≤ before.length := by
              rw [hmay, hlen]
              by_cases htakeable : s.takeable (s.worker w).thread ft = true
              · have hlt := Nat.lt_of_le_of_ne (hle htakeable) heq
                rw [if_pos htakeable, if_pos hlt]
                omega
              · rw [if_neg htakeable]
                split <;> omega
            exact (ih hq (by omega)).later hs hplace hbound

/-- A callback for any thread waits behind one for the thread 2. -/
def queuedTwo : Two := { two with fibers := [.ofCb (some 7) 2, .ofCb (some 8) (-1)] }

theorem taken_within_two : Takes (.ofCb (some 8) (-1)) 1 1 queuedTwo [.work true, .work false] := by
  obtain ⟨s', h, -⟩ := exists_run (R := Of step) step (fun _ _ ↦ true) (fun _ _ _ hs _ ↦ hs) queuedTwo
    [.work true, .work false] (P := fun _ ↦ true) (by decide)
  have hfibers : queuedTwo.fibers = [.ofCb (some 7) 2] ++ .ofCb (some 8) (-1) :: [] := rfl
  exact taken_within h hfibers (by decide)

end Machine

end Server
