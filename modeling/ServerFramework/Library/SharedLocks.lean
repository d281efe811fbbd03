import ServerFramework.Library.Locks
import Mathlib.Data.Finite.Prod
import Mathlib.Data.Fintype.Lattice

/-!
# Locks that readers share

The programs of `Locks` over locks that are taken shared or exclusively.  When every program takes
its locks in the order of a rank, no threads wait for each other, and some thread can always go on.
-/

namespace SharedLocks

open Runs Locks

inductive Mode where
  | shared
  | exclusive
  deriving DecidableEq, Repr

variable {L S O T ρ L' S' O' : Type*}

/-- Whether a lock can be taken, next to those who hold it. -/
def admits (holders : List (T × Mode)) : Mode → Bool
  | .shared => holders.all fun h ↦ h.2 == .shared
  | .exclusive => holders.isEmpty

/-- Who holds a lock in a mode that excludes the other one. -/
theorem exists_holder {holders : List (T × Mode)} {mode : Mode} (h : admits holders mode = false) :
    ∃ u mode', (u, mode') ∈ holders ∧ (mode = .exclusive ∨ mode' = .exclusive) := by
  cases mode with
  | shared =>
      obtain ⟨⟨u, mode'⟩, hmem, hne⟩ := List.all_eq_false.mp h
      refine ⟨u, mode', hmem, .inr ?_⟩
      cases mode' with
      | shared => exact absurd rfl hne
      | exclusive => rfl
  | exclusive =>
      cases holders with
      | nil => cases h
      | cons x xs => exact ⟨x.1, x.2, List.mem_cons_self, .inl rfl⟩

/-- The shared state, who holds the locks and what the threads have still to do. -/
structure Machine (L S O T : Type*) where
  shared : S
  holders : L → List (T × Mode)
  prog : T → Prog (L × Mode) S O

/-! ## A program within a larger one -/

/-- The same program over more locks, which it takes exclusively, and a larger shared state. -/
def embed (lock : L → L') (get : S' → S) (put : S → S' → S') (op : O → O') :
    Prog L S O → Prog (L' × Mode) S' O'
  | .ret => .ret
  | .lock l k => .lock (lock l, .exclusive) (embed lock get put op k)
  | .unlock l k => .unlock (lock l, .exclusive) (embed lock get put op k)
  | .atomic f k => .atomic (fun s ↦ put (f (get s)) s) fun s ↦ embed lock get put op (k (get s))
  | .call o k => .call (op o) (embed lock get put op k)

/-- A program that fits its own locks fits the larger order, under locks `outer` that come before
those that it takes above `base`. -/
theorem fits_embed {ρ' : Type*} [Preorder ρ] [Preorder ρ'] {rank : L → ρ} {need : O → ρ} {inv : S → Prop}
    {rank' : L' × Mode → ρ'} {need' : O' → ρ'} {inv' : S' → Prop} {get : S' → S}
    {put : S → S' → S'} {base : List L} {outer : List (L' × Mode)} (lock : L → L') (op : O → O')
    (hlock : ∀ l l', rank l < rank l' → rank' (lock l, .exclusive) < rank' (lock l', .exclusive))
    (hneed : ∀ l o, rank l < need o → rank' (lock l, .exclusive) < need' (op o))
    (hlock' : ∀ x ∈ outer, ∀ l, (∀ b ∈ base, rank b < rank l) → rank' x < rank' (lock l, .exclusive))
    (hneed' : ∀ x ∈ outer, ∀ o, (∀ b ∈ base, rank b < need o) → rank' x < need' (op o))
    (hget : ∀ s, inv' s → inv (get s)) (hput : ∀ s x, inv' s → inv x → inv' (put x s))
    {p : Prog L S O} {held held' : List L} (h : Fits rank need inv held p held')
    (hbase : Fits rank need inv (held ++ base) p (held' ++ base)) :
    Fits rank' need' inv' (held.map (fun l ↦ (lock l, .exclusive)) ++ outer)
      (embed lock get put op p) (held'.map (fun l ↦ (lock l, .exclusive)) ++ outer) := by
  have habove : ∀ {held : List L} {r : ρ} {r' : ρ'},
      (∀ l, rank l < r → rank' (lock l, .exclusive) < r') →
      (∀ x ∈ outer, (∀ b ∈ base, rank b < r) → rank' x < r') →
      (∀ l ∈ held ++ base, rank l < r) →
      ∀ x ∈ held.map (fun l ↦ (lock l, .exclusive)) ++ outer, rank' x < r' := by
    intro held r r' hown houter hheld x hx
    rcases List.mem_append.mp hx with hx | hx
    · obtain ⟨l, hl, rfl⟩ := List.mem_map.mp hx
      exact hown l (hheld l (List.mem_append_left _ hl))
    · exact houter x hx fun b hb ↦ hheld b (List.mem_append_right _ hb)
  induction p generalizing held with
  | ret =>
      have hsame : held' = held := h
      rw [hsame]
      rfl
  | lock l k ih =>
      exact ⟨habove (fun l' ↦ hlock l' l) (fun x hx ↦ hlock' x hx l) hbase.1, ih h.2 hbase.2⟩
  | unlock l k ih =>
      obtain ⟨rest, rfl, hk⟩ := h
      obtain ⟨rest', hrest', hk'⟩ := hbase
      obtain rfl := (List.cons.inj hrest').2
      exact ⟨_, rfl, ih hk hk'⟩
  | atomic f k ih =>
      intro s hs
      obtain ⟨hinv, hk⟩ := h (get s) (hget s hs)
      exact ⟨hput s _ hs hinv, ih (get s) hk (hbase (get s) (hget s hs)).2⟩
  | call o k ih =>
      exact ⟨habove (fun l ↦ hneed l o) (fun x hx ↦ hneed' x hx o) hbase.1, ih h.2 hbase.2⟩

namespace Machine

variable {m m' : Machine L S O T}

/-- Before any thread has done anything. -/
def idle (s : S) : Machine L S O T := ⟨s, fun _ ↦ [], fun _ ↦ .ret⟩

/-- A thread is about to take a lock. -/
def Waits (m : Machine L S O T) (t : T) (l : L) (mode : Mode) : Prop :=
  ∃ k, m.prog t = .lock (l, mode) k

/-- A thread waits for a lock that another one, or itself, holds, and that they do not share. -/
def WaitsFor (m : Machine L S O T) (t u : T) : Prop :=
  ∃ l mode mode', m.Waits t l mode ∧ (u, mode') ∈ m.holders l ∧ (mode = .exclusive ∨ mode' = .exclusive)

section

variable [DecidableEq L] [DecidableEq T] {body : O → Prog (L × Mode) S O}

def setProg (m : Machine L S O T) (t : T) (p : Prog (L × Mode) S O) : Machine L S O T :=
  { m with prog := Function.update m.prog t p }

def setHolders (m : Machine L S O T) (l : L) (holders : List (T × Mode)) : Machine L S O T :=
  { m with holders := Function.update m.holders l holders }

/-- The next step of a thread. -/
def resume (body : O → Prog (L × Mode) S O) (m : Machine L S O T) (t : T) : Option (Machine L S O T) :=
  match m.prog t with
  | .ret => none
  | .lock (l, mode) k =>
    if admits (m.holders l) mode then some ((m.setHolders l ((t, mode) :: m.holders l)).setProg t k)
    else none
  | .unlock (l, mode) k => some ((m.setHolders l ((m.holders l).erase (t, mode))).setProg t k)
  | .atomic f k => some ({ m with shared := f m.shared }.setProg t (k m.shared))
  | .call o k => some (m.setProg t ((body o).seq k))

def step (body : O → Prog (L × Mode) S O) (m : Machine L S O T) : Move O T → Option (Machine L S O T)
  | .start t o =>
    match m.prog t with
    | .ret => some (m.setProg t (.invoke o))
    | _ => none
  | .resume t => resume body m t

variable [Preorder ρ] {rank : L → ρ} {need : O → ρ} {inv : S → Prop} {t u : T} {l : L}

/-- A thread holds these locks, and what it has still to do fits them. -/
structure Holds (rank : L → ρ) (need : O → ρ) (inv : S → Prop) (m : Machine L S O T) (t : T)
    (held : List (L × Mode)) : Prop where
  nodup : held.Nodup
  holders : ∀ l mode, (l, mode) ∈ held ↔ (t, mode) ∈ m.holders l
  fits : Fits (fun x ↦ rank x.1) need inv held (m.prog t) []

structure Ordered (rank : L → ρ) (need : O → ρ) (inv : S → Prop) (m : Machine L S O T) : Prop where
  shared : inv m.shared
  nodup : ∀ l, (m.holders l).Nodup
  threads : ∀ t, ∃ held, Holds rank need inv m t held

omit [DecidableEq L] [DecidableEq T] in
theorem idle_ordered {s : S} (h : inv s) :
    Ordered rank need inv (idle (T := T) (L := L) (O := O) s) :=
  ⟨h, fun _ ↦ List.nodup_nil, fun _ ↦ ⟨[], List.nodup_nil, fun _ _ ↦ ⟨nofun, nofun⟩, rfl⟩⟩

omit [DecidableEq L] in
/-- A step of one thread that changes no hold of another one. -/
theorem Ordered.update (h : Ordered rank need inv m) (held : List (L × Mode)) (hshared : inv m'.shared)
    (hnodup : ∀ l, (m'.holders l).Nodup) (hself : Holds rank need inv m' t held)
    (hholders : ∀ l u mode, u ≠ t → ((u, mode) ∈ m'.holders l ↔ (u, mode) ∈ m.holders l))
    (hprog : ∀ u ≠ t, m'.prog u = m.prog u) : Ordered rank need inv m' := by
  refine ⟨hshared, hnodup, fun u ↦ ?_⟩
  by_cases hu : u = t
  · exact hu ▸ ⟨held, hself⟩
  · obtain ⟨held', hheld'⟩ := h.threads u
    refine ⟨held', hheld'.nodup, fun l mode ↦ ?_, ?_⟩
    · rw [hholders l u mode hu]
      exact hheld'.holders l mode
    · rw [hprog u hu]
      exact hheld'.fits

omit [DecidableEq L] in
theorem Ordered.setProg (h : Ordered rank need inv m) {held : List (L × Mode)}
    (hheld : Holds rank need inv m t held) {p : Prog (L × Mode) S O}
    (hp : Fits (fun x ↦ rank x.1) need inv held p []) : Ordered rank need inv (m.setProg t p) := by
  refine h.update held h.shared h.nodup ⟨hheld.nodup, hheld.holders, ?_⟩ (fun _ _ _ _ ↦ Iff.rfl)
    fun u hu ↦ Function.update_of_ne hu _ _
  show Fits _ need inv held (Function.update m.prog t p t) []
  rw [Function.update_self]
  exact hp

theorem Ordered.lock (h : Ordered rank need inv m) {held : List (L × Mode)}
    (hheld : Holds rank need inv m t held) {mode : Mode} {k : Prog (L × Mode) S O}
    (hrank : ∀ x ∈ held, rank x.1 < rank l)
    (hk : Fits (fun x ↦ rank x.1) need inv ((l, mode) :: held) k []) :
    Ordered rank need inv ((m.setHolders l ((t, mode) :: m.holders l)).setProg t k) := by
  -- the lock is not held yet, in no mode
  have hfresh : ∀ mode', (l, mode') ∉ held := fun mode' hl ↦ lt_irrefl _ (hrank _ hl)
  refine h.update ((l, mode) :: held) h.shared ?_ ⟨hheld.nodup.cons (hfresh mode), ?_, ?_⟩ ?_
    fun u hu ↦ Function.update_of_ne hu _ _
  · intro l'
    show (Function.update m.holders l _ l').Nodup
    by_cases hl : l' = l
    · rw [hl, Function.update_self]
      exact (h.nodup l).cons fun hmem ↦ hfresh mode ((hheld.holders l mode).mpr hmem)
    · rw [Function.update_of_ne hl]
      exact h.nodup l'
  · intro l' mode'
    show _ ↔ (t, mode') ∈ Function.update m.holders l _ l'
    by_cases hl : l' = l
    · rw [hl, Function.update_self, List.mem_cons, List.mem_cons, hheld.holders, Prod.mk.injEq,
        Prod.mk.injEq]
      simp only [true_and]
    · rw [Function.update_of_ne hl, List.mem_cons, hheld.holders, Prod.mk.injEq]
      simp only [hl, false_and, false_or]
  · show Fits _ need inv _ (Function.update m.prog t k t) []
    rw [Function.update_self]
    exact hk
  · intro l' u mode' hu
    show (u, mode') ∈ Function.update m.holders l _ l' ↔ _
    by_cases hl : l' = l
    · rw [hl, Function.update_self, List.mem_cons, Prod.mk.injEq]
      simp only [hu, false_and, false_or]
    · rw [Function.update_of_ne hl]

theorem Ordered.unlock (h : Ordered rank need inv m) {mode : Mode} {rest : List (L × Mode)}
    (hheld : Holds rank need inv m t ((l, mode) :: rest)) {k : Prog (L × Mode) S O}
    (hk : Fits (fun x ↦ rank x.1) need inv rest k []) :
    Ordered rank need inv ((m.setHolders l ((m.holders l).erase (t, mode))).setProg t k) := by
  obtain ⟨hmem, hnodup⟩ := List.nodup_cons.mp hheld.nodup
  have hholders := hheld.holders
  refine h.update rest h.shared ?_ ⟨hnodup, ?_, ?_⟩ ?_ fun u hu ↦ Function.update_of_ne hu _ _
  · intro l'
    show (Function.update m.holders l _ l').Nodup
    by_cases hl : l' = l
    · rw [hl, Function.update_self]
      exact (h.nodup l).erase _
    · rw [Function.update_of_ne hl]
      exact h.nodup l'
  · intro l' mode'
    show _ ↔ (t, mode') ∈ Function.update m.holders l _ l'
    by_cases hl : l' = l
    · rw [hl, Function.update_self, (h.nodup l).mem_erase_iff, ← hholders, List.mem_cons, Prod.mk.injEq]
      by_cases hmode : mode' = mode
      · rw [hmode]
        exact iff_of_false hmem fun hboth ↦ hboth.1 rfl
      · simp [hmode]
    · rw [Function.update_of_ne hl, ← hholders, List.mem_cons, Prod.mk.injEq]
      simp only [hl, false_and, false_or]
  · show Fits _ need inv rest (Function.update m.prog t k t) []
    rw [Function.update_self]
    exact hk
  · intro l' u mode' hu
    show (u, mode') ∈ Function.update m.holders l _ l' ↔ _
    by_cases hl : l' = l
    · rw [hl, Function.update_self, (h.nodup l).mem_erase_iff]
      simp [hu]
    · rw [Function.update_of_ne hl]

theorem Ordered.resume (h : Ordered rank need inv m)
    (hbody : ∀ o held, (∀ x ∈ held, rank x.1 < need o) →
      Fits (fun x ↦ rank x.1) need inv held (body o) held)
    (hstep : resume body m t = some m') : Ordered rank need inv m' := by
  obtain ⟨held, hheld⟩ := h.threads t
  have hfits := hheld.fits
  unfold Machine.resume at hstep
  cases hprog : m.prog t with
  | ret =>
      rw [hprog] at hstep
      cases hstep
  | lock x k =>
      rw [hprog] at hstep hfits
      dsimp only at hstep
      split at hstep
      · obtain rfl := Option.some.inj hstep
        exact h.lock hheld hfits.1 hfits.2
      · cases hstep
  | unlock x k =>
      rw [hprog] at hstep hfits
      obtain rfl := Option.some.inj hstep
      obtain ⟨rest, rfl, hk⟩ := hfits
      exact h.unlock hheld hk
  | atomic f k =>
      rw [hprog] at hstep hfits
      obtain rfl := Option.some.inj hstep
      obtain ⟨hshared, hk⟩ := hfits m.shared h.shared
      have hwrite : Ordered rank need inv { m with shared := f m.shared } := by
        refine ⟨hshared, h.nodup, fun u ↦ ?_⟩
        obtain ⟨held', hheld'⟩ := h.threads u
        exact ⟨held', hheld'.nodup, hheld'.holders, hheld'.fits⟩
      exact hwrite.setProg ⟨hheld.nodup, hheld.holders, hheld.fits⟩ hk
  | call o k =>
      rw [hprog] at hstep hfits
      obtain rfl := Option.some.inj hstep
      exact h.setProg hheld ((hbody o held hfits.1).seq hfits.2)

theorem Ordered.step (h : Ordered rank need inv m)
    (hbody : ∀ o held, (∀ x ∈ held, rank x.1 < need o) →
      Fits (fun x ↦ rank x.1) need inv held (body o) held)
    {move : Move O T} (hstep : step body m move = some m') : Ordered rank need inv m' := by
  cases move with
  | start t o =>
      obtain ⟨held, hheld⟩ := h.threads t
      unfold Machine.step at hstep
      dsimp only at hstep
      split at hstep
      · rename_i hprog
        obtain rfl := Option.some.inj hstep
        -- a thread with nothing to do holds no lock
        have hfits := hheld.fits
        rw [hprog] at hfits
        have hnil : [] = held := hfits
        subst hnil
        exact h.setProg hheld (fits_invoke nofun)
      · cases hstep
  | resume t => exact h.resume hbody hstep

theorem run_ordered {moves : List (Move O T)}
    (hbody : ∀ o held, (∀ x ∈ held, rank x.1 < need o) →
      Fits (fun x ↦ rank x.1) need inv held (body o) held)
    (h : Run (Of (step body)) m moves m') (hm : Ordered rank need inv m) :
    Ordered rank need inv m' :=
  h.invariant (fun _ _ _ hs hstep ↦ hs.step hbody hstep) hm

end

/-! ## Who waits for whom -/

section

variable [Preorder ρ] {rank : L → ρ} {need : O → ρ} {inv : S → Prop} {t u : T}

/-- A lock that is waited for ranks above those that the thread holds. -/
theorem Ordered.rank_lt (h : Ordered rank need inv m) {l l' : L} {mode mode' : Mode}
    (hwaits : m.Waits t l mode) (hholds : (t, mode') ∈ m.holders l') : rank l' < rank l := by
  obtain ⟨held, hheld⟩ := h.threads t
  obtain ⟨k, hk⟩ := hwaits
  have hfits := hheld.fits
  rw [hk] at hfits
  exact hfits.1 (l', mode') ((hheld.holders l' mode').mpr hholds)

/-- The ranks of the locks rise along the threads that wait for each other. -/
theorem Ordered.rank_le (h : Ordered rank need inv m) (hwaits : Relation.TransGen m.WaitsFor t u) :
    ∃ l l' mode mode', m.Waits t l mode ∧ (u, mode') ∈ m.holders l' ∧ rank l ≤ rank l' := by
  induction hwaits with
  | single hfirst =>
      obtain ⟨l, mode, mode', hl, hholds, -⟩ := hfirst
      exact ⟨l, l, mode, mode', hl, hholds, le_refl _⟩
  | tail _ hlast ih =>
      obtain ⟨l, l', mode, mode', hl, hholds, hle⟩ := ih
      obtain ⟨l'', mode₁, mode₂, hl'', hholds'', -⟩ := hlast
      have hlt := h.rank_lt hl'' hholds
      exact ⟨l, l'', mode, mode₂, hl, hholds'', hle.trans hlt.le⟩

/-- No thread waits, directly or through others, for itself. -/
theorem Ordered.acyclic (h : Ordered rank need inv m) (t : T) :
    ¬ Relation.TransGen m.WaitsFor t t := by
  intro hcycle
  obtain ⟨l, l', mode, mode', hl, hholds, hle⟩ := h.rank_le hcycle
  exact absurd (h.rank_lt hl hholds) hle.not_gt

/-- Who holds a lock has something left to do. -/
theorem Ordered.busy (h : Ordered rank need inv m) {l : L} {mode : Mode}
    (hholds : (t, mode) ∈ m.holders l) : m.prog t ≠ .ret := by
  intro hret
  obtain ⟨held, hheld⟩ := h.threads t
  have hfits := hheld.fits
  rw [hret] at hfits
  have hnil : [] = held := hfits
  have hmem := (hheld.holders l mode).mpr hholds
  rw [← hnil] at hmem
  cases hmem

end

/-- While some thread has something left to do, some thread can go on. -/
theorem Ordered.progress [Finite T] [DecidableEq L] [DecidableEq T] [LinearOrder ρ] {rank : L → ρ}
    {need : O → ρ} {inv : S → Prop} {body : O → Prog (L × Mode) S O} (h : Ordered rank need inv m)
    {t : T} (ht : m.prog t ≠ .ret) : ∃ u m', Machine.resume body m u = some m' := by
  by_contra hstuck
  have hnone : ∀ u, Machine.resume body m u = none := by
    intro u
    rw [← Option.not_isSome_iff_eq_none]
    intro hsome
    obtain ⟨m', hm'⟩ := Option.isSome_iff_exists.mp hsome
    exact hstuck ⟨u, m', hm'⟩
  -- every thread that is not done waits for a lock that somebody else keeps from it
  have hwaits : ∀ u, m.prog u ≠ .ret →
      ∃ l mode, m.Waits u l mode ∧ admits (m.holders l) mode = false := by
    intro u hu
    have hu' := hnone u
    unfold Machine.resume at hu'
    cases hprog : m.prog u with
    | ret => exact absurd hprog hu
    | lock x k =>
        rw [hprog] at hu'
        dsimp only at hu'
        split at hu'
        · cases hu'
        · rename_i hadmits
          exact ⟨x.1, x.2, ⟨k, hprog⟩, Bool.not_eq_true _ ▸ hadmits⟩
    | unlock x k | atomic f k | call o k =>
        rw [hprog] at hu'
        cases hu'
  choose lock mode hlock hadmits using hwaits
  have : Nonempty { u // m.prog u ≠ .ret } := ⟨⟨t, ht⟩⟩
  -- the one whose lock ranks highest waits for one whose lock ranks higher
  obtain ⟨⟨u, hu⟩, hmax⟩ := Finite.exists_max fun u : { u // m.prog u ≠ .ret } ↦ rank (lock u.1 u.2)
  obtain ⟨v, mode', hholds, -⟩ := exists_holder (hadmits u hu)
  have hlt := h.rank_lt (hlock v (h.busy hholds)) hholds
  exact absurd (hmax ⟨v, h.busy hholds⟩) (not_le.mpr hlt)

/-! ## Locks without modes -/

section

variable {M M' : Locks.Machine L S O T}

/-- The same program with all locks taken exclusively. -/
def alone (p : Prog L S O) : Prog (L × Mode) S O := embed id id (fun x _ ↦ x) id p

/-- The same threads with locks that know modes. -/
def ofOwners (M : Locks.Machine L S O T) : Machine L S O T where
  shared := M.shared
  holders l := ((M.owner l).map (·, Mode.exclusive)).toList
  prog t := alone (M.prog t)

theorem alone_seq (p q : Prog L S O) : alone (p.seq q) = (alone p).seq (alone q) := by
  induction p with
  | ret => rfl
  | lock l k ih | unlock l k ih | call o k ih => exact congrArg _ ih
  | atomic f k ih => exact congrArg _ (funext ih)

theorem mem_ofOwners {l : L} {t : T} {mode : Mode} :
    (t, mode) ∈ (ofOwners M).holders l ↔ M.owner l = some t ∧ mode = .exclusive := by
  show (t, mode) ∈ ((M.owner l).map (·, Mode.exclusive)).toList ↔ _
  cases M.owner l with
  | none => simp
  | some u => simp [eq_comm]

/-- A program that takes its locks in order does so whatever modes the locks before have. -/
theorem fits_alone [Preorder ρ] {rank : L → ρ} {need : O → ρ} {inv : S → Prop} {body : O → Prog L S O}
    (hbody : ∀ o held, (∀ l ∈ held, rank l < need o) → Fits rank need inv held (body o) held)
    (o : O) (held : List (L × Mode)) (hheld : ∀ x ∈ held, rank x.1 < need o) :
    Fits (fun x ↦ rank x.1) need inv held (alone (body o)) held := by
  have houter : ∀ x ∈ held, ∀ r, (∀ b ∈ held.map Prod.fst, rank b < r) → rank x.1 < r :=
    fun x hx r hr ↦ hr x.1 (List.mem_map_of_mem hx)
  have hbase : ∀ l ∈ held.map Prod.fst, rank l < need o := by
    intro l hl
    obtain ⟨x, hx, rfl⟩ := List.mem_map.mp hl
    exact hheld x hx
  have hall : Fits rank need inv ([] ++ held.map Prod.fst) (body o) ([] ++ held.map Prod.fst) :=
    hbody o _ hbase
  -- the locks before are the outer ones
  show Fits _ need inv (([] : List L).map (fun l ↦ (id l, Mode.exclusive)) ++ held)
    (embed id id (fun x _ ↦ x) id (body o)) (([] : List L).map (fun l ↦ (id l, Mode.exclusive)) ++ held)
  exact fits_embed id id (fun _ _ hlt ↦ hlt) (fun _ _ hlt ↦ hlt)
    (fun x hx l ↦ houter x hx (rank l)) (fun x hx o' ↦ houter x hx (need o')) (fun _ hs ↦ hs)
    (fun _ _ _ hx ↦ hx) (hbody o [] nofun) hall

variable [DecidableEq L] [DecidableEq T]

omit [DecidableEq L] in
theorem ofOwners_setProg (t : T) (p : Prog L S O) :
    ofOwners (M.setProg t p) = (ofOwners M).setProg t (alone p) := by
  have hprog : (fun u ↦ alone (Function.update M.prog t p u)) =
      Function.update (fun u ↦ alone (M.prog u)) t (alone p) :=
    Function.comp_update alone M.prog t p
  show Machine.mk _ _ (fun u ↦ alone (Function.update M.prog t p u)) = _
  rw [hprog]
  rfl

omit [DecidableEq T] in
theorem ofOwners_setOwner (l : L) (t : Option T) :
    ofOwners (M.setOwner l t) = (ofOwners M).setHolders l (t.map (·, Mode.exclusive)).toList := by
  have howner : (fun k ↦ ((Function.update M.owner l t k).map (·, Mode.exclusive)).toList) =
      Function.update (fun k ↦ ((M.owner k).map (·, Mode.exclusive)).toList) l
        (t.map (·, Mode.exclusive)).toList :=
    Function.comp_update (fun o : Option T ↦ (o.map (·, Mode.exclusive)).toList) M.owner l t
  show Machine.mk _ (fun k ↦ ((Function.update M.owner l t k).map (·, Mode.exclusive)).toList) _ = _
  rw [howner]
  rfl

variable [Preorder ρ] {rank : L → ρ} {need : O → ρ} {inv : S → Prop} {body : O → Prog L S O}

/-- A step with owners is one with holders; a lock that is released was held. -/
theorem Ordered.ofOwners_resume (h : Ordered rank need inv (ofOwners M)) {t : T}
    (hs : Locks.Machine.resume body M t = some M') :
    Machine.resume (fun o ↦ alone (body o)) (ofOwners M) t = some (ofOwners M') := by
  have hprog : (ofOwners M).prog t = alone (M.prog t) := rfl
  unfold Locks.Machine.resume at hs
  unfold Machine.resume
  rw [hprog]
  cases hp : M.prog t with
  | ret =>
      rw [hp] at hs
      cases hs
  | lock l k =>
      rw [hp] at hs
      dsimp only at hs
      split at hs
      · rename_i hfree
        obtain rfl := Option.some.inj hs
        have hholders : (ofOwners M).holders l = [] := by
          show ((M.owner l).map _).toList = []
          rw [Option.isNone_iff_eq_none.mp hfree]
          rfl
        show (if admits ((ofOwners M).holders l) .exclusive = true then
          some (((ofOwners M).setHolders l ((t, .exclusive) :: (ofOwners M).holders l)).setProg t
            (alone k)) else none) = _
        rw [hholders, if_pos (by rfl), ofOwners_setProg, ofOwners_setOwner]
        rfl
      · cases hs
  | unlock l k =>
      rw [hp] at hs
      obtain rfl := Option.some.inj hs
      obtain ⟨held, hheld⟩ := h.threads t
      have hfits := hheld.fits
      rw [hprog, hp] at hfits
      obtain ⟨rest, rfl, -⟩ := hfits
      obtain ⟨howner, -⟩ := mem_ofOwners.mp ((hheld.holders l .exclusive).mp List.mem_cons_self)
      have hholders : ((ofOwners M).holders l).erase (t, .exclusive) = [] := by
        show ((M.owner l).map _).toList.erase _ = []
        rw [howner]
        exact List.erase_cons_head _ _
      show some (((ofOwners M).setHolders l (((ofOwners M).holders l).erase (t, .exclusive))).setProg t
        (alone k)) = _
      rw [hholders, ofOwners_setProg, ofOwners_setOwner]
      rfl
  | atomic f k =>
      rw [hp] at hs
      obtain rfl := Option.some.inj hs
      rw [ofOwners_setProg]
      rfl
  | call o k =>
      rw [hp] at hs
      obtain rfl := Option.some.inj hs
      rw [ofOwners_setProg, alone_seq]
      rfl

theorem Ordered.ofOwners_step (h : Ordered rank need inv (ofOwners M)) {move : Move O T}
    (hs : Locks.Machine.step body M move = some M') :
    Machine.step (fun o ↦ alone (body o)) (ofOwners M) move = some (ofOwners M') := by
  cases move with
  | start t o =>
      unfold Locks.Machine.step at hs
      dsimp only at hs
      split at hs
      · rename_i hp
        obtain rfl := Option.some.inj hs
        have hprog : (ofOwners M).prog t = .ret := congrArg alone hp
        unfold Machine.step
        dsimp only
        rw [hprog, ofOwners_setProg]
        rfl
      · cases hs
  | resume t => exact h.ofOwners_resume hs

/-- When every program takes its locks in the order of a rank, no thread waits for itself, directly
or through others. -/
theorem ofOwners_acyclic {s : S} {moves : List (Move O T)}
    (hbody : ∀ o held, (∀ l ∈ held, rank l < need o) → Fits rank need inv held (body o) held)
    (h : Run (Of (Locks.Machine.step body)) (.idle s) moves M) (hs : inv s) (t : T) :
    ¬ Relation.TransGen M.WaitsFor t t := by
  have hidle : Ordered rank need inv (ofOwners (.idle s : Locks.Machine L S O T)) := idle_ordered hs
  have hordered : Ordered rank need inv (ofOwners M) :=
    h.invariant (I := fun M ↦ Ordered rank need inv (ofOwners M))
      (fun _ _ _ hM hstep ↦ hM.step (fits_alone hbody) (hM.ofOwners_step hstep)) hidle
  have hwaits : ∀ u v, M.WaitsFor u v → (ofOwners M).WaitsFor u v := by
    rintro u v ⟨l, ⟨k, hk⟩, howner⟩
    exact ⟨l, .exclusive, .exclusive, ⟨alone k, congrArg alone hk⟩, mem_ofOwners.mpr ⟨howner, rfl⟩,
      .inl rfl⟩
  exact fun hcycle ↦ hordered.acyclic t (Relation.TransGen.mono hwaits t t hcycle)

end

end Machine

end SharedLocks
