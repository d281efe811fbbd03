import ServerFramework.Library.Locks

/-!
# What threads write under locks

Programs with locks that append to an output in their shared state.  A monitor follows the locks and
the writes of one thread; `Safe` is the weakest precondition of a program under a monitor, and its
rules follow the way programs are put together.  Two monitors are of general use: one collects what
a thread has written, which is what it would have written alone, and one collects what is written
while a lock is held, which other threads do not interrupt.
-/

namespace Locks

open Runs

variable {L S S' O O' T W G : Type*}

/-- The same program over a larger shared state, with other names for the operations. -/
def Prog.zoom (get : S' → S) (put : S → S' → S') (op : O → O') : Prog L S O → Prog L S' O'
  | .ret => .ret
  | .lock l k => .lock l (k.zoom get put op)
  | .unlock l k => .unlock l (k.zoom get put op)
  | .atomic f k => .atomic (fun s ↦ put (f (get s)) s) fun s ↦ (k (get s)).zoom get put op
  | .call o k => .call (op o) (k.zoom get put op)

section

variable {get : S' → S} {put : S → S' → S'} {op : O → O'}

theorem Prog.zoom_seq (p q : Prog L S O) :
    (p.seq q).zoom get put op = (p.zoom get put op).seq (q.zoom get put op) := by
  induction p with
  | ret => rfl
  | lock l k ih => exact congrArg _ ih
  | unlock l k ih => exact congrArg _ ih
  | atomic f k ih => exact congrArg _ (funext fun s ↦ ih (get s))
  | call o k ih => exact congrArg _ ih

theorem Prog.zoom_locked (l : L) (p : Prog L S O) :
    (locked l p).zoom get put op = locked l (p.zoom get put op) :=
  congrArg (Prog.lock l) (zoom_seq p _)

theorem Prog.zoom_each {α : Type*} (xs : List α) (p : α → Prog L S O) :
    (each xs p).zoom get put op = each xs fun x ↦ (p x).zoom get put op := by
  induction xs with
  | nil => rfl
  | cons x xs ih => exact (zoom_seq _ _).trans (congrArg _ ih)

theorem Prog.zoom_load (hput : ∀ s, put (get s) s = s) (k : S → Prog L S O) :
    (load k).zoom get put op = load fun s ↦ (k (get s)).zoom get put op :=
  congrArg (Prog.atomic · _) (funext hput)

end

/-! ## Monitors -/

/-- What a thread may do with locks and output, and what becomes of the value that follows it. -/
structure Monitor (L W G : Type*) where
  lock : L → G → G → Prop
  unlock : L → G → G → Prop
  write : List W → G → G → Prop

/-- What is known of the operations. -/
structure Contract (O G : Type*) where
  pre : O → G → Prop
  post : O → G → G → Prop

/-- The shared states that are reachable, and their output. -/
structure Outlet (S W : Type*) where
  inv : S → Prop
  out : S → List W

section

variable (A : Outlet S W) (M : Monitor L W G) (C : Contract O G)

/-- The program does nothing that the monitor forbids, and ends with a value that meets `Q`. -/
def Safe : Prog L S O → (G → Prop) → G → Prop
  | .ret, Q, g => Q g
  | .lock l k, Q, g => ∃ g', M.lock l g g' ∧ Safe k Q g'
  | .unlock l k, Q, g => ∃ g', M.unlock l g g' ∧ Safe k Q g'
  | .atomic f k, Q, g => ∀ s, A.inv s → A.inv (f s) ∧
      ∃ v g', A.out (f s) = A.out s ++ v ∧ M.write v g g' ∧ Safe (k s) Q g'
  | .call o k, Q, g => C.pre o g ∧ ∀ g', C.post o g g' → Safe k Q g'

variable {A M C} {p q : Prog L S O} {Q Q' : G → Prop} {g g' : G}

theorem Safe.mono (hQ : ∀ g, Q g → Q' g) (h : Safe A M C p Q g) : Safe A M C p Q' g := by
  induction p generalizing g with
  | ret => exact hQ g h
  | lock l k ih =>
      obtain ⟨g', hlock, hk⟩ := h
      exact ⟨g', hlock, ih hk⟩
  | unlock l k ih =>
      obtain ⟨g', hunlock, hk⟩ := h
      exact ⟨g', hunlock, ih hk⟩
  | atomic f k ih =>
      intro s hs
      obtain ⟨hinv, v, g', hout, hwrite, hk⟩ := h s hs
      exact ⟨hinv, v, g', hout, hwrite, ih s hk⟩
  | call o k ih => exact ⟨h.1, fun g' hg' ↦ ih (h.2 g' hg')⟩

theorem Safe.seq (h : Safe A M C p (Safe A M C q Q) g) : Safe A M C (p.seq q) Q g := by
  -- the value changes along `p`, so the induction is for all of them
  induction p generalizing g with
  | ret => exact h
  | lock l k ih =>
      obtain ⟨g', hlock, hk⟩ := h
      exact ⟨g', hlock, ih hk⟩
  | unlock l k ih =>
      obtain ⟨g', hunlock, hk⟩ := h
      exact ⟨g', hunlock, ih hk⟩
  | atomic f k ih =>
      intro s hs
      obtain ⟨hinv, v, g', hout, hwrite, hk⟩ := h s hs
      exact ⟨hinv, v, g', hout, hwrite, ih s hk⟩
  | call o k ih => exact ⟨h.1, fun g' hg' ↦ ih (h.2 g' hg')⟩

theorem safe_store {f : S → S} (h : ∀ s, A.inv s → A.inv (f s) ∧
    ∃ v g', A.out (f s) = A.out s ++ v ∧ M.write v g g' ∧ Q g') :
    Safe A M C (.store f) Q g := h

/-- What only reads writes nothing. -/
theorem safe_load {k : S → Prog L S O} (hnil : M.write [] g g)
    (h : ∀ s, A.inv s → Safe A M C (k s) Q g) : Safe A M C (.load k) Q g :=
  fun s hs ↦ ⟨hs, [], g, (List.append_nil _).symm, hnil, h s hs⟩

theorem safe_invoke {o : O} (hpre : C.pre o g) (h : ∀ g', C.post o g g' → Q g') :
    Safe A M C (.invoke o) Q g :=
  ⟨hpre, h⟩

theorem safe_locked {l : L} (hlock : M.lock l g g')
    (h : Safe A M C p (fun g ↦ ∃ g', M.unlock l g g' ∧ Q g') g') :
    Safe A M C (.locked l p) Q g :=
  ⟨g', hlock, h.seq⟩

/-- A loop, with an invariant for what is left of the list. -/
theorem safe_each {α : Type*} {xs : List α} {p : α → Prog L S O} (I : List α → G → Prop)
    (h : ∀ x xs g, I (x :: xs) g → Safe A M C (p x) (I xs) g) (hg : I xs g) :
    Safe A M C (.each xs p) (I []) g := by
  induction xs generalizing g with
  | nil => exact hg
  | cons x xs ih => exact Safe.seq ((h x xs g hg).mono fun g' hg' ↦ ih hg')

end

/-! ## Threads -/

namespace Machine

variable {A : Outlet S W} {M : Monitor L W G} {C : Contract O G} {m m' : Machine L S O T}
  {body : O → Prog L S O} {Q : G → Prop} {g g' : G} {t : T}

/-- What a thread did in a step, as its monitor sees it. -/
inductive Did [DecidableEq L] (A : Outlet S W) (M : Monitor L W G) (m : Machine L S O T) (t : T)
    (g : G) (m' : Machine L S O T) (g' : G) : Prop where
  | nothing : m'.owner = m.owner → A.out m'.shared = A.out m.shared → g' = g → Did A M m t g m' g'
  | locked (l : L) : m.owner l = none → m'.owner = Function.update m.owner l (some t) →
      A.out m'.shared = A.out m.shared → M.lock l g g' → Did A M m t g m' g'
  | unlocked (l : L) : m'.owner = Function.update m.owner l none →
      A.out m'.shared = A.out m.shared → M.unlock l g g' → Did A M m t g m' g'
  | wrote (v : List W) : m'.owner = m.owner → A.out m'.shared = A.out m.shared ++ v →
      M.write v g g' → Did A M m t g m' g'

variable [DecidableEq L] [DecidableEq T]

/-- A step of a thread with a safe program leaves it with one, and the others with theirs. -/
theorem safe_resume (hbody : ∀ o g, C.pre o g → Safe A M C (body o) (C.post o g) g)
    (hinv : A.inv m.shared) (hsafe : Safe A M C (m.prog t) Q g)
    (hstep : resume body m t = some m') :
    ∃ g', Safe A M C (m'.prog t) Q g' ∧ A.inv m'.shared ∧
      (∀ u ≠ t, m'.prog u = m.prog u) ∧ Did A M m t g m' g' := by
  have hself : ∀ {n : Machine L S O T} {p : Prog L S O} {g : G}, Safe A M C p Q g →
      Safe A M C ((n.setProg t p).prog t) Q g := by
    intro n p g hp
    show Safe A M C (Function.update n.prog t p t) Q g
    rw [Function.update_self]
    exact hp
  have hothers : ∀ {n : Machine L S O T} {p : Prog L S O}, n.prog = m.prog →
      ∀ u ≠ t, (n.setProg t p).prog u = m.prog u := by
    intro n p hn u hu
    show Function.update n.prog t p u = m.prog u
    rw [Function.update_of_ne hu, hn]
  unfold resume at hstep
  cases hprog : m.prog t with
  | ret =>
      rw [hprog] at hstep
      cases hstep
  | lock l k =>
      rw [hprog] at hstep hsafe
      dsimp only at hstep
      split at hstep
      · rename_i hfree
        obtain rfl := Option.some.inj hstep
        obtain ⟨g', hlock, hk⟩ := hsafe
        exact ⟨g', hself hk, hinv, hothers rfl,
          .locked l (Option.isNone_iff_eq_none.mp hfree) rfl rfl hlock⟩
      · cases hstep
  | unlock l k =>
      rw [hprog] at hstep hsafe
      obtain rfl := Option.some.inj hstep
      obtain ⟨g', hunlock, hk⟩ := hsafe
      exact ⟨g', hself hk, hinv, hothers rfl, .unlocked l rfl rfl hunlock⟩
  | atomic f k =>
      rw [hprog] at hstep hsafe
      obtain rfl := Option.some.inj hstep
      obtain ⟨hinv', v, g', hout, hwrite, hk⟩ := hsafe m.shared hinv
      exact ⟨g', hself hk, hinv', hothers rfl, .wrote v rfl hout hwrite⟩
  | call o k =>
      rw [hprog] at hstep hsafe
      obtain rfl := Option.some.inj hstep
      have hrest : Safe A M C ((body o).seq k) Q g :=
        Safe.seq ((hbody o g hsafe.1).mono fun g' hg' ↦ hsafe.2 g' hg')
      exact ⟨g, hself hrest, hinv, hothers rfl, .nothing rfl rfl rfl⟩

/-- Threads begin only operations that they may begin. -/
def Admitted (ok : T → O → Prop) (_ : Machine L S O T) : Move O T → Prop
  | .start t o => ok t o
  | .resume _ => True

/-! ## What a thread writes -/

/-- The operations that a thread has begun. -/
def begun : List (Move O T) → T → List O
  | [], _ => []
  | .start u o :: moves, t => if u = t then o :: begun moves t else begun moves t
  | .resume _ :: moves, t => begun moves t

section

variable {label : W → T} {emitted : O → List W} {ok : T → O → Prop} {moves : List (Move O T)}
  {calls : T → List O}

omit [DecidableEq L] [DecidableEq T] in
/-- Collects what a thread writes, with its label. -/
def collecting (L : Type*) (label : W → T) (t : T) : Monitor L W (List W) where
  lock _ g g' := g' = g
  unlock _ g g' := g' = g
  write v g g' := (∀ w ∈ v, label w = t) ∧ g' = g ++ v

omit [DecidableEq L] [DecidableEq T] in
/-- An operation writes the same whatever the others do. -/
def emission (emitted : O → List W) (ok : T → O → Prop) (t : T) : Contract O (List W) where
  pre o _ := ok t o
  post o g g' := g' = g ++ emitted o

omit [DecidableEq L] [DecidableEq T] in
/-- A loop that writes its list. -/
theorem collecting_each {C : Contract O (List W)} {f : W → S → S} {xs : List W}
    {Q : List W → Prop} {g : List W}
    (hf : ∀ w s, A.inv s → A.inv (f w s) ∧ A.out (f w s) = A.out s ++ [w])
    (hlabel : ∀ w ∈ xs, label w = t) (hQ : Q (g ++ xs)) :
    Safe A (collecting L label t) C (.each xs fun w ↦ .store (f w)) Q g := by
  refine (safe_each (fun rest g' ↦ g' ++ rest = g ++ xs ∧ ∀ w ∈ rest, label w = t) ?_
    ⟨rfl, hlabel⟩).mono fun g' hg' ↦ ?_
  · rintro w rest g' ⟨hg', hrest⟩
    obtain ⟨hw, hrest⟩ := List.forall_mem_cons.mp hrest
    refine safe_store fun s hs ↦ ⟨(hf w s hs).1, [w], g' ++ [w], (hf w s hs).2, ⟨?_, rfl⟩, ?_, hrest⟩
    · exact List.forall_mem_singleton.mpr hw
    · rw [List.append_assoc]
      exact hg'
  · rw [List.append_nil] at hg'
    exact hg'.1 ▸ hQ

/-- What each thread has written and is still to write is what its operations write. -/
structure Serial (A : Outlet S W) (label : W → T) (emitted : O → List W) (ok : T → O → Prop)
    (m : Machine L S O T) (calls : T → List O) : Prop where
  inv : A.inv m.shared
  threads : ∀ t, Safe A (collecting L label t) (emission emitted ok t) (m.prog t)
    (· = (calls t).flatMap emitted) ((A.out m.shared).filter fun w ↦ label w = t)

omit [DecidableEq L] in
theorem Serial.start (h : Serial A label emitted ok m calls) {o : O} (hok : ok t o)
    (hprog : m.prog t = .ret) :
    Serial A label emitted ok (m.setProg t (.invoke o))
      (Function.update calls t (calls t ++ [o])) := by
  refine ⟨h.inv, fun u ↦ ?_⟩
  have hu := h.threads u
  show Safe A _ _ (Function.update m.prog t (.invoke o) u) _ _
  by_cases hut : u = t
  · subst hut
    rw [hprog] at hu
    have hwritten : ((A.out m.shared).filter fun w ↦ label w = u) = (calls u).flatMap emitted := hu
    rw [Function.update_self, Function.update_self]
    refine safe_invoke hok fun g' hg' ↦ ?_
    have hg' : g' = ((A.out m.shared).filter fun w ↦ label w = u) ++ emitted o := hg'
    rw [hg', hwritten, List.flatMap_append, List.flatMap_singleton]
  · rw [Function.update_of_ne hut, Function.update_of_ne hut]
    exact hu

theorem Serial.resume (h : Serial A label emitted ok m calls)
    (hbody : ∀ t o, ok t o → ∀ g, Safe A (collecting L label t) (emission emitted ok t) (body o)
      (· = g ++ emitted o) g)
    (hstep : resume body m t = some m') : Serial A label emitted ok m' calls := by
  obtain ⟨g', hsafe, hinv, hothers, hdid⟩ :=
    safe_resume (fun o g ho ↦ hbody t o ho g) h.inv (h.threads t) hstep
  -- the write of a thread is seen by that thread alone
  have hout : ∃ v, A.out m'.shared = A.out m.shared ++ v ∧ (∀ w ∈ v, label w = t) ∧
      g' = ((A.out m.shared).filter fun w ↦ label w = t) ++ v := by
    cases hdid with
    | nothing _ hout hg => exact ⟨[], by rw [hout, List.append_nil], nofun, by rw [hg, List.append_nil]⟩
    | locked _ _ _ hout hg => exact ⟨[], by rw [hout, List.append_nil], nofun, by rw [hg, List.append_nil]⟩
    | unlocked _ _ hout hg => exact ⟨[], by rw [hout, List.append_nil], nofun, by rw [hg, List.append_nil]⟩
    | wrote v _ hout hwrite => exact ⟨v, hout, hwrite.1, hwrite.2⟩
  obtain ⟨v, hv, hlabel, rfl⟩ := hout
  refine ⟨hinv, fun u ↦ ?_⟩
  rw [hv, List.filter_append]
  by_cases hu : u = t
  · subst hu
    have hall : (v.filter fun w ↦ label w = u) = v :=
      List.filter_eq_self.mpr fun w hw ↦ decide_eq_true (hlabel w hw)
    rw [hall]
    exact hsafe
  · have hnone : (v.filter fun w ↦ label w = u) = [] :=
      List.filter_eq_nil_iff.mpr fun w hw heq ↦
        hu ((of_decide_eq_true heq).symm.trans (hlabel w hw))
    rw [hnone, List.append_nil, hothers u hu]
    exact h.threads u

theorem run_serial
    (hbody : ∀ t o, ok t o → ∀ g, Safe A (collecting L label t) (emission emitted ok t) (body o)
      (· = g ++ emitted o) g)
    (h : Run (Guarded (Of (step body)) (Admitted ok)) m moves m')
    (hm : Serial A label emitted ok m calls) :
    Serial A label emitted ok m' fun t ↦ calls t ++ begun moves t := by
  induction h generalizing calls with
  | nil =>
      refine ⟨hm.inv, fun t ↦ ?_⟩
      rw [begun, List.append_nil]
      exact hm.threads t
  | @cons m m₁ m' move moves hstep _ ih =>
      obtain ⟨hstep, hok⟩ := hstep
      cases move with
      | start t o =>
          have hstep : step body m (.start t o) = some m₁ := hstep
          unfold step at hstep
          dsimp only at hstep
          split at hstep
          · rename_i hprog
            obtain rfl := Option.some.inj hstep
            have hrest := ih (hm.start hok hprog)
            refine ⟨hrest.inv, fun u ↦ ?_⟩
            have hu := hrest.threads u
            by_cases hut : u = t
            · subst hut
              rw [Function.update_self, List.append_assoc] at hu
              rw [begun, if_pos rfl]
              exact hu
            · rw [Function.update_of_ne hut] at hu
              rw [begun, if_neg (Ne.symm hut)]
              exact hu
          · cases hstep
      | resume t => exact ih (hm.resume hbody hstep)

omit [DecidableEq L] [DecidableEq T] in
/-- A safe program adds to what has been collected. -/
theorem safe_grows (p : Prog L S O) {s : S} (hs : A.inv s) {g d : List W}
    (h : Safe A (collecting L label t) (emission emitted ok t) p (· = d) g) : g <+: d := by
  induction p generalizing g s with
  | ret =>
      have heq : g = d := h
      exact heq ▸ List.prefix_refl g
  | lock l k ih =>
      obtain ⟨g', rfl, hk⟩ := h
      exact ih hs hk
  | unlock l k ih =>
      obtain ⟨g', rfl, hk⟩ := h
      exact ih hs hk
  | atomic f k ih =>
      obtain ⟨hinv, v, g', -, ⟨-, rfl⟩, hk⟩ := h s hs
      exact (List.prefix_append g v).trans (ih s hinv hk)
  | call o k ih => exact (List.prefix_append g _).trans (ih hs (h.2 _ rfl))

/-- Whatever the other threads do, a thread has written the beginning of what it would write alone,
and all of it once it has nothing more to do. -/
theorem run_written
    (hbody : ∀ t o, ok t o → ∀ g, Safe A (collecting L label t) (emission emitted ok t) (body o)
      (· = g ++ emitted o) g) {s : S} (hs : A.inv s) (hout : A.out s = [])
    (h : Run (Guarded (Of (step body)) (Admitted ok)) (idle s) moves m) (t : T) :
    ((A.out m.shared).filter fun w ↦ label w = t) <+: (begun moves t).flatMap emitted ∧
      (m.prog t = .ret →
        ((A.out m.shared).filter fun w ↦ label w = t) = (begun moves t).flatMap emitted) := by
  have hidle : Serial (L := L) A label emitted ok (idle s) fun _ ↦ [] := by
    refine ⟨hs, fun u ↦ ?_⟩
    show ((A.out s).filter fun w ↦ label w = u) = []
    rw [hout, List.filter_nil]
  have hserial := run_serial hbody h hidle
  have ht := hserial.threads t
  refine ⟨safe_grows (m.prog t) hserial.inv ht, fun hret ↦ ?_⟩
  rw [hret] at ht
  exact ht

end

/-! ## What is written while a lock is held -/

section

variable {l : L} {cls : W → Bool} {whole : List W → Prop} {pre : O → Option (List W) → Prop}
  {post : O → Option (List W) → Option (List W) → Prop} {ok : T → O → Prop}
  {moves : List (Move O T)}

/-- Collects what is written while the thread holds a lock, which has to be whole when the lock is
released; without the lock nothing of the kind is written. -/
def sectioned (l : L) (cls : W → Bool) (whole : List W → Prop) : Monitor L W (Option (List W)) where
  lock l' c c' := if l' = l then c = none ∧ c' = some [] else c' = c
  unlock l' c c' := if l' = l then (∃ d, c = some d ∧ whole d) ∧ c' = none else c' = c
  write v c c' := c' = c.map (· ++ v.filter cls) ∧ (c = none → v.filter cls = [])

omit [DecidableEq T] in
theorem sectioned_lock {c c' : Option (List W)} :
    (sectioned l cls whole).lock l c c' ↔ c = none ∧ c' = some [] :=
  iff_of_eq (if_pos rfl)

omit [DecidableEq T] in
theorem sectioned_lock_ne {l' : L} (hl : l' ≠ l) {c c' : Option (List W)} :
    (sectioned l cls whole).lock l' c c' ↔ c' = c :=
  iff_of_eq (if_neg hl)

omit [DecidableEq T] in
theorem sectioned_unlock {c c' : Option (List W)} :
    (sectioned l cls whole).unlock l c c' ↔ (∃ d, c = some d ∧ whole d) ∧ c' = none :=
  iff_of_eq (if_pos rfl)

omit [DecidableEq T] in
theorem sectioned_unlock_ne {l' : L} (hl : l' ≠ l) {c c' : Option (List W)} :
    (sectioned l cls whole).unlock l' c c' ↔ c' = c :=
  iff_of_eq (if_neg hl)

omit [DecidableEq T] in
theorem sectioned_each {C : Contract O (Option (List W))} {f : W → S → S} {xs : List W}
    {Q : Option (List W) → Prop} {c : Option (List W)}
    (hf : ∀ w s, A.inv s → A.inv (f w s) ∧ A.out (f w s) = A.out s ++ [w])
    (hnone : c = none → xs.filter cls = []) (hQ : Q (c.map (· ++ xs.filter cls))) :
    Safe A (sectioned l cls whole) C (.each xs fun w ↦ .store (f w)) Q c := by
  refine (safe_each (fun rest c' ↦ c'.map (· ++ rest.filter cls) = c.map (· ++ xs.filter cls) ∧
    (c' = none → rest.filter cls = [])) ?_ ⟨rfl, hnone⟩).mono fun c' hc' ↦ ?_
  · rintro w rest c' ⟨hc', hrest⟩
    have hsplit : (w :: rest).filter cls = [w].filter cls ++ rest.filter cls := by
      rw [← List.filter_append, List.singleton_append]
    rw [hsplit] at hc' hrest
    refine safe_store fun s hs ↦ ⟨(hf w s hs).1, [w], _, (hf w s hs).2, ⟨rfl, fun hc ↦ ?_⟩, ?_,
      fun hc ↦ ?_⟩
    · exact (List.append_eq_nil_iff.mp (hrest hc)).1
    · rw [Option.map_map, ← hc']
      congr 1
      funext d
      exact List.append_assoc _ _ _
    · exact (List.append_eq_nil_iff.mp (hrest (Option.map_eq_none_iff.mp hc))).2
  · have hsame : c' = c.map (· ++ xs.filter cls) := by
      rw [← hc'.1]
      cases c' with
      | none => rfl
      | some d => exact congrArg some (List.append_nil d).symm
    exact hsame ▸ hQ

/-- What has been written consists of whole parts, and of what the owner of the lock has written
since it took it. -/
structure Blocks (A : Outlet S W) (l : L) (cls : W → Bool) (whole : List W → Prop)
    (C : T → Contract O (Option (List W))) (m : Machine L S O T) : Prop where
  inv : A.inv m.shared
  exists_blocks : ∃ (c : T → Option (List W)) (bs : List (List W)),
    (∀ t, Safe A (sectioned l cls whole) (C t) (m.prog t) (· = none) (c t) ∧
      ((c t).isSome = true ↔ m.owner l = some t)) ∧
    (∀ b ∈ bs, whole b) ∧
    (A.out m.shared).filter cls = bs.flatten ++ ((m.owner l).bind c).getD []

variable {C : T → Contract O (Option (List W))}

omit [DecidableEq T] in
theorem idle_blocks {s : S} (hs : A.inv s) (hout : A.out s = []) :
    Blocks A l cls whole C (idle s) := by
  refine ⟨hs, fun _ ↦ none, [], fun t ↦ ⟨rfl, ⟨nofun, nofun⟩⟩, nofun, ?_⟩
  show (A.out s).filter cls = []
  rw [hout, List.filter_nil]

/-- A step of one thread after which its value says who has the lock, and the output agrees. -/
theorem Blocks.change {c : T → Option (List W)} {bs : List (List W)} {c' : Option (List W)}
    (hthreads : ∀ t, Safe A (sectioned l cls whole) (C t) (m.prog t) (· = none) (c t) ∧
      ((c t).isSome = true ↔ m.owner l = some t))
    (hinv : A.inv m'.shared) (hwhole : ∀ b ∈ bs, whole b)
    (hself : Safe A (sectioned l cls whole) (C t) (m'.prog t) (· = none) c')
    (hothers : ∀ u ≠ t, m'.prog u = m.prog u)
    (howner : ∀ u ≠ t, m'.owner l = some u ↔ m.owner l = some u)
    (hheld : c'.isSome = true ↔ m'.owner l = some t)
    (hout : (A.out m'.shared).filter cls =
      bs.flatten ++ ((m'.owner l).bind (Function.update c t c')).getD []) :
    Blocks A l cls whole C m' := by
  refine ⟨hinv, Function.update c t c', bs, fun u ↦ ?_, hwhole, hout⟩
  by_cases hu : u = t
  · rw [hu, Function.update_self]
    exact ⟨hself, hheld⟩
  · rw [Function.update_of_ne hu, hothers u hu, howner u hu]
    exact hthreads u

theorem Blocks.resume (h : Blocks A l cls whole C m)
    (hbody : ∀ t o g, (C t).pre o g →
      Safe A (sectioned l cls whole) (C t) (body o) ((C t).post o g) g)
    (hstep : resume body m t = some m') : Blocks A l cls whole C m' := by
  obtain ⟨c, bs, hthreads, hwhole, hout⟩ := h.exists_blocks
  obtain ⟨c', hself, hinv, hothers, hdid⟩ :=
    safe_resume (hbody t) h.inv (hthreads t).1 hstep
  -- where the lock stays with whom it is, only what the thread writes counts
  have hkeep : m'.owner l = m.owner l → c'.isSome = (c t).isSome →
      (A.out m'.shared).filter cls =
        bs.flatten ++ ((m.owner l).bind (Function.update c t c')).getD [] →
      Blocks A l cls whole C m' := by
    intro howner hheld hout'
    refine Blocks.change hthreads hinv hwhole hself hothers (fun u _ ↦ by rw [howner]) ?_ ?_
    · rw [hheld, howner]
      exact (hthreads t).2
    · rw [howner]
      exact hout'
  cases hdid with
  | nothing howner hsame hg =>
      refine hkeep (congrFun howner l) (by rw [hg]) ?_
      rw [hsame, hg, Function.update_eq_self]
      exact hout
  | locked l' hfree howner hsame hlock =>
      by_cases hl : l' = l
      · subst hl
        obtain ⟨-, rfl⟩ := sectioned_lock.mp hlock
        have hnew : m'.owner l' = some t := by rw [howner, Function.update_self]
        refine Blocks.change hthreads hinv hwhole hself hothers (fun u hu ↦ ?_) ?_ ?_
        · rw [hnew, hfree]
          exact iff_of_false (fun heq ↦ hu (Option.some.inj heq).symm) nofun
        · exact iff_of_true rfl hnew
        · rw [hfree] at hout
          rw [hsame, hout, hnew, Option.bind_some, Function.update_self]
          rfl
      · have hg : c' = c t := (sectioned_lock_ne hl).mp hlock
        refine hkeep (by rw [howner, Function.update_of_ne (Ne.symm hl)]) (by rw [hg]) ?_
        rw [hsame, hg, Function.update_eq_self]
        exact hout
  | unlocked l' howner hsame hunlock =>
      by_cases hl : l' = l
      · subst hl
        obtain ⟨⟨d, hd, hwhole'⟩, rfl⟩ := sectioned_unlock.mp hunlock
        have hold : m.owner l' = some t := (hthreads t).2.mp (by rw [hd]; rfl)
        have hnew : m'.owner l' = none := by rw [howner, Function.update_self]
        -- what was written in the section is one more whole part
        have hwholes : ∀ b ∈ bs ++ [d], whole b := by
          intro b hb
          rcases List.mem_append.mp hb with hb | hb
          · exact hwhole b hb
          · rw [List.mem_singleton.mp hb]
            exact hwhole'
        refine Blocks.change hthreads hinv hwholes hself hothers (fun u hu ↦ ?_) ?_ ?_
        · rw [hnew, hold]
          exact iff_of_false nofun fun heq ↦ hu (Option.some.inj heq).symm
        · rw [hnew]
          exact iff_of_false nofun nofun
        · rw [hold, Option.bind_some, hd] at hout
          rw [hsame, hout, hnew, List.flatten_append, List.flatten_singleton]
          exact (List.append_nil _).symm
      · have hg : c' = c t := (sectioned_unlock_ne hl).mp hunlock
        refine hkeep (by rw [howner, Function.update_of_ne (Ne.symm hl)]) (by rw [hg]) ?_
        rw [hsame, hg, Function.update_eq_self]
        exact hout
  | wrote v howner hv hwrite =>
      obtain ⟨rfl, hnone⟩ := hwrite
      refine hkeep (congrFun howner l) (Option.isSome_map) ?_
      rw [hv, List.filter_append, hout]
      rcases Option.eq_none_or_eq_some (c t) with ht | ⟨d, ht⟩
      · have hsame : (c t).map (· ++ v.filter cls) = c t := by
          rw [ht]
          rfl
        rw [hsame, hnone ht, List.append_nil, Function.update_eq_self]
      · have hold : m.owner l = some t := (hthreads t).2.mp (by rw [ht]; rfl)
        rw [hold, Option.bind_some, Option.bind_some, Function.update_self, ht, List.append_assoc]
        rfl

theorem Blocks.start (h : Blocks A l cls whole C m) {o : O} (hpre : (C t).pre o none)
    (hpost : ∀ c', (C t).post o none c' → c' = none) (hprog : m.prog t = .ret) :
    Blocks A l cls whole C (m.setProg t (.invoke o)) := by
  obtain ⟨c, bs, hthreads, hwhole, hout⟩ := h.exists_blocks
  have ht := hthreads t
  rw [hprog] at ht
  have hnone : c t = none := ht.1
  have hself :
      Safe A (sectioned l cls whole) (C t) ((m.setProg t (.invoke o)).prog t) (· = none) none := by
    show Safe A _ _ (Function.update m.prog t _ t) _ _
    rw [Function.update_self]
    exact safe_invoke hpre hpost
  refine Blocks.change hthreads h.inv hwhole hself (fun u hu ↦ ?_) (fun _ _ ↦ Iff.rfl) ?_ ?_
  · exact Function.update_of_ne hu _ _
  · rw [← hnone]
    exact ht.2
  · rw [← hnone, Function.update_eq_self]
    exact hout

theorem run_blocks
    (hbody : ∀ t o g, (C t).pre o g →
      Safe A (sectioned l cls whole) (C t) (body o) ((C t).post o g) g)
    (hok : ∀ t o, ok t o → (C t).pre o none ∧ ∀ c', (C t).post o none c' → c' = none)
    (h : Run (Guarded (Of (step body)) (Admitted ok)) m moves m')
    (hm : Blocks A l cls whole C m) : Blocks A l cls whole C m' := by
  apply h.invariant _ hm
  rintro m move m' hm ⟨hstep, hadmitted⟩
  cases move with
  | start t o =>
      have hstep : step body m (.start t o) = some m' := hstep
      unfold step at hstep
      dsimp only at hstep
      split at hstep
      · rename_i hprog
        obtain rfl := Option.some.inj hstep
        exact hm.start (hok t o hadmitted).1 (hok t o hadmitted).2 hprog
      · cases hstep
  | resume t => exact hm.resume hbody hstep

omit [DecidableEq T] in
/-- What has been written in a section can be completed. -/
theorem safe_completes {C : Contract O (Option (List W))} (p : Prog L S O)
    (hpost : ∀ o d, C.pre o (some d) → ∃ d', C.post o (some d) (some (d ++ d'))) {s : S}
    (hs : A.inv s) {d : List W} (h : Safe A (sectioned l cls whole) C p (· = none) (some d)) :
    ∃ d', whole (d ++ d') := by
  induction p generalizing d s with
  | ret => cases h
  | lock l' k ih =>
      obtain ⟨c', hlock, hk⟩ := h
      by_cases hl : l' = l
      · subst hl
        cases (sectioned_lock.mp hlock).1
      · obtain rfl := (sectioned_lock_ne hl).mp hlock
        exact ih hs hk
  | unlock l' k ih =>
      obtain ⟨c', hunlock, hk⟩ := h
      by_cases hl : l' = l
      · subst hl
        obtain ⟨⟨d', hd, hwhole⟩, -⟩ := sectioned_unlock.mp hunlock
        cases hd
        exact ⟨[], by rwa [List.append_nil]⟩
      · obtain rfl := (sectioned_unlock_ne hl).mp hunlock
        exact ih hs hk
  | atomic f k ih =>
      obtain ⟨hinv, v, c', -, ⟨rfl, -⟩, hk⟩ := h s hs
      obtain ⟨d', hd'⟩ := ih s hinv hk
      exact ⟨v.filter cls ++ d', by rwa [← List.append_assoc]⟩
  | call o k ih =>
      obtain ⟨d', hd'⟩ := hpost o d h.1
      obtain ⟨d'', hwhole⟩ := ih hs (h.2 _ hd')
      exact ⟨d' ++ d'', by rwa [← List.append_assoc]⟩

/-- A program that takes its locks in their order and writes nothing leaves its sections empty.  The
lock comes last, so nothing is called while it is held. -/
theorem safe_of_fits {ρ : Type*} [Preorder ρ] {rank : L → ρ} {need : O → ρ} {inv : S → Prop}
    {get : S' → S} {put : S → S' → S'} {op : O → O'} {A : Outlet S' W}
    {C : Contract O' (Option (List W))} (hleaf : ∀ o, ¬ rank l < need o) (hempty : whole [])
    (hget : ∀ s, A.inv s → inv (get s)) (hput : ∀ s x, A.inv s → inv x → A.inv (put x s))
    (hsilent : ∀ s x, A.out (put x s) = A.out s)
    (hcall : ∀ o, C.pre (op o) none ∧ ∀ c', C.post (op o) none c' → c' = none)
    {p : Prog L S O} {held held' : List L} (h : Fits rank need inv held p held')
    (hnodup : held.Nodup) :
    Safe A (sectioned l cls whole) C (p.zoom get put op)
      (· = if l ∈ held' then some [] else none) (if l ∈ held then some [] else none) := by
  induction p generalizing held with
  | ret =>
      have hsame : held' = held := h
      rw [hsame]
      rfl
  | lock l' k ih =>
      have hmem : l' ∉ held := fun hl ↦ lt_irrefl _ (h.1 l' hl)
      refine ⟨if l ∈ l' :: held then some [] else none, ?_, ih h.2 (hnodup.cons hmem)⟩
      by_cases hl : l' = l
      · subst hl
        rw [if_neg hmem, if_pos List.mem_cons_self]
        exact sectioned_lock.mpr ⟨rfl, rfl⟩
      · rw [sectioned_lock_ne hl]
        simp only [List.mem_cons, Ne.symm hl, false_or]
  | unlock l' k ih =>
      obtain ⟨rest, rfl, hk⟩ := h
      obtain ⟨hmem, hrest⟩ := List.nodup_cons.mp hnodup
      refine ⟨if l ∈ rest then some [] else none, ?_, ih hk hrest⟩
      by_cases hl : l' = l
      · subst hl
        rw [if_neg hmem, if_pos List.mem_cons_self]
        exact sectioned_unlock.mpr ⟨⟨[], rfl, hempty⟩, rfl⟩
      · rw [sectioned_unlock_ne hl]
        simp only [List.mem_cons, Ne.symm hl, false_or]
  | atomic f k ih =>
      intro s hs
      obtain ⟨hinv, hk⟩ := h (get s) (hget s hs)
      refine ⟨hput s _ hs hinv, [], _, by rw [hsilent, List.append_nil], ⟨?_, fun _ ↦ List.filter_nil⟩,
        ih (get s) hk hnodup⟩
      split <;> rfl
  | call o k ih =>
      have hfree : l ∉ held := fun hl ↦ hleaf o (h.1 l hl)
      have hk := ih h.2 hnodup
      rw [if_neg hfree] at hk ⊢
      refine ⟨(hcall o).1, fun c' hc' ↦ ?_⟩
      rw [(hcall o).2 c' hc']
      exact hk

/-- What is written under a lock are whole parts one after the other, and the beginning of one while
some thread holds the lock. -/
theorem run_sections {s : S} (hs : A.inv s) (hout : A.out s = [])
    (hbody : ∀ t o g, (C t).pre o g →
      Safe A (sectioned l cls whole) (C t) (body o) ((C t).post o g) g)
    (hpost : ∀ t o d, (C t).pre o (some d) → ∃ d', (C t).post o (some d) (some (d ++ d')))
    (hok : ∀ t o, ok t o → (C t).pre o none ∧ ∀ c', (C t).post o none c' → c' = none)
    (h : Run (Guarded (Of (step body)) (Admitted ok)) (idle s) moves m) :
    ∃ (bs : List (List W)) (d : List W), (∀ b ∈ bs, whole b) ∧
      (A.out m.shared).filter cls = bs.flatten ++ d ∧
      (m.owner l = none → d = []) ∧ (d = [] ∨ ∃ d', whole (d ++ d')) := by
  have hblocks : Blocks A l cls whole C m := run_blocks hbody hok h (idle_blocks hs hout)
  obtain ⟨c, bs, hthreads, hwhole, hwritten⟩ := hblocks.exists_blocks
  refine ⟨bs, _, hwhole, hwritten, ?_⟩
  cases howner : m.owner l with
  | none => exact ⟨fun _ ↦ rfl, .inl rfl⟩
  | some t =>
      obtain ⟨d, hd⟩ := Option.isSome_iff_exists.mp ((hthreads t).2.mpr howner)
      obtain ⟨d', hd'⟩ := safe_completes (m.prog t) (hpost t) hblocks.inv (hd ▸ (hthreads t).1)
      rw [Option.bind_some, hd]
      exact ⟨nofun, .inr ⟨d', hd'⟩⟩

end

end Machine

end Locks
