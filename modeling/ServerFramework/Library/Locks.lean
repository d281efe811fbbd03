import ServerFramework.Library.Runs
import Mathlib.Data.List.Nodup
import Mathlib.Logic.Function.Basic
import Mathlib.Logic.Relation
import Mathlib.Order.Basic

/-!
# Threads that take locks

Threads run programs over a shared state that take and release locks which are not recursive.  A
program may take its locks in the order of a rank.
-/

namespace Locks

open Runs

variable {L S O T ρ : Type*}

/-- What is left of an operation.  The operations `O` may call each other. -/
inductive Prog (L S O : Type*) where
  | ret
  | lock (l : L) (k : Prog L S O)
  | unlock (l : L) (k : Prog L S O)
  /-- changes the shared state, and goes on with what it was -/
  | atomic (f : S → S) (k : S → Prog L S O)
  | call (o : O) (k : Prog L S O)

namespace Prog

def seq : Prog L S O → Prog L S O → Prog L S O
  | .ret, q => q
  | .lock l k, q => .lock l (k.seq q)
  | .unlock l k, q => .unlock l (k.seq q)
  | .atomic f k, q => .atomic f fun s ↦ (k s).seq q
  | .call o k, q => .call o (k.seq q)

def load (k : S → Prog L S O) : Prog L S O := .atomic id k

def store (f : S → S) : Prog L S O := .atomic f fun _ ↦ .ret

def invoke (o : O) : Prog L S O := .call o .ret

/-- A scoped lock. -/
def locked (l : L) (p : Prog L S O) : Prog L S O := .lock l (p.seq (.unlock l .ret))

/-- A loop over a list. -/
def each {α : Type*} (xs : List α) (p : α → Prog L S O) : Prog L S O :=
  xs.foldr (fun x k ↦ (p x).seq k) .ret

end Prog

/-! ## The order of the locks -/

/-- From the locks `held`, the last one first, a program gets to other ones, takes only locks that
rank above all it holds, and keeps an invariant of the shared state.  A call may take the locks from
`need` on. -/
def Fits [Preorder ρ] (rank : L → ρ) (need : O → ρ) (inv : S → Prop) :
    List L → Prog L S O → List L → Prop
  | held, .ret, held' => held' = held
  | held, .lock l k, held' => (∀ h ∈ held, rank h < rank l) ∧ Fits rank need inv (l :: held) k held'
  | held, .unlock l k, held' => ∃ rest, held = l :: rest ∧ Fits rank need inv rest k held'
  | held, .atomic f k, held' => ∀ s, inv s → inv (f s) ∧ Fits rank need inv held (k s) held'
  | held, .call o k, held' => (∀ h ∈ held, rank h < need o) ∧ Fits rank need inv held k held'

section

variable [Preorder ρ] {rank : L → ρ} {need : O → ρ} {inv : S → Prop} {held held' held'' : List L}
  {p q : Prog L S O} {l : L} {o : O}

theorem Fits.seq (hp : Fits rank need inv held p held') (hq : Fits rank need inv held' q held'') :
    Fits rank need inv held (p.seq q) held'' := by
  -- the locks that are held change along `p`, so the induction is for all of them
  induction p generalizing held with
  | ret =>
      have hsame : held' = held := hp
      exact hsame ▸ hq
  | lock l k ih => exact ⟨hp.1, ih hp.2⟩
  | unlock l k ih =>
      obtain ⟨rest, hheld, hk⟩ := hp
      exact ⟨rest, hheld, ih hk⟩
  | atomic f k ih => exact fun s hs ↦ ⟨(hp s hs).1, ih s (hp s hs).2⟩
  | call o k ih => exact ⟨hp.1, ih hp.2⟩

theorem fits_ret : Fits rank need inv held .ret held := rfl

theorem fits_load {k : S → Prog L S O} (h : ∀ s, inv s → Fits rank need inv held (k s) held') :
    Fits rank need inv held (.load k) held' :=
  fun s hs ↦ ⟨hs, h s hs⟩

theorem fits_store {f : S → S} (h : ∀ s, inv s → inv (f s)) :
    Fits rank need inv held (.store f) held :=
  fun s hs ↦ ⟨h s hs, rfl⟩

theorem fits_invoke (h : ∀ k ∈ held, rank k < need o) : Fits rank need inv held (.invoke o) held :=
  ⟨h, rfl⟩

theorem fits_locked (h : ∀ k ∈ held, rank k < rank l)
    (hp : Fits rank need inv (l :: held) p (l :: held)) :
    Fits rank need inv held (.locked l p) held :=
  ⟨h, hp.seq ⟨held, rfl, rfl⟩⟩

theorem fits_each {α : Type*} {xs : List α} {p : α → Prog L S O}
    (h : ∀ x ∈ xs, Fits rank need inv held (p x) held) :
    Fits rank need inv held (.each xs p) held := by
  induction xs with
  | nil => exact fits_ret
  | cons x xs ih =>
      have hrest := ih fun y hy ↦ h y (List.mem_cons_of_mem _ hy)
      exact (h x List.mem_cons_self).seq hrest

end

/-! ## Threads -/

/-- The shared state, the owners of the locks and what the threads have still to do. -/
structure Machine (L S O T : Type*) where
  shared : S
  owner : L → Option T
  prog : T → Prog L S O

/-- A thread without anything to do begins an operation, or a thread goes on. -/
inductive Move (O T : Type*) where
  | start (t : T) (o : O)
  | resume (t : T)
  deriving DecidableEq, Repr

namespace Machine

variable {m m' : Machine L S O T}

/-- Before any thread has done anything. -/
def idle (s : S) : Machine L S O T := ⟨s, fun _ ↦ none, fun _ ↦ .ret⟩

/-- A thread is about to take a lock. -/
def Waits (m : Machine L S O T) (t : T) (l : L) : Prop := ∃ k, m.prog t = .lock l k

/-- A thread waits for a lock that another one, or itself, holds. -/
def WaitsFor (m : Machine L S O T) (t u : T) : Prop := ∃ l, m.Waits t l ∧ m.owner l = some u

section

variable [DecidableEq L] [DecidableEq T] {body : O → Prog L S O}

def setProg (m : Machine L S O T) (t : T) (p : Prog L S O) : Machine L S O T :=
  { m with prog := Function.update m.prog t p }

def setOwner (m : Machine L S O T) (l : L) (t : Option T) : Machine L S O T :=
  { m with owner := Function.update m.owner l t }

/-- The next step of a thread; a lock that is taken is waited for. -/
def resume (body : O → Prog L S O) (m : Machine L S O T) (t : T) : Option (Machine L S O T) :=
  match m.prog t with
  | .ret => none
  | .lock l k => if (m.owner l).isNone then some ((m.setOwner l (some t)).setProg t k) else none
  | .unlock l k => some ((m.setOwner l none).setProg t k)
  | .atomic f k => some ({ m with shared := f m.shared }.setProg t (k m.shared))
  | .call o k => some (m.setProg t ((body o).seq k))

def step (body : O → Prog L S O) (m : Machine L S O T) : Move O T → Option (Machine L S O T)
  | .start t o =>
    match m.prog t with
    | .ret => some (m.setProg t (.invoke o))
    | _ => none
  | .resume t => resume body m t

end

end Machine

end Locks
