import Mathlib.Data.List.Basic
import Mathlib.Logic.Function.Basic
import Mathlib.Tactic.TypeStar

/-!
# Machines side by side

One machine for each key, all of one kind.  Every input goes to one of them and changes no other, so
a run of all of them together is one run of each, of its own inputs in their order.
-/

namespace Family

variable {K σ α β ω : Type*}

/-- Runs a machine whose steps may fail and have outputs. -/
def exec (step : σ → α → Option (σ × ω)) (s : σ) : List α → Option (σ × List ω)
  | [] => some (s, [])
  | a :: as =>
    (step s a).bind fun (s', o) ↦ (exec step s' as).map fun (s'', os) ↦ (s'', o :: os)

theorem exec_cons {step : σ → α → Option (σ × ω)} {s s' s'' : σ} {a : α} {as : List α} {o : ω}
    {os : List ω} (hs : step s a = some (s', o)) (h : exec step s' as = some (s'', os)) :
    exec step s (a :: as) = some (s'', o :: os) := by
  rw [exec, hs, Option.bind_some]
  dsimp only
  rw [h, Option.map_some]

theorem exec_cons_some {step : σ → α → Option (σ × ω)} {s s'' : σ} {a : α} {as : List α} {os : List ω}
    (h : exec step s (a :: as) = some (s'', os)) :
    ∃ s' o os', step s a = some (s', o) ∧ exec step s' as = some (s'', os') ∧ os = o :: os' := by
  obtain ⟨⟨s', o⟩, hs, h⟩ := Option.bind_eq_some_iff.mp h
  obtain ⟨⟨t, os'⟩, hrest, heq⟩ := Option.map_eq_some_iff.mp h
  cases heq
  exact ⟨s', o, os', hs, hrest, rfl⟩

theorem exec_append {step : σ → α → Option (σ × ω)} {s s' s'' : σ} {as bs : List α} {os os' : List ω}
    (h : exec step s as = some (s', os)) (h' : exec step s' bs = some (s'', os')) :
    exec step s (as ++ bs) = some (s'', os ++ os') := by
  induction as generalizing s os with
  | nil =>
      cases h
      exact h'
  | cons a as ih =>
      obtain ⟨t, o, os₁, hs, hrest, rfl⟩ := exec_cons_some h
      exact exec_cons hs (ih hrest)

/-- What every step keeps, and what it makes sure of for its output. -/
theorem exec_invariant {step : σ → α → Option (σ × ω)} {I : σ → Prop} {P : ω → Prop}
    (hstep : ∀ s a s' o, I s → step s a = some (s', o) → I s' ∧ P o) {s s' : σ} {as : List α}
    {os : List ω} (h : exec step s as = some (s', os)) (hs : I s) : I s' ∧ ∀ o ∈ os, P o := by
  induction as generalizing s os with
  | nil =>
      cases h
      exact ⟨hs, nofun⟩
  | cons a as ih =>
      obtain ⟨t, o, os', ht, hrest, rfl⟩ := exec_cons_some h
      obtain ⟨hI, hP⟩ := hstep s a t o hs ht
      obtain ⟨hI', hP'⟩ := ih hrest hI
      exact ⟨hI', List.forall_mem_cons.mpr ⟨hP, hP'⟩⟩

variable [DecidableEq K]

/-- What concerns one key. -/
def only (k : K) (xs : List (K × β)) : List β := xs.filterMap fun x ↦ if x.1 = k then some x.2 else none

@[simp] theorem only_nil (k : K) : only k ([] : List (K × β)) = [] := rfl

theorem only_cons (k : K) (x : K × β) (xs : List (K × β)) :
    only k (x :: xs) = if x.1 = k then x.2 :: only k xs else only k xs := by
  unfold only
  rw [List.filterMap_cons]
  by_cases hk : x.1 = k
  · rw [if_pos hk, if_pos hk]
  · rw [if_neg hk, if_neg hk]

/-- The machine that an input is for makes a step. -/
def stepAt (step : σ → α → Option (σ × ω)) (s : K → σ) (x : K × α) : Option ((K → σ) × K × ω) :=
  (step (s x.1) x.2).map fun (s', o) ↦ (Function.update s x.1 s', x.1, o)

/-- Each machine runs as if it were alone. -/
theorem exec_only {step : σ → α → Option (σ × ω)} {s s' : K → σ} {xs : List (K × α)}
    {os : List (K × ω)} (h : exec (stepAt step) s xs = some (s', os)) (k : K) :
    exec step (s k) (only k xs) = some (s' k, only k os) := by
  induction xs generalizing s os with
  | nil =>
      cases h
      rfl
  | cons x xs ih =>
      obtain ⟨t, o, os', hs, hrest, rfl⟩ := exec_cons_some h
      obtain ⟨⟨u, o'⟩, hu, heq⟩ := Option.map_eq_some_iff.mp hs
      cases heq
      have hk := ih hrest
      rw [only_cons, only_cons]
      by_cases hx : x.1 = k
      · subst hx
        rw [Function.update_self] at hk
        rw [if_pos rfl, if_pos rfl]
        exact exec_cons hu hk
      · rw [Function.update_of_ne (Ne.symm hx)] at hk
        rw [if_neg hx, if_neg hx]
        exact hk

end Family
