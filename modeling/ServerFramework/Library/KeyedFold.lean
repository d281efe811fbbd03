import Mathlib.Data.List.Pairwise
import Mathlib.Logic.Function.Basic

/-!
# Folds that write one entry per element

A loop over elements with different keys, each of which changes the entry of its own key.  What the
loop leaves at a key is what the element with that key makes of the entry.
-/

namespace KeyedFold

variable {κ α β : Type*} [DecidableEq κ]

/-- Changes the entry of every element's key. -/
def apply (key : α → κ) (f : α → β → β) (m : κ → β) (l : List α) : κ → β :=
  l.foldl (fun m x ↦ Function.update m (key x) (f x (m (key x)))) m

variable {key : α → κ} {f : α → β → β} {m : κ → β} {l : List α}

theorem apply_of_ne {k : κ} (h : ∀ x ∈ l, key x ≠ k) : apply key f m l k = m k := by
  induction l generalizing m with
  | nil => rfl
  | cons x xs ih =>
      show apply key f (Function.update m (key x) (f x (m (key x)))) xs k = m k
      rw [ih fun y hy ↦ h y (List.mem_cons_of_mem _ hy),
        Function.update_of_ne (h x List.mem_cons_self).symm]

theorem apply_of_mem (hnodup : l.Pairwise fun x y ↦ key x ≠ key y) {x : α} (hx : x ∈ l) :
    apply key f m l (key x) = f x (m (key x)) := by
  induction l generalizing m with
  | nil => cases hx
  | cons y ys ih =>
      obtain ⟨hhead, htail⟩ := List.pairwise_cons.mp hnodup
      show apply key f (Function.update m (key y) (f y (m (key y)))) ys (key x) = f x (m (key x))
      rcases List.mem_cons.mp hx with rfl | hx
      · rw [apply_of_ne fun z hz ↦ (hhead z hz).symm, Function.update_self]
      · rw [ih htail hx, Function.update_of_ne (hhead x hx).symm]

omit [DecidableEq κ] in
theorem eq_of_key (hnodup : l.Pairwise fun x y ↦ key x ≠ key y) {x y : α} (hx : x ∈ l) (hy : y ∈ l)
    (hkey : key x = key y) : x = y := by
  have hsymm : Std.Symm fun x y : α ↦ key x ≠ key y := ⟨fun _ _ h ↦ h.symm⟩
  by_contra hne
  exact hnodup.forall hx hy hne hkey

/-- A loop in which no step fails. -/
theorem foldlM_eq_some {σ : Type*} {step : σ → α → Option σ} {g : σ → α → σ} {s : σ}
    (h : ∀ x ∈ l, ∀ s, step s x = some (g s x)) : l.foldlM step s = some (l.foldl g s) := by
  induction l generalizing s with
  | nil => rfl
  | cons x xs ih =>
      rw [List.foldlM_cons, h x List.mem_cons_self]
      exact ih fun y hy ↦ h y (List.mem_cons_of_mem _ hy)

end KeyedFold
