import Mathlib.Data.List.Basic

/-!
# Sequences of changes

A change is the value before it and the value after it.  Changes that follow one another are those of
one variable.
-/

namespace Changes

variable {α : Type*}

/-- Each change starts where the one before it ended, and the first one at `v`. -/
def Chained (v : α) : List (α × α) → Prop
  | [] => True
  | c :: cs => c.1 = v ∧ Chained c.2 cs

/-- Where the changes lead to from `v`. -/
def final (v : α) (cs : List (α × α)) : α := cs.foldl (fun _ c ↦ c.2) v

variable {v : α} {c : α × α} {cs : List (α × α)}

@[simp]
theorem final_concat : final v (cs ++ [c]) = c.2 := by
  unfold final
  rw [List.foldl_append]
  rfl

theorem chained_concat : Chained v (cs ++ [c]) ↔ Chained v cs ∧ c.1 = final v cs := by
  induction cs generalizing v with
  | nil =>
      show c.1 = v ∧ True ↔ True ∧ c.1 = v
      rw [and_comm]
  | cons d cs ih =>
      show d.1 = v ∧ Chained d.2 (cs ++ [c]) ↔ (d.1 = v ∧ Chained d.2 cs) ∧ c.1 = final d.2 cs
      rw [ih, and_assoc]

end Changes
