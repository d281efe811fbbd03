import Mathlib.Data.BitVec
import Mathlib.Algebra.BigOperators.Group.List.Basic
import Mathlib.Algebra.BigOperators.Group.Finset.Piecewise
import Mathlib.Algebra.Order.BigOperators.Group.Finset

/-!
# Counters that track a list

A 64-bit counter that is stepped up and down while the records of a list change one at a time.  The
lemmas say when the machine arithmetic is the arithmetic of the tracked number, and how a sum over
a list or over a finite family changes when one member does.
-/

open scoped BigOperators

namespace Counter

/-- The 64-bit word `c` holds the number `n`. -/
def Holds (c : BitVec 64) (n : Nat) : Prop := c.toNat = n

variable {c : BitVec 64} {n k : Nat}

theorem Holds.zero : Holds 0#64 0 := rfl

theorem Holds.add_one (h : Holds c n) (hn : n + 1 < 2 ^ 64) : Holds (c + 1#64) (n + 1) := by
  unfold Holds at *
  rw [BitVec.toNat_add, h]
  exact Nat.mod_eq_of_lt hn

/-- A decrement of a positive count does not wrap. -/
theorem Holds.sub_one (h : Holds c (n + 1)) : Holds (c - 1#64) n := by
  unfold Holds at *
  have hc := c.isLt
  rw [BitVec.toNat_sub, h]
  have h1 : (1#64).toNat = 1 := rfl
  omega

/-- Taking away at most what is counted does not wrap. -/
theorem Holds.sub (h : Holds c (n + k)) : Holds (c - BitVec.ofNat 64 k) n := by
  unfold Holds at *
  have hc := c.isLt
  rw [BitVec.toNat_sub, h, BitVec.toNat_ofNat, Nat.mod_eq_of_lt (by omega : k < 2 ^ 64)]
  omega

/-- A decrement never leaves the counter as it was. -/
theorem Holds.sub_one_ne (h : Holds c n) : ¬ Holds (c - 1#64) n := by
  unfold Holds at *
  have hc := c.isLt
  rw [BitVec.toNat_sub, h]
  have h1 : (1#64).toNat = 1 := rfl
  omega

theorem Holds.eq_zero_iff (h : Holds c n) : c = 0#64 ↔ n = 0 := by
  unfold Holds at h
  constructor
  · rintro rfl
    exact h.symm
  · rintro rfl
    exact BitVec.eq_of_toNat_eq h

variable {α : Type*}

theorem sum_map_set (f : α → Nat) (l : List α) (i : Nat) (a b : α) (h : l[i]? = some a) :
    ((l.set i b).map f).sum + f a = (l.map f).sum + f b := by
  induction l generalizing i with
  | nil => simp at h
  | cons x xs ih =>
      cases i with
      | zero =>
          obtain rfl : x = a := by simpa using h
          simp only [List.set_cons_zero, List.map_cons, List.sum_cons]
          omega
      | succ i =>
          have hi := ih i (by simpa using h)
          simp only [List.set_cons_succ, List.map_cons, List.sum_cons]
          omega

theorem sum_map_le (f : α → Nat) (b : Nat) (hf : ∀ a, f a ≤ b) (l : List α) :
    (l.map f).sum ≤ l.length * b := by
  induction l with
  | nil => simp
  | cons x xs ih =>
      have hx := hf x
      simp only [List.map_cons, List.sum_cons, List.length_cons, Nat.add_mul, Nat.one_mul]
      omega

theorem sum_map_eq_zero_iff (f : α → Nat) (l : List α) :
    (l.map f).sum = 0 ↔ ∀ a ∈ l, f a = 0 := by
  rw [List.sum_eq_zero_iff_forall_eq_nat]
  simp only [List.mem_map, forall_exists_index, and_imp, forall_apply_eq_imp_iff₂]

/-- Two families that differ in one member at most have sums that differ by it. -/
theorem sum_change {ι : Type*} [Fintype ι] {f g : ι → Nat} (i : ι)
    (h : ∀ j, j ≠ i → f j = g j) : ∑ x, f x + g i = ∑ x, g x + f i := by
  classical
  have hrest : ∑ x ∈ Finset.univ.erase i, f x = ∑ x ∈ Finset.univ.erase i, g x :=
    Finset.sum_congr rfl fun x hx ↦ h x (Finset.ne_of_mem_erase hx)
  rw [← Finset.add_sum_erase Finset.univ f (Finset.mem_univ i),
    ← Finset.add_sum_erase Finset.univ g (Finset.mem_univ i), hrest]
  omega

/-- The same where the other members may grow by `k` each. -/
theorem sum_change_le {ι : Type*} [Fintype ι] {f g : ι → Nat} (i : ι)
    (h : ∀ j, j ≠ i → f j ≤ g j + k) :
    ∑ x, f x + g i ≤ ∑ x, g x + f i + k * Fintype.card ι := by
  classical
  have hrest : ∑ x ∈ Finset.univ.erase i, f x ≤ ∑ x ∈ Finset.univ.erase i, (g x + k) :=
    Finset.sum_le_sum fun x hx ↦ h x (Finset.ne_of_mem_erase hx)
  have hall : ∑ x ∈ Finset.univ.erase i, (g x + k) ≤
      ∑ x ∈ Finset.univ.erase i, g x + k * Fintype.card ι := by
    rw [Finset.sum_add_distrib, Finset.sum_const_nat fun _ _ ↦ rfl, Nat.mul_comm]
    exact Nat.add_le_add_left (Nat.mul_le_mul_left k (Finset.card_le_univ _)) _
  rw [← Finset.add_sum_erase Finset.univ f (Finset.mem_univ i),
    ← Finset.add_sum_erase Finset.univ g (Finset.mem_univ i)]
  omega

/-- A sum over a family changes by the change of the member that is replaced. -/
theorem sum_update {ι : Type*} [Fintype ι] [DecidableEq ι] (g : α → Nat) (h : ι → α) (i : ι)
    (a : α) : ∑ x, g (Function.update h i a x) + g (h i) = ∑ x, g (h x) + g a := by
  have hsum := sum_change (f := fun x ↦ g (Function.update h i a x)) (g := fun x ↦ g (h x)) i
    fun j hj ↦ by rw [Function.update_of_ne hj]
  rwa [Function.update_self] at hsum

/-- A family of zeros and ones sums to the number of its ones. -/
theorem sum_eq_card {ι : Type*} [Fintype ι] {f : ι → Nat} (h : ∀ i, f i ≤ 1) :
    ∑ i, f i = (Finset.univ.filter fun i ↦ f i = 1).card := by
  rw [Finset.card_filter]
  apply Finset.sum_congr rfl
  intro i _
  have hi := h i
  split
  · assumption
  · omega

end Counter
