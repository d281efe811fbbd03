import Mathlib.Data.List.Basic
import Mathlib.Data.List.TakeWhile
import Mathlib.Tactic.TypeStar

/-!
# Doubling a letter

The escape of a text in which a letter `q` is special: every `q` is written twice.  And texts that
differ at the same distance from their ends, whatever stands in front.
-/

namespace Escape

variable {α : Type*} [DecidableEq α] {q c : α} {s t a b : List α}

/-- Every `q` is doubled. -/
def double (q : α) (s : List α) : List α := s.flatMap fun c ↦ if c = q then [q, q] else [c]

theorem double_append : double q (s ++ t) = double q s ++ double q t := List.flatMap_append

theorem double_cons_self : double q (q :: s) = q :: q :: double q s := by
  unfold double
  rw [List.flatMap_cons, if_pos rfl]
  rfl

theorem double_cons_of_ne (h : c ≠ q) : double q (c :: s) = c :: double q s := by
  unfold double
  rw [List.flatMap_cons, if_neg h]
  rfl

theorem double_eq_self (h : q ∉ s) : double q s = s := by
  induction s with
  | nil => rfl
  | cons c s ih =>
      rw [List.mem_cons, not_or] at h
      rw [double_cons_of_ne (Ne.symm h.1), ih h.2]

theorem mem_double : c ∈ double q s ↔ c ∈ s := by
  induction s with
  | nil => rfl
  | cons d s ih =>
      by_cases hd : d = q
      · subst hd
        rw [double_cons_self, List.mem_cons, List.mem_cons, List.mem_cons, ih, or_self_left]
      · rw [double_cons_of_ne hd, List.mem_cons, List.mem_cons, ih]

theorem double_replicate (n : Nat) :
    double q (List.replicate n q) = List.replicate (n + n) q := by
  induction n with
  | zero => rfl
  | succ n ih =>
      rw [List.replicate_succ, double_cons_self, ih, show n + 1 + (n + 1) = n + n + 1 + 1 by omega]
      rfl

/-- At any other letter an escaped text falls into two escaped texts. -/
theorem double_split (hc : c ≠ q) (h : double q s = a ++ c :: b) :
    ∃ x y, s = x ++ c :: y ∧ a = double q x ∧ b = double q y := by
  induction s generalizing a with
  | nil => exact absurd h.symm (List.append_ne_nil_of_right_ne_nil _ (List.cons_ne_nil _ _))
  | cons d s ih =>
      by_cases hd : d = q
      · subst hd
        rw [double_cons_self] at h
        -- both copies lie before `c`
        cases a with
        | nil => exact absurd (List.cons.inj h).1.symm hc
        | cons e a =>
            obtain ⟨he, h⟩ := List.cons.inj h
            cases a with
            | nil => exact absurd (List.cons.inj h).1.symm hc
            | cons f a =>
                obtain ⟨hf, h⟩ := List.cons.inj h
                obtain ⟨x, y, hs, ha, hb⟩ := ih h
                refine ⟨d :: x, y, by rw [hs]; rfl, ?_, hb⟩
                rw [double_cons_self, ← ha, ← he, ← hf]
      · rw [double_cons_of_ne hd] at h
        cases a with
        | nil =>
            obtain ⟨hdc, hb⟩ := List.cons.inj h
            exact ⟨[], s, by rw [hdc]; rfl, rfl, hb.symm⟩
        | cons e a =>
            obtain ⟨he, h⟩ := List.cons.inj h
            obtain ⟨x, y, hs, ha, hb⟩ := ih h
            refine ⟨d :: x, y, by rw [hs]; rfl, ?_, hb⟩
            rw [double_cons_of_ne hd, ← ha, ← he]

/-- Cutting at a letter other than `q` commutes with the escape. -/
theorem double_takeWhile {p : α → Bool} (hp : p q = true) :
    (double q s).takeWhile p = double q (s.takeWhile p) := by
  induction s with
  | nil => rfl
  | cons d s ih =>
      by_cases hd : d = q
      · subst hd
        rw [double_cons_self, List.takeWhile_cons_of_pos hp, List.takeWhile_cons_of_pos hp, ih,
          List.takeWhile_cons_of_pos hp, double_cons_self]
      · rw [double_cons_of_ne hd]
        by_cases hpd : p d = true
        · rw [List.takeWhile_cons_of_pos hpd, ih, List.takeWhile_cons_of_pos hpd,
            double_cons_of_ne hd]
        · rw [List.takeWhile_cons_of_neg hpd, List.takeWhile_cons_of_neg hpd]
          rfl

/-- A text that has `q` in it starts with a text without `q`, and then a run of `q`. -/
theorem exists_run (h : q ∈ s) :
    ∃ u n r, s = u ++ (List.replicate (n + 1) q ++ r) ∧ q ∉ u ∧ r.head? ≠ some q := by
  have hrun : ∀ r : List α, ∃ n t, r = List.replicate n q ++ t ∧ t.head? ≠ some q := by
    intro r
    induction r with
    | nil => exact ⟨0, [], rfl, nofun⟩
    | cons d r ih =>
        by_cases hd : d = q
        · obtain ⟨n, t, rfl, ht⟩ := ih
          exact ⟨n + 1, t, by rw [hd]; rfl, ht⟩
        · refine ⟨0, d :: r, rfl, fun heq ↦ hd ?_⟩
          exact Option.some.inj heq
  obtain ⟨u, r, rfl, hu⟩ := List.eq_append_cons_of_mem h
  obtain ⟨n, t, rfl, ht⟩ := hrun r
  exact ⟨u, n, t, rfl, hu, ht⟩

omit [DecidableEq α]

/-! ## Texts that differ before a common end -/

/-- The texts differ at the same distance from their ends. -/
def Diverge (a b : List α) : Prop := ∃ x y z c d, a = x ++ c :: z ∧ b = y ++ d :: z ∧ c ≠ d

theorem Diverge.ne (h : Diverge a b) : a ≠ b := by
  obtain ⟨x, y, z, c, d, rfl, rfl, hne⟩ := h
  intro heq
  exact hne (List.cons.inj (List.append_inj_right' heq rfl)).1

/-- Whatever stands in front of either. -/
theorem Diverge.prepend (h : Diverge a b) (u v : List α) : Diverge (u ++ a) (v ++ b) := by
  obtain ⟨x, y, z, c, d, rfl, rfl, hne⟩ := h
  exact ⟨u ++ x, v ++ y, z, c, d, (List.append_assoc ..).symm, (List.append_assoc ..).symm, hne⟩

end Escape
