import Mathlib.Data.Fintype.Card
import Mathlib.Data.List.Forall2
import Mathlib.Logic.Relation

/-!
# Graphs without a reachable cycle

A recursion that follows the edges of a graph ends from a vertex if the vertex is accessible.  In a
finite graph that is so exactly if no cycle can be reached from it.
-/

namespace Acyclic

open Relation

variable {V α β : Type*}

/-- No vertex that is reached from `v` lies on a cycle. -/
def From (r : V → V → Prop) (v : V) : Prop := ∀ u, ReflTransGen r v u → ¬ TransGen r u u

theorem not_of_acc {q : V → V → Prop} {v : V} (h : Acc q v) : ¬ q v v := by
  induction h with
  | intro v _ ih => exact fun hv ↦ ih v hv hv

theorem from_of_acc {r : V → V → Prop} {v : V} (h : Acc (Function.swap r) v) : From r v := by
  have hacc : ∀ u, ReflTransGen r v u → Acc (Function.swap r) u := by
    intro u hu
    induction hu with
    | refl => exact h
    | tail _ hstep ih => exact ih.inv hstep
  exact fun u hu hcycle ↦ not_of_acc (hacc u hu).transGen (transGen_swap.mpr hcycle)

/-- A vertex from which no cycle can be reached is accessible. -/
theorem acc_of_from [Finite V] {r : V → V → Prop} {v : V} (h : From r v) :
    Acc (Function.swap r) v := by
  -- the edges between reachable vertices, composed, are a strict order
  let below : V → V → Prop := fun b a ↦ ReflTransGen r v a ∧ TransGen r a b
  have htrans : IsTrans V below :=
    ⟨fun a b c hab hbc ↦ ⟨hbc.1, hbc.2.trans hab.2⟩⟩
  have hirrefl : Std.Irrefl below := ⟨fun a ha ↦ h a ha.1 ha.2⟩
  have hwf : WellFounded below := Finite.wellFounded_of_trans_of_irrefl below
  have hall : ∀ u, ReflTransGen r v u → Acc (Function.swap r) u := by
    intro u
    induction u using hwf.induction with
    | _ u ih =>
        intro hu
        constructor
        intro w hw
        exact ih w ⟨hu, .single hw⟩ (hu.tail hw)
  exact hall v .refl

theorem acc_iff [Finite V] {r : V → V → Prop} {v : V} : Acc (Function.swap r) v ↔ From r v :=
  ⟨from_of_acc, acc_of_from⟩

/-! ## Exploring with fuel -/

/-- A property that more fuel keeps holds of all members of a list with the same fuel. -/
theorem exists_fuel {P : Nat → α → Prop} (hP : ∀ n a, P n a → P (n + 1) a) {l : List α}
    (h : ∀ a ∈ l, ∃ n, P n a) : ∃ n, ∀ a ∈ l, P n a := by
  have hmore : ∀ {n m a}, n ≤ m → P n a → P m a := by
    intro n m a hle hn
    induction hle with
    | refl => exact hn
    | step _ ih => exact hP _ _ ih
  induction l with
  | nil => exact ⟨0, nofun⟩
  | cons a l ih =>
      rcases h a List.mem_cons_self with ⟨n, hn⟩
      rcases ih fun b hb ↦ h b (List.mem_cons_of_mem _ hb) with ⟨m, hm⟩
      refine ⟨max n m, fun b hb ↦ ?_⟩
      rcases List.mem_cons.mp hb with rfl | hb
      · exact hmore (Nat.le_max_left n m) hn
      · exact hmore (Nat.le_max_right n m) (hm b hb)

theorem mapM_isSome {f : α → Option β} {l : List α} :
    (l.mapM f).isSome = true ↔ ∀ a ∈ l, (f a).isSome = true := by
  induction l with
  | nil => simp
  | cons a l ih =>
      rw [List.mapM_cons, List.forall_mem_cons, ← ih]
      cases f a <;> cases l.mapM f <;> simp

theorem mapM_eq_some {f : α → Option β} {l : List α} {l' : List β} :
    l.mapM f = some l' ↔ List.Forall₂ (fun a b ↦ f a = some b) l l' := by
  induction l generalizing l' with
  | nil =>
      rw [List.forall₂_nil_left_iff]
      simp [eq_comm]
  | cons a l ih =>
      rw [List.mapM_cons, List.forall₂_cons_left_iff]
      simp only [← ih]
      cases f a <;> cases l.mapM f <;> simp [eq_comm]

end Acyclic
