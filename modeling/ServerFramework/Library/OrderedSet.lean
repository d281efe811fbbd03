import Mathlib.Data.List.Basic

/-!
# Ordered sets as sorted lists

Insertion by an order given as a test, which keeps the element that is there when neither of two
elements comes before the other.
-/

namespace OrderedSet

variable {α : Type*} (lt : α → α → Bool)

/-- Inserts an element before the first one it comes before, unless an equivalent one is there. -/
def insert (x : α) : List α → List α
  | [] => [x]
  | y :: l => if lt x y then x :: y :: l else if lt y x then y :: insert x l else y :: l

/-- The set of the elements of a list. -/
def ofList (l : List α) : List α := l.foldl (fun s x ↦ insert lt x s) []

/-- The order of the two arguments is the order of the list. -/
def Sorted (l : List α) : Prop := l.Pairwise fun x y ↦ lt x y = true ∧ lt y x = false

variable {lt} {l : List α} {x y : α}

theorem insert_last (h : ∀ y ∈ l, lt y x = true ∧ lt x y = false) : insert lt x l = l ++ [x] := by
  induction l with
  | nil => rfl
  | cons y l ih =>
      obtain ⟨hyx, hxy⟩ := h y List.mem_cons_self
      rw [insert, if_neg (by rw [hxy]; exact Bool.false_ne_true), if_pos hyx,
        ih fun z hz ↦ h z (List.mem_cons_of_mem _ hz)]
      rfl

theorem foldl_insert {s : List α} (h : Sorted lt (s ++ l)) :
    l.foldl (fun s x ↦ insert lt x s) s = s ++ l := by
  induction l generalizing s with
  | nil => exact (List.append_nil s).symm
  | cons x l ih =>
      have hlast : ∀ y ∈ s, lt y x = true ∧ lt x y = false := fun y hy ↦
        (List.pairwise_append.mp h).2.2 y hy x List.mem_cons_self
      have hcons : s ++ x :: l = (s ++ [x]) ++ l := by
        rw [List.append_assoc, List.singleton_append]
      rw [hcons] at h ⊢
      rw [List.foldl_cons, insert_last hlast, ih h]

/-- A list in order is the set of its elements. -/
theorem ofList_of_sorted (h : Sorted lt l) : ofList lt l = l := foldl_insert (s := []) h

theorem mem_insert (h : y ∈ insert lt x l) : y = x ∨ y ∈ l := by
  induction l with
  | nil => exact .inl (List.mem_singleton.mp h)
  | cons z l ih =>
      rw [insert] at h
      split at h
      · exact List.mem_cons.mp h
      · split at h
        · rcases List.mem_cons.mp h with rfl | h
          · exact .inr List.mem_cons_self
          · exact (ih h).imp_right (List.mem_cons_of_mem _)
        · exact .inr h

theorem mem_foldl_insert {s : List α} (h : y ∈ l.foldl (fun s x ↦ insert lt x s) s) :
    y ∈ s ∨ y ∈ l := by
  induction l generalizing s with
  | nil => exact .inl h
  | cons x l ih =>
      rcases ih h with hs | hl
      · rcases mem_insert hs with rfl | hs
        · exact .inr List.mem_cons_self
        · exact .inl hs
      · exact .inr (List.mem_cons_of_mem _ hl)

theorem mem_ofList (h : y ∈ ofList lt l) : y ∈ l :=
  (mem_foldl_insert h).resolve_left List.not_mem_nil

end OrderedSet
