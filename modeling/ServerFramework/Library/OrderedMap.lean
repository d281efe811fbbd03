import Mathlib.Data.List.Basic
import Mathlib.Data.List.Pairwise
import Mathlib.Order.Lattice

/-!
# Ordered maps

Association lists in strictly ascending order of their keys, with what an iterator over them needs:
the first key, and the key after a given one.
-/

structure OrderedMap (K V : Type*) [LinearOrder K] where
  entries : List (K × V)
  sorted : entries.Pairwise fun x y ↦ x.1 < y.1

namespace OrderedMap

variable {K V : Type*} [LinearOrder K]

/-- Puts an entry at its place, over one with the same key. -/
def setEntry (k : K) (v : V) : List (K × V) → List (K × V)
  | [] => [(k, v)]
  | e :: l =>
    if k < e.1 then (k, v) :: e :: l else if k = e.1 then (k, v) :: l else e :: setEntry k v l

theorem mem_setEntry {k : K} {v : V} {l : List (K × V)} {x : K × V} (h : x ∈ setEntry k v l) :
    x = (k, v) ∨ x ∈ l := by
  induction l with
  | nil => exact .inl (List.mem_singleton.mp h)
  | cons e l ih =>
      rw [setEntry] at h
      split at h
      · exact List.mem_cons.mp h
      · split at h
        · exact (List.mem_cons.mp h).imp_right (List.mem_cons_of_mem _)
        · rcases List.mem_cons.mp h with rfl | h
          · exact .inr List.mem_cons_self
          · exact (ih h).imp_right (List.mem_cons_of_mem _)

theorem sorted_setEntry {k : K} {v : V} {l : List (K × V)}
    (h : l.Pairwise fun x y ↦ x.1 < y.1) : (setEntry k v l).Pairwise fun x y ↦ x.1 < y.1 := by
  induction l with
  | nil => exact List.pairwise_singleton _ _
  | cons e l ih =>
      obtain ⟨hhead, htail⟩ := List.pairwise_cons.mp h
      rw [setEntry]
      split
      · rename_i hlt
        refine List.pairwise_cons.mpr ⟨fun x hx ↦ ?_, h⟩
        rcases List.mem_cons.mp hx with rfl | hx
        · exact hlt
        · exact hlt.trans (hhead x hx)
      · rename_i hge
        split
        · rename_i heq
          subst heq
          exact List.pairwise_cons.mpr ⟨hhead, htail⟩
        · rename_i hne
          refine List.pairwise_cons.mpr ⟨fun x hx ↦ ?_, ih htail⟩
          rcases mem_setEntry hx with rfl | hx
          · exact lt_of_le_of_ne (not_lt.mp hge) (Ne.symm hne)
          · exact hhead x hx

def empty : OrderedMap K V := ⟨[], .nil⟩

def keys (m : OrderedMap K V) : List K := m.entries.map Prod.fst

def find (m : OrderedMap K V) (k : K) : Option V := m.entries.lookup k

def set (m : OrderedMap K V) (k : K) (v : V) : OrderedMap K V :=
  ⟨setEntry k v m.entries, sorted_setEntry m.sorted⟩

def erase (m : OrderedMap K V) (k : K) : OrderedMap K V :=
  ⟨m.entries.filter fun x ↦ x.1 ≠ k, m.sorted.filter _⟩

/-- The key of the first entry. -/
def first (m : OrderedMap K V) : Option K := m.keys.head?

/-- The key of the entry after that of `k`. -/
def next (m : OrderedMap K V) (k : K) : Option K := m.keys.find? fun k' ↦ decide (k < k')

variable {m : OrderedMap K V} {k k' : K} {v : V}

@[simp] theorem find_empty : (empty : OrderedMap K V).find k = none := rfl

theorem keys_sorted : m.keys.Pairwise (· < ·) := List.pairwise_map.mpr m.sorted

theorem keys_nodup : m.keys.Nodup := m.keys_sorted.imp fun h ↦ h.ne

@[simp] theorem find_set_self : (m.set k v).find k = some v := by
  obtain ⟨l, hl⟩ := m
  show (setEntry k v l).lookup k = some v
  induction l with
  | nil => exact List.lookup_cons_self
  | cons e l ih =>
      rw [setEntry]
      split
      · exact List.lookup_cons_self
      · split
        · exact List.lookup_cons_self
        · rename_i hne
          rw [List.lookup_cons, beq_false_of_ne hne]
          exact ih (List.pairwise_cons.mp hl).2

theorem find_set_ne (h : k' ≠ k) : (m.set k v).find k' = m.find k' := by
  obtain ⟨l, hl⟩ := m
  show (setEntry k v l).lookup k' = l.lookup k'
  induction l with
  | nil =>
      show List.lookup k' [(k, v)] = none
      rw [List.lookup_cons, beq_false_of_ne h]
      rfl
  | cons e l ih =>
      rw [setEntry]
      split
      · rw [List.lookup_cons, beq_false_of_ne h]
      · split
        · rename_i heq
          subst heq
          rw [List.lookup_cons, List.lookup_cons, beq_false_of_ne h]
        · rw [List.lookup_cons, List.lookup_cons, ih (List.pairwise_cons.mp hl).2]

theorem find_of_mem (h : (k, v) ∈ m.entries) : m.find k = some v := by
  obtain ⟨l, hl⟩ := m
  show l.lookup k = some v
  induction l with
  | nil => cases h
  | cons e l ih =>
      obtain ⟨hhead, htail⟩ := List.pairwise_cons.mp hl
      rcases List.mem_cons.mp h with rfl | h
      · exact List.lookup_cons_self
      · rw [List.lookup_cons, beq_false_of_ne (hhead _ h).ne']
        exact ih htail h

theorem mem_keys_erase : k' ∈ (m.erase k).keys ↔ k' ∈ m.keys ∧ k' ≠ k := by
  show k' ∈ (m.entries.filter fun x ↦ x.1 ≠ k).map Prod.fst ↔ k' ∈ m.entries.map Prod.fst ∧ k' ≠ k
  rw [List.mem_map, List.mem_map]
  constructor
  · rintro ⟨e, he, rfl⟩
    obtain ⟨he, hne⟩ := List.mem_filter.mp he
    exact ⟨⟨e, he, rfl⟩, of_decide_eq_true hne⟩
  · rintro ⟨⟨e, he, rfl⟩, hne⟩
    exact ⟨e, List.mem_filter.mpr ⟨he, decide_eq_true hne⟩, rfl⟩

theorem keys_of_entries {m : OrderedMap K V} {pre post : List (K × V)} {e : K × V}
    (h : m.entries = pre ++ e :: post) : m.keys = pre.map Prod.fst ++ e.1 :: post.map Prod.fst := by
  rw [keys, h, List.map_append, List.map_cons]

/-- The iterator goes through the entries in their order. -/
theorem next_eq {pre post : List K} (h : m.keys = pre ++ k :: post) : m.next k = post.head? := by
  have hsorted := m.keys_sorted
  rw [h, List.pairwise_append, List.pairwise_cons] at hsorted
  obtain ⟨-, ⟨hpost, -⟩, hpre⟩ := hsorted
  have hnone : pre.find? (fun k' ↦ decide (k < k')) = none := by
    rw [List.find?_eq_none]
    intro x hx
    rw [decide_eq_true_iff, not_lt]
    exact (hpre x hx k List.mem_cons_self).le
  rw [next, h, List.find?_append, hnone, Option.none_or, List.find?_cons_of_neg (by simp)]
  cases post with
  | nil => rfl
  | cons x post =>
      exact List.find?_cons_of_pos (decide_eq_true (hpost x List.mem_cons_self))

end OrderedMap
