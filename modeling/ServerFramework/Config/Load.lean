import ServerFramework.Config.Manager
import ServerFramework.Library.Document

/-!
# `ConfigMgr::loadFromYaml`

The tree is listed with the path of each node, and each node is offered to the argument of its path,
whose converter may refuse it.
-/

namespace Server.Config

open Document

/-- `key.empty() ? k : key + '.' + k` -/
def path (key k : String) : String := if key.isEmpty then k else key ++ "." ++ k

mutual

def listAllMember (key : String) : Node → List (String × Node)
  | .map entries =>
    if validKey key then (key, .map entries) :: listEntries key entries else []
  | node => if validKey key then [(key, node)] else []

/-- The loop of `listAllMember`. -/
def listEntries (key : String) : List (String × Node) → List (String × Node)
  | [] => []
  | e :: entries => listEntry key e ++ listEntries key entries

def listEntry (key : String) : String × Node → List (String × Node)
  | (k, v) => listAllMember (path key k) v

end

section

variable {T : String → Type} [∀ n, DecidableEq (T n)]

/-- The values of the arguments by their names; an argument that is not registered is `none`. -/
abbrev Registry (T : String → Type) := ∀ n : String, Option (T n)

/-- `ConfigArg::setValue` without listeners. -/
def setValue (s : Registry T) (n : String) (old val : T n) : Registry T :=
  if old = val then s else Function.update s n (some val)

/-- `lookUpBase` and `ConfigArg::fromString`; a converter that throws is `none`. -/
def fromString (fromStr : ∀ n, String → Option (T n)) (s : Registry T) (n text : String) :
    Registry T :=
  match s n with
  | none => s
  | some old =>
    match fromStr n text with
    | none => s
    | some val => setValue s n old val

/-- The text that a node is converted from. -/
def textOf (emit : Node → String) : Node → String
  | .scalar text => text
  | node => emit node

/-- One iteration of the loop of `loadFromYaml`. -/
def offer (emit : Node → String) (fromStr : ∀ n, String → Option (T n)) (s : Registry T)
    (i : String × Node) : Registry T :=
  if i.1.isEmpty then s else fromString fromStr s (tolower i.1) (textOf emit i.2)

def loadFromYaml (emit : Node → String) (fromStr : ∀ n, String → Option (T n)) (s : Registry T)
    (root : Node) : Registry T :=
  (listAllMember "" root).foldl (offer emit fromStr) s

end

/-! ## What is listed -/

/-- The node at a position is reached through entries whose accumulated paths are all valid. -/
inductive Reaches : String → Node → List Nat → String × Node → Prop where
  | here {key : String} {n : Node} : validKey key = true → Reaches key n [] (key, n)
  | entry {key k : String} {entries : List (String × Node)} {i : Nat} {v : Node} {pos : List Nat}
      {x : String × Node} :
      validKey key = true → entries[i]? = some (k, v) → Reaches (path key k) v pos x →
      Reaches key (.map entries) (i :: pos) x

theorem Reaches.valid {key : String} {n : Node} {pos : List Nat} {x : String × Node}
    (h : Reaches key n pos x) : validKey key = true ∧ validKey x.1 = true := by
  induction h with
  | here hvalid => exact ⟨hvalid, hvalid⟩
  | entry hvalid _ _ ih => exact ⟨hvalid, ih.2⟩

/-- The positions that a list of nodes comes from, in pre-order. -/
structure Positions (l : List (List Nat × String × Node)) (nodes : List (String × Node))
    (R : List Nat → String × Node → Prop) : Prop where
  nodes : l.map Prod.snd = nodes
  sorted : l.Pairwise fun x y ↦ x.1 < y.1
  mem : ∀ pos x, (pos, x) ∈ l ↔ R pos x

/-- What is listed for the entries, where the first one is the one at `i`. -/
def EntryReaches (key : String) (entries : List (String × Node)) (i : Nat) (pos : List Nat)
    (x : String × Node) : Prop :=
  ∃ j k v rest, pos = (i + j) :: rest ∧ entries[j]? = some (k, v) ∧ Reaches (path key k) v rest x

theorem positions_entries (key : String) {entries : List (String × Node)}
    (h : ∀ e ∈ entries, ∀ key, ∃ l, Positions l (listAllMember key e.2) (Reaches key e.2)) (i : Nat) :
    ∃ l, Positions l (listEntries key entries) (EntryReaches key entries i) := by
  induction entries generalizing i with
  | nil =>
      refine ⟨[], rfl, .nil, fun pos x ↦ ⟨nofun, ?_⟩⟩
      rintro ⟨j, k, v, rest, -, hj, -⟩
      cases hj
  | cons e entries ih =>
      obtain ⟨k, v⟩ := e
      obtain ⟨l, hl⟩ := h (k, v) List.mem_cons_self (path key k)
      obtain ⟨l', hl'⟩ := ih (fun e he ↦ h e (List.mem_cons_of_mem _ he)) (i + 1)
      -- the positions of the first entry get its index in front
      refine ⟨l.map (fun x ↦ (i :: x.1, x.2)) ++ l', ?_, ?_, fun pos x ↦ ?_⟩
      · rw [List.map_append, List.map_map, hl'.nodes]
        show l.map Prod.snd ++ _ = listEntry key (k, v) ++ _
        rw [hl.nodes]
        rfl
      · rw [List.pairwise_append, List.pairwise_map]
        refine ⟨hl.sorted.imp fun hlt ↦ ?_, hl'.sorted, fun x hx y hy ↦ ?_⟩
        · exact List.cons_lt_cons_iff.mpr (.inr ⟨rfl, hlt⟩)
        · obtain ⟨x', -, rfl⟩ := List.mem_map.mp hx
          obtain ⟨j, -, -, rest, hpos, -, -⟩ := (hl'.mem y.1 y.2).mp hy
          show i :: x'.1 < y.1
          rw [hpos]
          exact List.cons_lt_cons_iff.mpr (.inl (by omega))
      · rw [List.mem_append, hl'.mem, List.mem_map]
        constructor
        · rintro (⟨y, hy, heq⟩ | ⟨j, k', v', rest, hpos, hj, hreach⟩)
          · cases heq
            exact ⟨0, k, v, y.1, rfl, rfl, (hl.mem y.1 y.2).mp hy⟩
          · refine ⟨j + 1, k', v', rest, ?_, hj, hreach⟩
            rw [hpos]
            congr 1
            omega
        · rintro ⟨j, k', v', rest, hpos, hj, hreach⟩
          cases j with
          | zero =>
              cases hj
              exact .inl ⟨(rest, x), (hl.mem rest x).mpr hreach, by rw [hpos]; rfl⟩
          | succ j =>
              refine .inr ⟨j, k', v', rest, ?_, hj, hreach⟩
              rw [hpos]
              congr 1
              omega

theorem positions_invalid {key : String} {n : Node} (h : validKey key = false) :
    Positions [] [] (Reaches key n) := by
  refine ⟨rfl, .nil, fun pos x ↦ ⟨nofun, fun hreach ↦ ?_⟩⟩
  rw [hreach.valid.1] at h
  cases h

theorem positions_leaf {key : String} {n : Node} (h : n.isMap = false) :
    ∃ l, Positions l (if validKey key then [(key, n)] else []) (Reaches key n) := by
  by_cases hvalid : validKey key = true
  · rw [if_pos hvalid]
    refine ⟨[([], key, n)], rfl, List.pairwise_singleton _ _, fun pos x ↦ ?_⟩
    rw [List.mem_singleton]
    constructor
    · intro heq
      cases heq
      exact .here hvalid
    · intro hreach
      cases hreach with
      | here => rfl
      | entry => cases h
  · rw [if_neg hvalid]
    exact ⟨[], positions_invalid (Bool.eq_false_iff.mpr hvalid)⟩

/-- `listAllMember` lists in pre-order the nodes that are reached through valid paths. -/
theorem positions_listAllMember (n : Node) (key : String) :
    ∃ l, Positions l (listAllMember key n) (Reaches key n) := by
  induction n using Node.induct generalizing key with
  | null => exact positions_leaf rfl
  | scalar text => exact positions_leaf rfl
  | seq elements ih => exact positions_leaf rfl
  | map entries ih =>
      rw [listAllMember]
      by_cases hvalid : validKey key = true
      · rw [if_pos hvalid]
        obtain ⟨l, hl⟩ := positions_entries key (fun e he key ↦ ih e he key) 0
        refine ⟨([], key, .map entries) :: l, ?_, ?_, fun pos x ↦ ?_⟩
        · rw [List.map_cons, hl.nodes]
        · refine List.pairwise_cons.mpr ⟨fun x hx ↦ ?_, hl.sorted⟩
          obtain ⟨j, -, -, rest, hpos, -, -⟩ := (hl.mem x.1 x.2).mp hx
          show [] < x.1
          rw [hpos]
          exact List.nil_lt_cons _ _
        · rw [List.mem_cons, hl.mem]
          constructor
          · rintro (heq | ⟨j, k, v, rest, rfl, hj, hreach⟩)
            · cases heq
              exact .here hvalid
            · exact .entry hvalid ((Nat.zero_add j).symm ▸ hj) hreach
          · intro hreach
            cases hreach with
            | here => exact .inl rfl
            | @entry _ k _ i v rest _ _ hi hreach =>
                exact .inr ⟨i, k, v, rest, by rw [Nat.zero_add], hi, hreach⟩
      · rw [if_neg hvalid]
        exact ⟨[], positions_invalid (Bool.eq_false_iff.mpr hvalid)⟩

theorem valid_of_mem_listAllMember {key : String} {n : Node} {x : String × Node}
    (h : x ∈ listAllMember key n) : validKey x.1 = true := by
  obtain ⟨l, hl⟩ := positions_listAllMember n key
  rw [← hl.nodes] at h
  obtain ⟨y, hy, rfl⟩ := List.mem_map.mp h
  exact ((hl.mem y.1 y.2).mp hy).valid.2

/-! ## What the arguments hold afterwards -/

section

variable {T : String → Type} [∀ n, DecidableEq (T n)]
  (emit : Node → String) (fromStr : ∀ n, String → Option (T n))

/-- What the converter of an argument accepts among the nodes that are offered to it. -/
def accepted (n : String) (nodes : List (String × Node)) : List (T n) :=
  nodes.filterMap fun i ↦ if i.1 = n then fromStr n (textOf emit i.2) else none

variable {emit fromStr} {s : Registry T} {n : String}

theorem setValue_self {old val : T n} (h : s n = some old) : setValue s n old val n = some val := by
  unfold setValue
  split
  · rename_i heq
    rw [h, heq]
  · exact Function.update_self _ _ _

theorem setValue_ne {m : String} {old val : T m} (h : n ≠ m) : setValue s m old val n = s n := by
  unfold setValue
  split
  · rfl
  · exact Function.update_of_ne h _ _

theorem fromString_ne {m text : String} (h : n ≠ m) : fromString fromStr s m text n = s n := by
  unfold fromString
  cases s m with
  | none => rfl
  | some old =>
      cases fromStr m text with
      | none => rfl
      | some val => exact setValue_ne h

theorem fromString_self {text : String} :
    fromString fromStr s n text n = (s n).map fun old ↦ (fromStr n text).getD old := by
  unfold fromString
  cases hold : s n with
  | none => exact hold
  | some old =>
      cases fromStr n text with
      | none => exact hold
      | some val => exact setValue_self hold

omit [∀ n, DecidableEq (T n)] in
theorem accepted_self {v : Node} :
    accepted emit fromStr n [(n, v)] = (fromStr n (textOf emit v)).toList := by
  unfold accepted
  rw [List.filterMap_cons, if_pos rfl]
  cases fromStr n (textOf emit v) <;> rfl

omit [∀ n, DecidableEq (T n)] in
theorem accepted_ne {i : String × Node} (h : i.1 ≠ n) : accepted emit fromStr n [i] = [] := by
  unfold accepted
  rw [List.filterMap_cons, if_neg h]
  rfl

theorem offer_apply {i : String × Node} (hvalid : validKey i.1 = true) (hn : n ≠ "") :
    offer emit fromStr s i n =
      (s n).map fun old ↦ ((accepted emit fromStr n [i]).getLast?).getD old := by
  obtain ⟨key, v⟩ := i
  unfold offer
  rw [tolower_of_valid hvalid]
  by_cases hkey : key = n
  · -- the argument of the node's own path
    subst hkey
    have hne : ¬ key.isEmpty = true := mt String.isEmpty_iff.mp hn
    rw [if_neg hne, fromString_self, accepted_self]
    cases fromStr key (textOf emit v) <;> rfl
  · rw [accepted_ne hkey]
    refine Eq.trans ?_ Option.map_id'.symm
    split
    · rfl
    · exact fromString_ne fun heq ↦ hkey heq.symm

theorem foldl_offer {nodes : List (String × Node)} (hvalid : ∀ i ∈ nodes, validKey i.1 = true)
    (hn : n ≠ "") :
    nodes.foldl (offer emit fromStr) s n =
      (s n).map fun old ↦ ((accepted emit fromStr n nodes).getLast?).getD old := by
  induction nodes generalizing s with
  | nil => exact Option.map_id'.symm
  | cons i nodes ih =>
      have hcons : accepted emit fromStr n (i :: nodes) =
          accepted emit fromStr n [i] ++ accepted emit fromStr n nodes := by
        unfold accepted
        rw [← List.filterMap_append, List.singleton_append]
      rw [List.foldl_cons, ih fun j hj ↦ hvalid j (List.mem_cons_of_mem _ hj),
        offer_apply (hvalid i List.mem_cons_self) hn, hcons, List.getLast?_append, Option.map_map]
      congr 1
      funext old
      -- what a later node gives comes before what this one gives
      show ((accepted emit fromStr n nodes).getLast?).getD _ = _
      cases (accepted emit fromStr n nodes).getLast? <;> rfl

theorem foldl_offer_empty {nodes : List (String × Node)}
    (hvalid : ∀ i ∈ nodes, validKey i.1 = true) : nodes.foldl (offer emit fromStr) s "" = s "" := by
  induction nodes generalizing s with
  | nil => rfl
  | cons i nodes ih =>
      rw [List.foldl_cons, ih fun j hj ↦ hvalid j (List.mem_cons_of_mem _ hj)]
      unfold offer
      rw [tolower_of_valid (hvalid i List.mem_cons_self)]
      split
      · rfl
      · rename_i hne
        refine fromString_ne fun heq ↦ hne ?_
        rw [← heq]
        rfl

variable (emit fromStr)

/-- `loadFromYaml` offers the nodes that are reached through valid paths, in pre-order; each argument
ends with the last one of its name that it accepts, and the others stay as they are. -/
theorem loadFromYaml_meaning (s : Registry T) (root : Node) :
    ∃ l, Positions l (listAllMember "" root) (Reaches "" root) ∧
      (∀ n, n ≠ "" → loadFromYaml emit fromStr s root n =
        (s n).map fun old ↦
          ((accepted emit fromStr n (l.map Prod.snd)).getLast?).getD old) ∧
      loadFromYaml emit fromStr s root "" = s "" := by
  obtain ⟨l, hl⟩ := positions_listAllMember root ""
  have hvalid : ∀ i ∈ listAllMember "" root, validKey i.1 = true := fun i hi ↦
    valid_of_mem_listAllMember hi
  refine ⟨l, hl, fun n hn ↦ ?_, foldl_offer_empty hvalid⟩
  rw [hl.nodes]
  exact foldl_offer hvalid hn

end

end Server.Config
