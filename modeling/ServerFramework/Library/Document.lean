import Mathlib.Data.List.Basic

/-!
# Document trees

Trees of text scalars, sequences and maps with ordered keys, as a configuration parser returns them
and an emitter takes them.
-/

namespace Document

inductive Node where
  | null
  | scalar (text : String)
  | seq (elements : List Node)
  | map (entries : List (String × Node))

inductive Error where
  | badSubscript
  | badConversion
  deriving DecidableEq, Repr

/-- Replaces the entry of a key, or adds one behind the others. -/
def setEntry (key : String) (value : Node) : List (String × Node) → List (String × Node)
  | [] => [(key, value)]
  | (k, v) :: entries =>
    if key == k then (key, value) :: entries else (k, v) :: setEntry key value entries

namespace Node

def get? : Node → String → Option Node
  | .map entries, key => entries.lookup key
  | _, _ => none

/-- Sets the value of a key; what is not a map becomes one. -/
def set (n : Node) (key : String) (value : Node) : Node :=
  match n with
  | .map entries => .map (setEntry key value entries)
  | _ => .map [(key, value)]

/-- Adds an element; what is not a sequence becomes one. -/
def push (n value : Node) : Node :=
  match n with
  | .seq elements => .seq (elements ++ [value])
  | _ => .seq [value]

/-- The value of a key, if it is defined. -/
def subscript (n : Node) (key : String) : Except Error (Option Node) :=
  match n with
  | .scalar _ => .error .badSubscript
  | n => .ok (n.get? key)

def asString : Node → Except Error String
  | .scalar text => .ok text
  | .null => .ok "null"
  | _ => .error .badConversion

/-- What the indices below the size of a node find. -/
def elements : Node → List Node
  | .seq elements => elements
  | .map entries => (List.range entries.length).filterMap fun x ↦ entries.lookup (toString x)
  | _ => []

/-- The same with a place for each index; an undefined node is `none`. -/
def items : Node → List (Option Node)
  | .seq elements => elements.map some
  | .map entries => (List.range entries.length).map fun x ↦ entries.lookup (toString x)
  | _ => []

/-- The texts of the items; an undefined node is emitted as nothing. -/
def itemTexts (emit : Node → String) (n : Node) : List String :=
  n.items.map fun i ↦ (i.map emit).getD ""

/-- The keys and values that an iteration finds; the elements of a sequence have no keys. -/
def pairs : Node → Option (List (String × Node))
  | .map entries => some entries
  | .seq (_ :: _) => none
  | _ => some []

def isMap : Node → Bool
  | .map _ => true
  | _ => false

end Node

/-! ## The keys of a tree -/

mutual

/-- Renames every key of a tree. -/
def Node.mapKeys (f : String → String) : Node → Node
  | .null => .null
  | .scalar text => .scalar text
  | .seq elements => .seq (mapElements f elements)
  | .map entries => .map (mapEntries f entries)

def mapElements (f : String → String) : List Node → List Node
  | [] => []
  | n :: elements => n.mapKeys f :: mapElements f elements

def mapEntries (f : String → String) : List (String × Node) → List (String × Node)
  | [] => []
  | e :: entries => mapEntry f e :: mapEntries f entries

def mapEntry (f : String → String) : String × Node → String × Node
  | (k, v) => (f k, v.mapKeys f)

end

/-- Every key of the tree, at any depth, has the property. -/
inductive Node.AllKeys (P : String → Prop) : Node → Prop where
  | null : AllKeys P .null
  | scalar (text : String) : AllKeys P (.scalar text)
  | seq {elements : List Node} : (∀ n ∈ elements, AllKeys P n) → AllKeys P (.seq elements)
  | map {entries : List (String × Node)} : (∀ e ∈ entries, P e.1) →
      (∀ e ∈ entries, AllKeys P e.2) → AllKeys P (.map entries)

/-- Induction on a tree: over the elements of a sequence and the values of a map. -/
theorem Node.induct {P : Node → Prop} (null : P .null) (scalar : ∀ text, P (.scalar text))
    (seq : ∀ elements, (∀ n ∈ elements, P n) → P (.seq elements))
    (map : ∀ entries, (∀ e ∈ entries, P e.2) → P (.map entries)) (n : Node) : P n :=
  @Node.rec P (fun elements ↦ ∀ n ∈ elements, P n) (fun entries ↦ ∀ e ∈ entries, P e.2)
    (fun e ↦ P e.2)
    null scalar seq map nofun
    (fun _ _ hn hs m hm ↦ (List.mem_cons.mp hm).elim (fun h ↦ h ▸ hn) (hs m)) nofun
    (fun _ _ he hs m hm ↦ (List.mem_cons.mp hm).elim (fun h ↦ h ▸ he) (hs m)) (fun _ _ hv ↦ hv) n

variable {n value : Node} {key key' : String} {entries : List (String × Node)}

theorem lookup_setEntry_self : (setEntry key value entries).lookup key = some value := by
  induction entries with
  | nil => rw [setEntry, List.lookup_cons_self]
  | cons e entries ih =>
      unfold setEntry
      split
      · exact List.lookup_cons_self
      · rename_i hne
        rw [List.lookup_cons, Bool.eq_false_iff.mpr hne]
        exact ih

theorem lookup_setEntry_ne (hne : key' ≠ key) :
    (setEntry key value entries).lookup key' = entries.lookup key' := by
  have hkey : (key' == key) = false := beq_eq_false_iff_ne.mpr hne
  induction entries with
  | nil => rw [setEntry, List.lookup_cons, hkey]
  | cons e entries ih =>
      unfold setEntry
      split
      · rename_i heq
        rw [List.lookup_cons, List.lookup_cons, hkey, ← beq_iff_eq.mp heq, hkey]
      · rw [List.lookup_cons, List.lookup_cons, ih]

theorem setEntry_of_not_mem (h : key ∉ entries.map Prod.fst) :
    setEntry key value entries = entries ++ [(key, value)] := by
  induction entries with
  | nil => rfl
  | cons e entries ih =>
      rw [List.map_cons, List.mem_cons, not_or] at h
      rw [setEntry, if_neg (mt beq_iff_eq.mp h.1), ih h.2]
      rfl

/-- With distinct keys, every entry is found. -/
theorem lookup_of_mem (hkeys : (entries.map Prod.fst).Nodup) (h : (key, value) ∈ entries) :
    entries.lookup key = some value := by
  induction entries with
  | nil => cases h
  | cons e entries ih =>
      obtain ⟨k, v⟩ := e
      rw [List.map_cons, List.nodup_cons] at hkeys
      rcases List.mem_cons.mp h with heq | h
      · cases heq
        exact List.lookup_cons_self
      · have hmem : key ∈ entries.map Prod.fst := List.mem_map.mpr ⟨_, h, rfl⟩
        have hne : (key == k) = false :=
          beq_eq_false_iff_ne.mpr fun hk ↦ hkeys.1 (hk ▸ hmem)
        rw [List.lookup_cons, hne]
        exact ih hkeys.2 h

namespace Node

@[simp]
theorem isMap_set : (n.set key value).isMap = true := by
  cases n <;> rfl

@[simp]
theorem get?_set_self : (n.set key value).get? key = some value := by
  cases n with
  | map entries => exact lookup_setEntry_self
  | _ => exact List.lookup_cons_self

theorem get?_set_ne (hne : key' ≠ key) : (n.set key value).get? key' = n.get? key' := by
  have hkey : (key' == key) = false := beq_eq_false_iff_ne.mpr hne
  cases n with
  | map entries => exact lookup_setEntry_ne hne
  | _ =>
      show List.lookup key' [(key, value)] = none
      rw [List.lookup_cons, hkey]
      rfl

theorem itemTexts_seq (emit : Node → String) (elements : List Node) :
    (Node.seq elements).itemTexts emit = elements.map emit := by
  unfold itemTexts items
  rw [List.map_map]
  rfl

theorem subscript_of_isMap (h : n.isMap = true) : n.subscript key = .ok (n.get? key) := by
  cases n with
  | map => rfl
  | _ => cases h

end Node

/-! ## Renaming keys -/

namespace Node

variable {f : String → String} {elements : List Node}

theorem map_eq_self_iff {α : Type} {g : α → α} {l : List α} : l.map g = l ↔ ∀ x ∈ l, g x = x := by
  have hid := List.map_inj_left (l := l) (f := g) (g := id)
  rwa [List.map_id] at hid

theorem mapElements_eq : mapElements f elements = elements.map (mapKeys f) := by
  induction elements with
  | nil => rfl
  | cons n elements ih => rw [mapElements, ih, List.map_cons]

theorem mapEntries_eq : mapEntries f entries = entries.map fun e ↦ (f e.1, e.2.mapKeys f) := by
  induction entries with
  | nil => rfl
  | cons e entries ih => rw [mapEntries, ih, List.map_cons, mapEntry]

@[simp] theorem mapKeys_seq : (seq elements).mapKeys f = seq (elements.map (mapKeys f)) := by
  rw [mapKeys, mapElements_eq]

@[simp] theorem mapKeys_map :
    (map entries).mapKeys f = map (entries.map fun e ↦ (f e.1, e.2.mapKeys f)) := by
  rw [mapKeys, mapEntries_eq]

@[simp] theorem isMap_mapKeys : (n.mapKeys f).isMap = n.isMap := by
  cases n <;> simp [isMap, mapKeys]

/-- A renaming keeps a tree exactly when it keeps each of its keys. -/
theorem mapKeys_eq_self_iff : n.mapKeys f = n ↔ n.AllKeys fun k ↦ f k = k := by
  induction n using Node.induct with
  | null => exact ⟨fun _ ↦ .null, fun _ ↦ rfl⟩
  | scalar text => exact ⟨fun _ ↦ .scalar text, fun _ ↦ rfl⟩
  | seq elements ih =>
      rw [mapKeys_seq, seq.injEq, map_eq_self_iff]
      constructor
      · intro h
        exact .seq fun n hn ↦ (ih n hn).mp (h n hn)
      · intro h n hn
        cases h with
        | seq h => exact (ih n hn).mpr (h n hn)
  | map entries ih =>
      rw [mapKeys_map, map.injEq, map_eq_self_iff]
      constructor
      · intro h
        exact .map (fun e he ↦ congrArg Prod.fst (h e he))
          fun e he ↦ (ih e he).mp (congrArg Prod.snd (h e he))
      · intro h e he
        cases h with
        | map hkeys hvalues => exact Prod.ext (hkeys e he) ((ih e he).mpr (hvalues e he))

end Node

end Document
