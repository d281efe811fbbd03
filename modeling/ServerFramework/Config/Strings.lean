import ServerFramework.Config.Containers

/-!
# Containers of strings

Where the elements are strings, their own cast leaves them as they are: a printer takes the string
for a YAML document and a parser takes the document that the emitter makes of an element for the
string.
-/

namespace Server.Config

open Document Document.Node

/-- The containers with `std::string` for the leaf of `Ty`. -/
inductive StringContainer where
  | vector
  | list
  | set
  | unorderedSet
  | map
  | unorderedMap
  deriving DecidableEq, Repr

namespace StringContainer

@[reducible]
def ty : StringContainer → Ty
  | vector => .vector .int
  | list => .list .int
  | set => .set .int
  | unorderedSet => .unorderedSet .int
  | map => .map .int
  | unorderedMap => .unorderedMap .int

/-- The strings that are loaded: the elements, or the values of a map. -/
def texts : (c : StringContainer) → c.ty.Carrier String → List String
  | vector, v => v
  | list, v => v
  | set, v => v
  | unorderedSet, v => v
  | map, v => v.map Prod.snd
  | unorderedMap, v => v.map Prod.snd

/-- The node of a string. -/
def nodeOf (load : String → Option Node) (text : String) : Node := (load text).getD .null

/-- The node that the printer of the container ends with. -/
def node (load : String → Option Node) : (c : StringContainer) → c.ty.Carrier String → Node
  | vector, v => .seq (v.map (nodeOf load))
  | list, v => .seq (v.map (nodeOf load))
  | set, v => .seq (v.map (nodeOf load))
  | unorderedSet, v => .seq (v.map (nodeOf load))
  | map, v => mapNode (v.map fun e ↦ (e.1, nodeOf load e.2))
  | unorderedMap, v => mapNode (v.map fun e ↦ (e.1, nodeOf load e.2))

/-- That node, and those of the strings in it. -/
def nodes (load : String → Option Node) (c : StringContainer) (v : c.ty.Carrier String) : List Node :=
  c.node load v :: (c.texts v).map (nodeOf load)

end StringContainer

open StringContainer

/-- Parsing what was printed gives an equal container; `lexical_cast` between strings is the
identity. -/
def RoundTrips (emit : Node → String) (load : String → Option Node)
    (arrange : ∀ {α : Type}, List α → List α) (c : StringContainer) (v : c.ty.Carrier String) : Prop :=
  ∃ text v', toStr emit load id c.ty v = some text ∧
    fromStr emit load some arrange c.ty text = some v' ∧ beq c.ty v' v = true

/-- The string is a document, and the emitter prints this document as the same string. -/
def Printed (emit : Node → String) (load : String → Option Node) (text : String) : Prop :=
  ∃ n, load text = some n ∧ emit n = text

/-! ## Comparing containers -/

section

variable {α : Type} {same : α → α → Bool} {l v w : List α}

theorem listBeq_iff (hsame : ∀ x y, same x y = true ↔ x = y) : listBeq same l v = true ↔ l = v := by
  induction l generalizing v with
  | nil => cases v <;> simp [listBeq]
  | cons x l ih =>
      cases v with
      | nil => simp [listBeq]
      | cons y v => simp [listBeq, hsame, ih]

theorem pairBeq_iff (hsame : ∀ x y, same x y = true ↔ x = y) (e d : String × α) :
    pairBeq same e d = true ↔ e = d := by
  rw [pairBeq, Bool.and_eq_true, beq_iff_eq, hsame]
  exact Prod.ext_iff.symm

theorem unorderedBeq_self (hsame : ∀ x y, same x y = true ↔ x = y) (h : w.Perm v) :
    unorderedBeq same w v = true := by
  rw [unorderedBeq, Bool.and_eq_true, beq_iff_eq, List.all_eq_true]
  refine ⟨h.length_eq, fun x hx ↦ ?_⟩
  exact List.any_eq_true.mpr ⟨x, h.mem_iff.mp hx, (hsame x x).mpr rfl⟩

theorem mem_of_unorderedBeq (hsame : ∀ x y, same x y = true ↔ x = y)
    (h : unorderedBeq same w v = true) : w.length = v.length ∧ ∀ x ∈ w, x ∈ v := by
  rw [unorderedBeq, Bool.and_eq_true, beq_iff_eq, List.all_eq_true] at h
  refine ⟨h.1, fun x hx ↦ ?_⟩
  rcases List.any_eq_true.mp (h.2 x hx) with ⟨y, hy, hxy⟩
  rw [(hsame x y).mp hxy]
  exact hy

/-- What is inserted comes from the list, and once. -/
theorem foldl_insertUnordered_subset (hsame : ∀ x y, same x y = true ↔ x = y) {s : List α}
    (hs : s.Nodup) : (l.foldl (insertUnordered same) s).Nodup ∧
      ∀ x ∈ l.foldl (insertUnordered same) s, x ∈ s ∨ x ∈ l := by
  induction l generalizing s with
  | nil => exact ⟨hs, fun x hx ↦ .inl hx⟩
  | cons y l ih =>
      have hnext : (insertUnordered same s y).Nodup ∧
          ∀ x ∈ insertUnordered same s y, x ∈ s ∨ x = y := by
        rw [insertUnordered]
        split
        · exact ⟨hs, fun x hx ↦ .inl hx⟩
        · rename_i hnew
          constructor
          · apply List.nodup_append.mpr
            refine ⟨hs, List.nodup_singleton y, fun x hx z hz heq ↦ hnew ?_⟩
            rw [List.mem_singleton.mp hz] at heq
            exact List.any_eq_true.mpr ⟨x, hx, (hsame x y).mpr heq⟩
          · simp
      have hrest := ih hnext.1
      refine ⟨hrest.1, fun x hx ↦ ?_⟩
      rcases hrest.2 x hx with hin | hin
      · rcases hnext.2 x hin with hin | rfl
        · exact .inl hin
        · exact .inr List.mem_cons_self
      · exact .inr (List.mem_cons_of_mem _ hin)

/-- A renaming that does nothing the second time and reaches every element does nothing. -/
theorem fixed_of_surjective {f : α → α} (hidem : ∀ x ∈ v, f (f x) = f x)
    (h : ∀ y ∈ v, y ∈ v.map f) : ∀ x ∈ v, f x = x := by
  intro x hx
  rcases List.mem_map.mp (h x hx) with ⟨y, hy, rfl⟩
  exact hidem y hy

end

/-! ## Printing and parsing -/

theorem foldlM_eq_none {α β : Type} {step : β → α → Option β} {l : List α}
    (h : ∃ x ∈ l, ∀ b, step b x = none) (b : β) : l.foldlM step b = none := by
  induction l generalizing b with
  | nil =>
      rcases h with ⟨x, hx, -⟩
      cases hx
  | cons y l ih =>
      rw [List.foldlM_cons]
      cases hy : step b y with
      | none => rfl
      | some b' =>
          apply ih
          rcases h with ⟨x, hx, hnone⟩
          rcases List.mem_cons.mp hx with rfl | hx
          · rw [hnone b] at hy
            cases hy
          · exact ⟨x, hx, hnone⟩

section

variable {emit : Node → String} {load : String → Option Node}
  {arrange : ∀ {α : Type}, List α → List α} {c : StringContainer} {v : c.ty.Carrier String}

/-- What a string that is a document comes back as. -/
def back (emit : Node → String) (load : String → Option Node) (text : String) : String :=
  emit (nodeOf load text)

theorem printed_iff {text : String} (h : (load text).isSome = true) :
    Printed emit load text ↔ back emit load text = text := by
  rcases Option.isSome_iff_exists.mp h with ⟨n, hn⟩
  rw [Printed, back, nodeOf, hn]
  simp

/-- A string that is no document makes the printer throw. -/
theorem toStr_eq_none {text : String} (htext : text ∈ c.texts v) (h : load text = none) :
    toStr emit load id c.ty v = none := by
  have hseq : ∀ v : List String, text ∈ v → seqToString emit load (fun s ↦ some (id s)) v = none := by
    intro v hv
    rw [seqToString, foldlM_eq_none ⟨text, hv, fun b ↦ by simp [h]⟩]
    rfl
  have hmap : ∀ v : List (String × String), text ∈ v.map Prod.snd →
      mapToString emit load (fun s ↦ some (id s)) v = none := by
    intro v hv
    rcases List.mem_map.mp hv with ⟨e, he, rfl⟩
    rw [mapToString, foldlM_eq_none ⟨e, he, fun b ↦ by simp [h]⟩]
    rfl
  cases c with
  | vector => exact hseq v htext
  | list => exact hseq v htext
  | set => exact hseq v htext
  | unorderedSet => exact hseq v htext
  | map => exact hmap v htext
  | unorderedMap => exact hmap v htext

theorem load_eq_nodeOf {text : String} (h : (load text).isSome = true) :
    load text = some (nodeOf load text) := by
  rcases Option.isSome_iff_exists.mp h with ⟨n, hn⟩
  rw [nodeOf, hn]
  rfl

theorem toStr_eq (hv : Valid c.ty v) (hall : ∀ s ∈ c.texts v, (load s).isSome = true) :
    toStr emit load id c.ty v = some (emit (c.node load v)) := by
  have hone : ∀ s ∈ c.texts v, (some (id s)).bind load = some (nodeOf load s) := fun s hs ↦
    load_eq_nodeOf (hall s hs)
  cases c with
  | vector => exact seqToString_eq hone
  | list => exact seqToString_eq hone
  | set => exact seqToString_eq hone
  | unorderedSet => exact seqToString_eq hone
  | map =>
      exact mapToString_eq (fun e he ↦ hone e.2 (List.mem_map_of_mem he)) (nodup_of_sorted hv.1)
  | unorderedMap => exact mapToString_eq (fun e he ↦ hone e.2 (List.mem_map_of_mem he)) hv.1

/-- What the parser makes of the printed container. -/
def result (emit : Node → String) (load : String → Option Node)
    (arrange : ∀ {α : Type}, List α → List α) :
    (c : StringContainer) → c.ty.Carrier String → c.ty.Carrier String
  | .vector, v => v.map (back emit load)
  | .list, v => v.map (back emit load)
  | .set, v => OrderedSet.ofList (lt .int) (v.map (back emit load))
  | .unorderedSet, v => arrange ((v.map (back emit load)).foldl (insertUnordered (beq .int)) [])
  | .map, v => v.map fun e ↦ (e.1, back emit load e.2)
  | .unorderedMap, v => arrange (v.map fun e ↦ (e.1, back emit load e.2))

theorem seqFromString_node {v : List String} (hload : load (emit (.seq (v.map (nodeOf load)))) =
      some (.seq (v.map (nodeOf load)))) (add : List String → String → List String) :
    seqFromString emit load some add (emit (.seq (v.map (nodeOf load)))) =
      some ((v.map (back emit load)).foldl add []) := by
  have hback : ∀ s ∈ v, ∃ s', some (emit (nodeOf load s)) = some s' ∧ s' = back emit load s :=
    fun s _ ↦ ⟨_, rfl, rfl⟩
  rcases seqFromString_eq (R := fun s' s ↦ s' = back emit load s) hback hload with
    ⟨v', hv', hparse⟩
  have heq : v' = v.map (back emit load) := by
    rw [← List.forall₂_eq_eq_eq, List.forall₂_map_right_iff]
    exact hv'
  rw [hparse, heq]

theorem mapFromString_node {v : List (String × String)}
    (hload : load (emit (mapNode (v.map fun e ↦ (e.1, nodeOf load e.2)))) =
      some (mapNode (v.map fun e ↦ (e.1, nodeOf load e.2))))
    (add : List (String × String) → String × String → List (String × String)) :
    mapFromString emit load some add (emit (mapNode (v.map fun e ↦ (e.1, nodeOf load e.2)))) =
      some ((v.map fun e ↦ (e.1, back emit load e.2)).foldl add []) := by
  have hback : ∀ e ∈ v, ∃ s', some (emit (nodeOf load e.2)) = some s' ∧ s' = back emit load e.2 :=
    fun e _ ↦ ⟨_, rfl, rfl⟩
  rcases mapFromString_eq (R := fun s' s ↦ s' = back emit load s) hback hload with
    ⟨v', hv', hparse⟩
  have heq : v' = v.map fun e ↦ (e.1, back emit load e.2) := by
    rw [← List.forall₂_eq_eq_eq, List.forall₂_map_right_iff]
    exact hv'.imp fun _ _ he ↦ Prod.ext he.1 he.2
  rw [hparse, heq]

theorem keys_back (v : List (String × String)) :
    (v.map fun e ↦ (e.1, back emit load e.2)).map Prod.fst = v.map Prod.fst := by
  rw [List.map_map]
  rfl

theorem fromStr_eq (hv : Valid c.ty v) (hload : load (emit (c.node load v)) = some (c.node load v)) :
    fromStr emit load some arrange c.ty (emit (c.node load v)) = some (result emit load arrange c v) := by
  cases c with
  | vector => exact (seqFromString_node hload pushBack).trans (congrArg some foldl_pushBack)
  | list => exact (seqFromString_node hload pushBack).trans (congrArg some foldl_pushBack)
  | set => exact seqFromString_node hload _
  | unorderedSet => exact congrArg (Option.map arrange) (seqFromString_node hload _)
  | map =>
      have hentries : Entries (fun x' x ↦ x' = back emit load x)
          (v.map fun e ↦ (e.1, back emit load e.2)) v := by
        rw [Entries, List.forall₂_map_left_iff, List.forall₂_same]
        exact fun e _ ↦ ⟨rfl, rfl⟩
      refine (mapFromString_node hload _).trans (congrArg some ?_)
      exact OrderedSet.ofList_of_sorted (hentries.sorted hv.1)
  | unorderedMap =>
      refine (congrArg (Option.map arrange) (mapFromString_node hload _)).trans (congrArg some ?_)
      have hkeys : ((v.map fun e ↦ (e.1, back emit load e.2)).map Prod.fst).Nodup := by
        rw [keys_back]
        exact hv.1
      exact congrArg arrange (foldl_insertUnordered (pairwise_sameKey hkeys))

theorem back_back {text : String}
    (h : load (emit (nodeOf load text)) = some (nodeOf load text)) :
    back emit load (back emit load text) = back emit load text := by
  rw [back, back, show nodeOf load (emit (nodeOf load text)) = nodeOf load text by
    rw [nodeOf, h, Option.getD_some]]

theorem map_back_eq_iff {v : List (String × String)} :
    (v.map fun e ↦ (e.1, back emit load e.2)) = v ↔
      ∀ s ∈ v.map Prod.snd, back emit load s = s := by
  rw [map_eq_self_iff, List.forall_mem_map]
  exact forall₂_congr fun e _ ↦ ⟨congrArg Prod.snd, fun h ↦ Prod.ext rfl h⟩

theorem beq_int (x y : String) : beq (I := String) .int x y = true ↔ x = y := decide_eq_true_iff

theorem beq_set_iff {v : List String} (hv : Valid (I := String) (.set .int) v)
    (hidem : ∀ s ∈ v, back emit load (back emit load s) = back emit load s) :
    OrderedSet.ofList (lt (I := String) .int) (v.map (back emit load)) = v ↔
      ∀ s ∈ v, back emit load s = s := by
  constructor
  · intro h
    apply fixed_of_surjective hidem
    intro s hs
    rw [← h] at hs
    exact OrderedSet.mem_ofList hs
  · intro h
    rw [map_eq_self_iff.mpr h]
    exact OrderedSet.ofList_of_sorted hv.1

theorem beq_unorderedSet_iff (harrange : ∀ {α : Type} (l : List α), (arrange l).Perm l)
    {v : List String} (hv : Valid (I := String) (.unorderedSet .int) v)
    (hidem : ∀ s ∈ v, back emit load (back emit load s) = back emit load s) :
    unorderedBeq (beq (I := String) .int)
        (arrange ((v.map (back emit load)).foldl (insertUnordered (beq (I := String) .int)) [])) v =
          true ↔
      ∀ s ∈ v, back emit load s = s := by
  constructor
  · intro h
    have hperm := harrange
      ((v.map (back emit load)).foldl (insertUnordered (beq (I := String) .int)) [])
    have hcome := foldl_insertUnordered_subset (l := v.map (back emit load)) beq_int List.nodup_nil
    have hboth := mem_of_unorderedBeq beq_int h
    -- as many elements as `v`, all of them in `v`, so all of `v`
    have hsubperm := (hperm.nodup_iff.mpr hcome.1).subperm hboth.2
    have hall := hsubperm.perm_of_length_le (Nat.le_of_eq hboth.1.symm)
    apply fixed_of_surjective hidem
    intro s hs
    exact (hcome.2 s (hperm.mem_iff.mp (hall.mem_iff.mpr hs))).resolve_left List.not_mem_nil
  · intro h
    apply unorderedBeq_self beq_int
    rw [map_eq_self_iff.mpr h, foldl_insertUnordered hv.1]
    exact harrange v

theorem beq_unorderedMap_iff (harrange : ∀ {α : Type} (l : List α), (arrange l).Perm l)
    {v : List (String × String)} (hv : (v.map Prod.fst).Nodup) :
    unorderedBeq (pairBeq (beq (I := String) .int))
        (arrange (v.map fun e ↦ (e.1, back emit load e.2))) v = true ↔
      ∀ s ∈ v.map Prod.snd, back emit load s = s := by
  rw [← map_back_eq_iff]
  constructor
  · intro h
    have hboth := mem_of_unorderedBeq (pairBeq_iff beq_int) h
    apply map_eq_self_iff.mpr
    intro e he
    have hmem := hboth.2 _ ((harrange _).mem_iff.mpr (List.mem_map_of_mem
      (f := fun e : String × String ↦ (e.1, back emit load e.2)) he))
    -- the two entries have one key
    exact List.inj_on_of_nodup_map hv hmem he rfl
  · intro h
    apply unorderedBeq_self (pairBeq_iff beq_int)
    rw [h]
    exact harrange v

theorem beq_result_iff (harrange : ∀ {α : Type} (l : List α), (arrange l).Perm l)
    (hv : Valid c.ty v)
    (hidem : ∀ s ∈ c.texts v, back emit load (back emit load s) = back emit load s) :
    beq c.ty (result emit load arrange c v) v = true ↔ ∀ s ∈ c.texts v, back emit load s = s := by
  cases c with
  | vector => exact (listBeq_iff beq_int).trans map_eq_self_iff
  | list => exact (listBeq_iff beq_int).trans map_eq_self_iff
  | set => exact (listBeq_iff beq_int).trans (beq_set_iff hv hidem)
  | unorderedSet => exact beq_unorderedSet_iff harrange hv hidem
  | map => exact (listBeq_iff (pairBeq_iff beq_int)).trans map_back_eq_iff
  | unorderedMap => exact beq_unorderedMap_iff harrange hv.1

variable (emit load)

/-- A container of strings comes back exactly when every string in it is what the emitter prints for
the document that the string is. -/
theorem roundTrips_iff (c : StringContainer) (v : c.ty.Carrier String) (hv : Valid c.ty v)
    (harrange : ∀ {α : Type} (l : List α), (arrange l).Perm l)
    (hload : ∀ n ∈ c.nodes load v, load (emit n) = some n) :
    RoundTrips emit load arrange c v ↔ ∀ s ∈ c.texts v, Printed emit load s := by
  have hnode : load (emit (c.node load v)) = some (c.node load v) := hload _ List.mem_cons_self
  have hidem : ∀ s ∈ c.texts v, back emit load (back emit load s) = back emit load s := fun s hs ↦
    back_back (hload _ (List.mem_cons_of_mem _ (List.mem_map_of_mem hs)))
  by_cases hall : ∀ s ∈ c.texts v, (load s).isSome = true
  · have hprint : toStr emit load id c.ty v = _ := toStr_eq hv hall
    have hparse : fromStr emit load some arrange c.ty _ = _ := fromStr_eq hv hnode
    have hresult : RoundTrips emit load arrange c v ↔
        beq c.ty (result emit load arrange c v) v = true := by
      constructor
      · rintro ⟨text, v', htext, hv', hbeq⟩
        rw [hprint] at htext
        cases htext
        rw [hparse] at hv'
        cases hv'
        exact hbeq
      · exact fun hbeq ↦ ⟨_, _, hprint, hparse, hbeq⟩
    rw [hresult, beq_result_iff harrange hv hidem]
    exact forall₂_congr fun s hs ↦ (printed_iff (hall s hs)).symm
  · -- some string is no document, and the printer throws
    rcases not_forall₂.mp hall with ⟨s, hs, hsome⟩
    have hnone : load s = none := Option.not_isSome_iff_eq_none.mp hsome
    constructor
    · rintro ⟨text, v', htext, -, -⟩
      rw [toStr_eq_none hs hnone] at htext
      cases htext
    · intro h
      rcases h s hs with ⟨n, hn, -⟩
      rw [hnone] at hn
      cases hn

end

/-! ## Fixed containers -/

/-- Some texts, and the documents that they are. -/
def plainTable : List (String × Node) :=
  [("", .null), ("~", .null), ("a", .scalar "a"), ("x y", .scalar "x y"), ("- ~", .seq [.null]),
    ("- a\n- x y", .seq [.scalar "a", .scalar "x y"])]

def plainLoad (text : String) : Option Node := plainTable.lookup text

/-- The emitter on these documents. -/
def plainEmit : Node → String
  | .null => "~"
  | .scalar text => text
  | .seq [.null] => "- ~"
  | _ => "- a\n- x y"

theorem roundTrips_plain : RoundTrips plainEmit plainLoad id .vector ["a", "x y"] := by
  apply (roundTrips_iff plainEmit plainLoad .vector ["a", "x y"] ?_ (fun l ↦ .refl l) ?_).mpr
  · intro s hs
    rcases List.mem_pair.mp hs with rfl | rfl
    · exact ⟨.scalar "a", rfl, rfl⟩
    · exact ⟨.scalar "x y", rfl, rfl⟩
  · intro s _
    trivial
  · intro n hn
    have hnodes : StringContainer.vector.nodes plainLoad ["a", "x y"] =
        [.seq [.scalar "a", .scalar "x y"], .scalar "a", .scalar "x y"] := rfl
    rw [hnodes] at hn
    simp only [List.mem_cons, List.not_mem_nil, or_false] at hn
    rcases hn with rfl | rfl | rfl <;> rfl

/-- The vector with the empty string comes back with a `~`. -/
theorem not_roundTrips_empty :
    toStr plainEmit plainLoad id StringContainer.vector.ty [""] = some "- ~" ∧
      fromStr plainEmit plainLoad some id StringContainer.vector.ty "- ~" = some ["~"] ∧
      ¬ RoundTrips plainEmit plainLoad id .vector [""] := by
  have hprint : toStr plainEmit plainLoad id StringContainer.vector.ty [""] = some "- ~" := rfl
  have hparse : fromStr plainEmit plainLoad some id StringContainer.vector.ty "- ~" = some ["~"] := rfl
  refine ⟨hprint, hparse, ?_⟩
  rintro ⟨text, v', htext, hv', hbeq⟩
  rw [hprint] at htext
  cases htext
  rw [hparse] at hv'
  cases hv'
  cases hbeq

end Server.Config
