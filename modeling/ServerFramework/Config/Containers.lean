import Mathlib
import ServerFramework.Library.Document
import ServerFramework.Library.OrderedSet

/-!
# `LexicalCast` for containers

The types that are built from an integer type by the containers with a `LexicalCast`, their values,
and the two conversions.  A printer loads the text of each element again, and a parser emits each
sub-node again.
-/

namespace Server.Config

open Document Document.Node

inductive Ty where
  | int
  | vector (t : Ty)
  | list (t : Ty)
  | set (t : Ty)
  | unorderedSet (t : Ty)
  /-- `std::map<std::string, T>` -/
  | map (t : Ty)
  | unorderedMap (t : Ty)
  deriving DecidableEq, Repr

namespace Ty

/-- Whether the type has an `operator<`. -/
def ordered : Ty → Bool
  | .int => true
  | .vector t => t.ordered
  | .list t => t.ordered
  | .set t => t.ordered
  | .map t => t.ordered
  | .unorderedSet _ => false
  | .unorderedMap _ => false

/-- A `std::set` needs `operator<` of its elements, a `std::unordered_set` needs `std::hash`. -/
def wellFormed : Ty → Bool
  | .int => true
  | .vector t => t.wellFormed
  | .list t => t.wellFormed
  | .set t => t.ordered && t.wellFormed
  | .unorderedSet t => t == .int
  | .map t => t.wellFormed
  | .unorderedMap t => t.wellFormed

/-- The elements of a container in the order of an iteration over it; `I` is the integer type. -/
@[reducible]
def Carrier (I : Type) : Ty → Type
  | .int => I
  | .vector t => List (Carrier I t)
  | .list t => List (Carrier I t)
  | .set t => List (Carrier I t)
  | .unorderedSet t => List (Carrier I t)
  | .map t => List (String × Carrier I t)
  | .unorderedMap t => List (String × Carrier I t)

end Ty

/-! ## Comparison -/

/-- `std::lexicographical_compare` -/
def lexLt {α : Type} (lt : α → α → Bool) : List α → List α → Bool
  | _, [] => false
  | [], _ :: _ => true
  | a :: as, b :: bs => if lt a b then true else if lt b a then false else lexLt lt as bs

/-- `operator<` of `std::pair<const std::string, T>` -/
def pairLt {α : Type} (lt : α → α → Bool) (a b : String × α) : Bool :=
  decide (a.1 < b.1) || (!decide (b.1 < a.1) && lt a.2 b.2)

/-- `operator==` of a sequence. -/
def listBeq {α : Type} (beq : α → α → Bool) : List α → List α → Bool
  | [], [] => true
  | a :: as, b :: bs => beq a b && listBeq beq as bs
  | _, _ => false

/-- `operator==` of `std::pair<const std::string, T>` -/
def pairBeq {α : Type} (beq : α → α → Bool) (a b : String × α) : Bool :=
  a.1 == b.1 && beq a.2 b.2

/-- `operator==` of `std::unordered_set` and `std::unordered_map`: as many elements, and each one is
found. -/
def unorderedBeq {α : Type} (beq : α → α → Bool) (a b : List α) : Bool :=
  a.length == b.length && a.all fun x ↦ b.any fun y ↦ beq x y

section

variable {I : Type} [LinearOrder I]

/-- `operator<` -/
def lt : (t : Ty) → t.Carrier I → t.Carrier I → Bool
  | .int => fun a b ↦ decide (a < b)
  | .vector t => lexLt (lt t)
  | .list t => lexLt (lt t)
  | .set t => lexLt (lt t)
  | .map t => lexLt (pairLt (lt t))
  -- there is none
  | .unorderedSet _ => fun _ _ ↦ false
  | .unorderedMap _ => fun _ _ ↦ false

/-- `operator==` -/
def beq : (t : Ty) → t.Carrier I → t.Carrier I → Bool
  | .int => fun a b ↦ decide (a = b)
  | .vector t => listBeq (beq t)
  | .list t => listBeq (beq t)
  | .set t => listBeq (beq t)
  | .unorderedSet t => unorderedBeq (beq t)
  | .map t => listBeq (pairBeq (beq t))
  | .unorderedMap t => unorderedBeq (pairBeq (beq t))

/-- The order of the keys. -/
def keyLt {α : Type} (a b : String × α) : Bool := decide (a.1 < b.1)

/-- What the containers keep: the elements of a set and the keys of a map are different, and those of
`std::set` and `std::map` are in their order. -/
def Valid : (t : Ty) → t.Carrier I → Prop
  | .int, _ => True
  | .vector t, v => ∀ x ∈ v, Valid t x
  | .list t, v => ∀ x ∈ v, Valid t x
  | .set t, v => OrderedSet.Sorted (lt t) v ∧ ∀ x ∈ v, Valid t x
  | .unorderedSet t, v => v.Pairwise (fun x y ↦ beq t x y = false) ∧ ∀ x ∈ v, Valid t x
  | .map t, v => OrderedSet.Sorted keyLt v ∧ ∀ e ∈ v, Valid t e.2
  | .unorderedMap t, v => (v.map Prod.fst).Nodup ∧ ∀ e ∈ v, Valid t e.2

end

/-! ## The conversions -/

section

variable {α : Type} (emit : Node → String) (load : String → Option Node)

/-- `LexicalCast<std::vector<T>, std::string>`, and the same for lists and sets. -/
def seqToString (toStr : α → Option String) (v : List α) : Option String :=
  (v.foldlM (fun node i ↦ ((toStr i).bind load).map node.push) (.seq [])).map emit

/-- `LexicalCast<std::map<std::string, T>, std::string>`: a sequence turns into a map at its first
key. -/
def mapToString (toStr : α → Option String) (v : List (String × α)) : Option String :=
  (v.foldlM (fun node i ↦ ((toStr i.2).bind load).map (node.set i.1)) (.seq [])).map emit

/-- `LexicalCast<std::string, std::vector<T>>`, and the same for lists and sets; `none` is an
exception. -/
def seqFromString (fromStr : String → Option α) (add : List α → α → List α) (v : String) :
    Option (List α) :=
  (load v).bind fun node ↦
    (node.itemTexts emit).foldlM (fun vec text ↦ (fromStr text).map (add vec)) []

/-- `LexicalCast<std::string, std::map<std::string, T>>` -/
def mapFromString (fromStr : String → Option α)
    (add : List (String × α) → String × α → List (String × α)) (v : String) :
    Option (List (String × α)) :=
  (load v).bind fun node ↦ node.pairs.bind fun entries ↦
    entries.foldlM (fun vec e ↦ (fromStr (emit e.2)).map fun x ↦ add vec (e.1, x)) []

end

section

variable {α : Type}

def pushBack (vec : List α) (x : α) : List α := vec ++ [x]

/-- `insert` of an ordered container. -/
def insertOrdered (lt : α → α → Bool) (vec : List α) (x : α) : List α := OrderedSet.insert lt x vec

/-- `insert` of an unordered container, of which an iteration may come in any order. -/
def insertUnordered (same : α → α → Bool) (vec : List α) (x : α) : List α :=
  if vec.any fun y ↦ same y x then vec else vec ++ [x]

def sameKey (a b : String × α) : Bool := a.1 == b.1

end

section

variable {I : Type} [LinearOrder I] (emit : Node → String) (load : String → Option Node)
  (showInt : I → String) (readInt : String → Option I) (arrange : ∀ {α : Type}, List α → List α)

/-- `LexicalCast<T, std::string>`; `showInt` is `boost::lexical_cast`. -/
def toStr : (t : Ty) → t.Carrier I → Option String
  | .int => fun i ↦ some (showInt i)
  | .vector t => seqToString emit load (toStr t)
  | .list t => seqToString emit load (toStr t)
  | .set t => seqToString emit load (toStr t)
  | .unorderedSet t => seqToString emit load (toStr t)
  | .map t => mapToString emit load (toStr t)
  | .unorderedMap t => mapToString emit load (toStr t)

/-- `LexicalCast<std::string, T>`; `arrange` brings the elements of an unordered container in the
order of an iteration. -/
def fromStr : (t : Ty) → String → Option (t.Carrier I)
  | .int => readInt
  | .vector t => seqFromString emit load (fromStr t) pushBack
  | .list t => seqFromString emit load (fromStr t) pushBack
  | .set t => seqFromString emit load (fromStr t) (insertOrdered (lt t))
  | .unorderedSet t => fun v ↦
    (seqFromString emit load (fromStr t) (insertUnordered (beq t)) v).map arrange
  | .map t => mapFromString emit load (fromStr t) (insertOrdered keyLt)
  | .unorderedMap t => fun v ↦
    (mapFromString emit load (fromStr t) (insertUnordered sameKey) v).map arrange

/-! ## What is printed -/

/-- The node that a map printer ends with. -/
def mapNode : List (String × Node) → Node
  | [] => .seq []
  | entries => .map entries

/-- The node of a value. -/
def tree : (t : Ty) → t.Carrier I → Node
  | .int, i => .scalar (showInt i)
  | .vector t, v => .seq (v.map (tree t))
  | .list t, v => .seq (v.map (tree t))
  | .set t, v => .seq (v.map (tree t))
  | .unorderedSet t, v => .seq (v.map (tree t))
  | .map t, v => mapNode (v.map fun e ↦ (e.1, tree t e.2))
  | .unorderedMap t, v => mapNode (v.map fun e ↦ (e.1, tree t e.2))

/-- The nodes of a value and of everything in it. -/
def nodes : (t : Ty) → t.Carrier I → List Node
  | .int, i => [.scalar (showInt i)]
  | .vector t, v => tree showInt (.vector t) v :: v.flatMap (nodes t)
  | .list t, v => tree showInt (.list t) v :: v.flatMap (nodes t)
  | .set t, v => tree showInt (.set t) v :: v.flatMap (nodes t)
  | .unorderedSet t, v => tree showInt (.unorderedSet t) v :: v.flatMap (nodes t)
  | .map t, v => tree showInt (.map t) v :: v.flatMap fun e ↦ nodes t e.2
  | .unorderedMap t, v => tree showInt (.unorderedMap t) v :: v.flatMap fun e ↦ nodes t e.2

end

/-! ## Printers and parsers of one container -/

section

variable {α : Type} {emit : Node → String} {load : String → Option Node}
  {print : α → Option String} {parse : String → Option α} {node : α → Node}

theorem foldlM_push {v : List α} (h : ∀ x ∈ v, (print x).bind load = some (node x))
    (ns : List Node) :
    v.foldlM (fun (n : Node) i ↦ ((print i).bind load).map n.push) (Node.seq ns) =
      some (.seq (ns ++ v.map node)) := by
  induction v generalizing ns with
  | nil =>
      rw [List.map_nil, List.append_nil]
      rfl
  | cons x v ih =>
      rw [List.foldlM_cons, h x List.mem_cons_self]
      show v.foldlM _ (Node.seq (ns ++ [node x])) = _
      rw [ih fun y hy ↦ h y (List.mem_cons_of_mem _ hy), List.map_cons, List.append_assoc]
      rfl

theorem seqToString_eq {v : List α} (h : ∀ x ∈ v, (print x).bind load = some (node x)) :
    seqToString emit load print v = some (emit (.seq (v.map node))) := by
  unfold seqToString
  rw [foldlM_push h]
  rfl

theorem set_mapNode {entries : List (String × Node)} {key : String} {value : Node}
    (h : key ∉ entries.map Prod.fst) :
    (mapNode entries).set key value = mapNode (entries ++ [(key, value)]) := by
  cases entries with
  | nil => rfl
  | cons e entries => exact congrArg Node.map (setEntry_of_not_mem h)

theorem foldlM_set {v : List (String × α)}
    (h : ∀ e ∈ v, (print e.2).bind load = some (node e.2)) (entries : List (String × Node))
    (hkeys : (entries.map Prod.fst ++ v.map Prod.fst).Nodup) :
    v.foldlM (fun (n : Node) i ↦ ((print i.2).bind load).map (n.set i.1)) (mapNode entries) =
      some (mapNode (entries ++ v.map fun e ↦ (e.1, node e.2))) := by
  induction v generalizing entries with
  | nil =>
      rw [List.map_nil, List.append_nil]
      rfl
  | cons e v ih =>
      have hnew : e.1 ∉ entries.map Prod.fst := fun hmem ↦
        (List.nodup_append.mp hkeys).2.2 e.1 hmem e.1 List.mem_cons_self rfl
      have hrest : ((entries ++ [(e.1, node e.2)]).map Prod.fst ++ v.map Prod.fst).Nodup := by
        rw [List.map_append, List.append_assoc]
        exact hkeys
      rw [List.foldlM_cons, h e List.mem_cons_self]
      show v.foldlM _ ((mapNode entries).set e.1 (node e.2)) = _
      rw [set_mapNode hnew, ih (fun d hd ↦ h d (List.mem_cons_of_mem _ hd)) _ hrest, List.map_cons,
        List.append_assoc]
      rfl

theorem mapToString_eq {v : List (String × α)}
    (h : ∀ e ∈ v, (print e.2).bind load = some (node e.2)) (hkeys : (v.map Prod.fst).Nodup) :
    mapToString emit load print v = some (emit (mapNode (v.map fun e ↦ (e.1, node e.2)))) := by
  have hfold := foldlM_set h [] hkeys
  unfold mapToString
  change v.foldlM _ (Node.seq []) = _ at hfold
  rw [hfold]
  rfl

/-- What a parser makes of the elements, one by one. -/
theorem seqFromString_eq {R : α → α → Prop} {v : List α}
    (h : ∀ x ∈ v, ∃ x', parse (emit (node x)) = some x' ∧ R x' x)
    (hload : load (emit (.seq (v.map node))) = some (.seq (v.map node))) :
    ∃ v', List.Forall₂ R v' v ∧ ∀ add,
      seqFromString emit load parse add (emit (.seq (v.map node))) = some (v'.foldl add []) := by
  have hfold : ∀ w : List α, (∀ x ∈ w, ∃ x', parse (emit (node x)) = some x' ∧ R x' x) →
      ∃ w', List.Forall₂ R w' w ∧ ∀ (add : List α → α → List α) vec,
        ((w.map node).map emit).foldlM (fun vec text ↦ (parse text).map (add vec)) vec =
          some (w'.foldl add vec) := by
    intro w
    induction w with
    | nil => exact fun _ ↦ ⟨[], .nil, fun _ _ ↦ rfl⟩
    | cons x w ih =>
        intro hw
        obtain ⟨x', hx', hR⟩ := hw x List.mem_cons_self
        obtain ⟨w', hw', hrest⟩ := ih fun y hy ↦ hw y (List.mem_cons_of_mem _ hy)
        refine ⟨x' :: w', .cons hR hw', fun add vec ↦ ?_⟩
        rw [List.map_cons, List.map_cons, List.foldlM_cons, hx']
        exact hrest add (add vec x')
  obtain ⟨v', hv', hadd⟩ := hfold v h
  refine ⟨v', hv', fun add ↦ ?_⟩
  unfold seqFromString
  rw [hload, Option.bind_some, itemTexts_seq]
  exact hadd add []

theorem pairs_mapNode (entries : List (String × Node)) : (mapNode entries).pairs = some entries := by
  cases entries <;> rfl

theorem mapFromString_eq {R : α → α → Prop} {v : List (String × α)}
    (h : ∀ e ∈ v, ∃ x', parse (emit (node e.2)) = some x' ∧ R x' e.2)
    (hload : load (emit (mapNode (v.map fun e ↦ (e.1, node e.2)))) =
      some (mapNode (v.map fun e ↦ (e.1, node e.2)))) :
    ∃ v', List.Forall₂ (fun e' e ↦ e'.1 = e.1 ∧ R e'.2 e.2) v' v ∧ ∀ add,
      mapFromString emit load parse add (emit (mapNode (v.map fun e ↦ (e.1, node e.2)))) =
        some (v'.foldl add []) := by
  have hfold : ∀ w : List (String × α),
      (∀ e ∈ w, ∃ x', parse (emit (node e.2)) = some x' ∧ R x' e.2) →
      ∃ w', List.Forall₂ (fun e' e ↦ e'.1 = e.1 ∧ R e'.2 e.2) w' w ∧
        ∀ (add : List (String × α) → String × α → List (String × α)) vec,
          (w.map fun e ↦ (e.1, node e.2)).foldlM
            (fun vec e ↦ (parse (emit e.2)).map fun x ↦ add vec (e.1, x)) vec =
              some (w'.foldl add vec) := by
    intro w
    induction w with
    | nil => exact fun _ ↦ ⟨[], .nil, fun _ _ ↦ rfl⟩
    | cons e w ih =>
        intro hw
        obtain ⟨x', hx', hR⟩ := hw e List.mem_cons_self
        obtain ⟨w', hw', hrest⟩ := ih fun d hd ↦ hw d (List.mem_cons_of_mem _ hd)
        refine ⟨(e.1, x') :: w', .cons ⟨rfl, hR⟩ hw', fun add vec ↦ ?_⟩
        rw [List.map_cons, List.foldlM_cons, hx']
        exact hrest add (add vec (e.1, x'))
  obtain ⟨v', hv', hadd⟩ := hfold v h
  refine ⟨v', hv', fun add ↦ ?_⟩
  unfold mapFromString
  rw [hload, Option.bind_some, pairs_mapNode, Option.bind_some]
  exact hadd add []

end

/-! ## Filling a container -/

section

variable {α : Type} {l s : List α}

theorem foldl_pushBack : l.foldl pushBack s = s ++ l := by
  induction l generalizing s with
  | nil => exact (List.append_nil s).symm
  | cons x l ih =>
      rw [List.foldl_cons, ih]
      show s ++ [x] ++ l = s ++ x :: l
      rw [List.append_assoc, List.singleton_append]

/-- No element of a list without duplicates is left out. -/
theorem foldl_insertUnordered {same : α → α → Bool}
    (h : (s ++ l).Pairwise fun x y ↦ same x y = false) :
    l.foldl (insertUnordered same) s = s ++ l := by
  induction l generalizing s with
  | nil => exact (List.append_nil s).symm
  | cons x l ih =>
      have hnew : ¬ (s.any fun y ↦ same y x) = true := by
        rw [List.any_eq_true, not_exists]
        intro y hy
        have hdiff := (List.pairwise_append.mp h).2.2 y hy.1 x List.mem_cons_self
        rw [hy.2] at hdiff
        cases hdiff
      rw [List.foldl_cons, insertUnordered, if_neg hnew]
      rw [← List.singleton_append, ← List.append_assoc] at h
      rw [ih h, List.append_assoc, List.singleton_append]

end

section

variable {α : Type} {test : α → α → Bool} {v v' w : List α}

theorem listBeq_of_forall₂ (h : List.Forall₂ (fun x' x ↦ test x' x = true) v' v) :
    listBeq test v' v = true := by
  induction h with
  | nil => rfl
  | cons hx _ ih =>
      unfold listBeq
      rw [hx, ih]
      rfl

/-- The order of an iteration does not matter to an unordered container. -/
theorem unorderedBeq_of_forall₂ (h : List.Forall₂ (fun x' x ↦ test x' x = true) v' v)
    (hw : w.Perm v') : unorderedBeq test w v = true := by
  have hfound : ∀ x' ∈ v', ∃ x ∈ v, test x' x = true := by
    clear hw
    induction h with
    | nil => exact fun x' hx' ↦ absurd hx' List.not_mem_nil
    | cons hx _ ih =>
        intro y' hy'
        rcases List.mem_cons.mp hy' with rfl | hy'
        · exact ⟨_, List.mem_cons_self, hx⟩
        · obtain ⟨y, hy, hyy⟩ := ih y' hy'
          exact ⟨y, List.mem_cons_of_mem _ hy, hyy⟩
  unfold unorderedBeq
  rw [Bool.and_eq_true, beq_iff_eq, List.all_eq_true]
  constructor
  · rw [hw.length_eq, h.length_eq]
  · intro x' hx'
    rw [List.any_eq_true]
    exact hfound x' (hw.mem_iff.mp hx')

/-- The entries of two maps with the same keys in the same order. -/
abbrev Entries (R : α → α → Prop) : List (String × α) → List (String × α) → Prop :=
  List.Forall₂ fun e' e ↦ e'.1 = e.1 ∧ R e'.2 e.2

variable {R : α → α → Prop} {m m' : List (String × α)}

theorem Entries.keys (h : Entries R m' m) : m'.map Prod.fst = m.map Prod.fst := by
  induction h with
  | nil => rfl
  | cons he _ ih => rw [List.map_cons, List.map_cons, he.1, ih]

theorem Entries.pairBeq (h : Entries R m' m) (hR : ∀ x' x, R x' x → test x' x = true) :
    List.Forall₂ (fun e' e ↦ pairBeq test e' e = true) m' m := by
  apply h.imp
  intro e' e he
  unfold Config.pairBeq
  rw [he.1, hR _ _ he.2, beq_self_eq_true]
  rfl

theorem Entries.eq (h : Entries R m' m) (hR : ∀ x' x, R x' x → x' = x) : m' = m := by
  induction h with
  | nil => rfl
  | cons he _ ih => rw [Prod.ext he.1 (hR _ _ he.2), ih]

theorem Entries.sorted (h : Entries R m' m) (hm : OrderedSet.Sorted keyLt m) :
    OrderedSet.Sorted keyLt m' := by
  have hkeys : ∀ l : List (String × α), OrderedSet.Sorted keyLt l ↔
      (l.map Prod.fst).Pairwise fun k k' ↦ decide (k < k') = true ∧ decide (k' < k) = false := by
    intro l
    rw [List.pairwise_map]
    rfl
  rw [hkeys, h.keys, ← hkeys]
  exact hm

theorem nodup_of_sorted (h : OrderedSet.Sorted keyLt m) : (m.map Prod.fst).Nodup := by
  show List.Pairwise (· ≠ ·) _
  rw [List.pairwise_map]
  apply h.imp
  intro e d hlt heq
  rw [keyLt, keyLt, heq, hlt.2] at hlt
  cases hlt.1

theorem pairwise_sameKey (h : (m.map Prod.fst).Nodup) :
    m.Pairwise fun e d ↦ sameKey e d = false := by
  apply (List.pairwise_map.mp h).imp
  intro e d hne
  exact beq_eq_false_iff_ne.mpr hne

end

/-! ## The round trip -/

/-- Loading undoes emitting on the nodes of a list. -/
def Loads (emit : Node → String) (load : String → Option Node) (l : List Node) : Prop :=
  ∀ n ∈ l, load (emit n) = some n

section

variable {α : Type} {emit : Node → String} {load : String → Option Node} {top : Node}
  {f : α → List Node} {v : List α} {x : α}

theorem Loads.of_mem (h : Loads emit load (top :: v.flatMap f)) (hx : x ∈ v) :
    Loads emit load (f x) := fun n hn ↦
  h n (List.mem_cons_of_mem _ (List.mem_flatMap.mpr ⟨x, hx, hn⟩))

theorem Loads.head (h : Loads emit load (top :: v.flatMap f)) : load (emit top) = some top :=
  h top List.mem_cons_self

end

theorem tree_mem_nodes {I : Type} {showInt : I → String} (t : Ty) (v : t.Carrier I) :
    tree showInt t v ∈ nodes showInt t v := by
  cases t <;> exact List.mem_cons_self

section

variable {I : Type} [LinearOrder I] (emit : Node → String) (load : String → Option Node)
  (showInt : I → String) (readInt : String → Option I) (arrange : ∀ {α : Type}, List α → List α)

/-- A printer of the type ends with the text of the value's node. -/
def Prints (t : Ty) : Prop := ∀ v : t.Carrier I, Valid t v → Loads emit load (nodes showInt t v) →
  toStr emit load showInt t v = some (emit (tree showInt t v))

/-- An equal value, and the same one where there is no unordered container. -/
def Restored (t : Ty) (v' v : t.Carrier I) : Prop := beq t v' v = true ∧ (t.ordered = true → v' = v)

/-- A parser of the type gets an equal value out of the text of a value's node. -/
def Parses (t : Ty) : Prop := ∀ v : t.Carrier I, Valid t v → Loads emit load (nodes showInt t v) →
  ∃ v', fromStr emit load readInt arrange t (emit (tree showInt t v)) = some v' ∧ Restored t v' v

end

section

variable {I : Type} [LinearOrder I] {emit : Node → String} {load : String → Option Node}
  {showInt : I → String} {readInt : String → Option I} {arrange : ∀ {α : Type}, List α → List α}
  {t : Ty}

theorem Prints.seq {v : List (t.Carrier I)} (h : Prints emit load showInt t)
    (hv : ∀ x ∈ v, Valid t x)
    (hload : Loads emit load (.seq (v.map (tree showInt t)) :: v.flatMap (nodes showInt t))) :
    seqToString emit load (toStr emit load showInt t) v =
      some (emit (.seq (v.map (tree showInt t)))) := by
  apply seqToString_eq
  intro x hx
  have hx' := hload.of_mem hx
  rw [h x (hv x hx) hx', Option.bind_some, hx' _ (tree_mem_nodes t x)]

theorem Prints.map {v : List (String × t.Carrier I)} (h : Prints emit load showInt t)
    (hkeys : (v.map Prod.fst).Nodup) (hv : ∀ e ∈ v, Valid t e.2)
    (hload : Loads emit load
      (mapNode (v.map fun e ↦ (e.1, tree showInt t e.2)) :: v.flatMap fun e ↦ nodes showInt t e.2)) :
    mapToString emit load (toStr emit load showInt t) v =
      some (emit (mapNode (v.map fun e ↦ (e.1, tree showInt t e.2)))) := by
  refine mapToString_eq (fun e he ↦ ?_) hkeys
  have he' := hload.of_mem he
  rw [h e.2 (hv e he) he', Option.bind_some, he' _ (tree_mem_nodes t e.2)]

theorem prints (hplain : ∀ i, emit (.scalar (showInt i)) = showInt i) (t : Ty) :
    Prints emit load showInt t := by
  intro v hv hload
  induction t with
  | int => exact congrArg some (hplain v).symm
  | vector t ih => exact Prints.seq ih hv hload
  | list t ih => exact Prints.seq ih hv hload
  | set t ih => exact Prints.seq ih hv.2 hload
  | unorderedSet t ih => exact Prints.seq ih hv.2 hload
  | map t ih => exact Prints.map ih (nodup_of_sorted hv.1) hv.2 hload
  | unorderedMap t ih => exact Prints.map ih hv.1 hv.2 hload

theorem Parses.seq {v : List (t.Carrier I)} (h : Parses emit load showInt readInt arrange t)
    (hv : ∀ x ∈ v, Valid t x)
    (hload : Loads emit load (.seq (v.map (tree showInt t)) :: v.flatMap (nodes showInt t))) :
    ∃ v', List.Forall₂ (Restored t) v' v ∧ ∀ add,
      seqFromString emit load (fromStr emit load readInt arrange t) add
        (emit (.seq (v.map (tree showInt t)))) = some (v'.foldl add []) :=
  seqFromString_eq (fun x hx ↦ h x (hv x hx) (hload.of_mem hx)) hload.head

theorem Parses.map {v : List (String × t.Carrier I)} (h : Parses emit load showInt readInt arrange t)
    (hv : ∀ e ∈ v, Valid t e.2)
    (hload : Loads emit load
      (mapNode (v.map fun e ↦ (e.1, tree showInt t e.2)) :: v.flatMap fun e ↦ nodes showInt t e.2)) :
    ∃ v', Entries (Restored t) v' v ∧ ∀ add,
      mapFromString emit load (fromStr emit load readInt arrange t) add
        (emit (mapNode (v.map fun e ↦ (e.1, tree showInt t e.2)))) = some (v'.foldl add []) :=
  mapFromString_eq (fun e he ↦ h e.2 (hv e he) (hload.of_mem he)) hload.head

theorem Restored.list_beq {v v' : List (t.Carrier I)} (h : List.Forall₂ (Restored t) v' v) :
    listBeq (beq t) v' v = true := listBeq_of_forall₂ (h.imp fun _ _ hx ↦ hx.1)

theorem Restored.list_eq {v v' : List (t.Carrier I)} (h : List.Forall₂ (Restored t) v' v)
    (ht : t.ordered = true) : v' = v :=
  List.forall₂_eq_eq_eq ▸ h.imp fun _ _ hx ↦ hx.2 ht

theorem Parses.sequence {v : List (t.Carrier I)} (h : Parses emit load showInt readInt arrange t)
    (hv : ∀ x ∈ v, Valid t x)
    (hload : Loads emit load (.seq (v.map (tree showInt t)) :: v.flatMap (nodes showInt t))) :
    ∃ v', seqFromString emit load (fromStr emit load readInt arrange t) pushBack
        (emit (.seq (v.map (tree showInt t)))) = some v' ∧
      listBeq (beq t) v' v = true ∧ (t.ordered = true → v' = v) := by
  obtain ⟨v', hv', hparse⟩ := h.seq hv hload
  refine ⟨v', ?_, Restored.list_beq hv', Restored.list_eq hv'⟩
  rw [hparse, foldl_pushBack]
  rfl

/-- The elements of an ordered set come back unchanged, so each is inserted behind the others. -/
theorem Parses.orderedSet {v : List (t.Carrier I)} (h : Parses emit load showInt readInt arrange t)
    (ht : t.ordered = true) (hv : Valid (.set t) v)
    (hload : Loads emit load (.seq (v.map (tree showInt t)) :: v.flatMap (nodes showInt t))) :
    ∃ v', seqFromString emit load (fromStr emit load readInt arrange t) (insertOrdered (lt t))
        (emit (.seq (v.map (tree showInt t)))) = some v' ∧
      listBeq (beq t) v' v = true ∧ (t.ordered = true → v' = v) := by
  obtain ⟨v', hv', hparse⟩ := h.seq hv.2 hload
  have hbeq := Restored.list_beq hv'
  have heq : v' = v := Restored.list_eq hv' ht
  rw [heq] at hparse hbeq
  refine ⟨v, ?_, hbeq, fun _ ↦ rfl⟩
  rw [hparse]
  exact congrArg some (OrderedSet.ofList_of_sorted hv.1)

theorem Parses.unordered {v : List (t.Carrier I)} (h : Parses emit load showInt readInt arrange t)
    (ht : t.ordered = true) (harrange : ∀ {α : Type} (l : List α), (arrange l).Perm l)
    (hv : Valid (.unorderedSet t) v)
    (hload : Loads emit load (.seq (v.map (tree showInt t)) :: v.flatMap (nodes showInt t))) :
    ∃ v', (seqFromString emit load (fromStr emit load readInt arrange t) (insertUnordered (beq t))
        (emit (.seq (v.map (tree showInt t))))).map arrange = some v' ∧
      unorderedBeq (beq t) v' v = true := by
  obtain ⟨v', hv', hparse⟩ := h.seq hv.2 hload
  have hbeq := hv'.imp fun _ _ hx ↦ hx.1
  have heq : v' = v := Restored.list_eq hv' ht
  rw [heq] at hparse hbeq
  refine ⟨arrange v, ?_, unorderedBeq_of_forall₂ hbeq (harrange v)⟩
  rw [hparse, foldl_insertUnordered hv.1]
  rfl

theorem Parses.orderedMap {v : List (String × t.Carrier I)}
    (h : Parses emit load showInt readInt arrange t) (hv : Valid (.map t) v)
    (hload : Loads emit load
      (mapNode (v.map fun e ↦ (e.1, tree showInt t e.2)) :: v.flatMap fun e ↦ nodes showInt t e.2)) :
    ∃ v', mapFromString emit load (fromStr emit load readInt arrange t) (insertOrdered keyLt)
        (emit (mapNode (v.map fun e ↦ (e.1, tree showInt t e.2)))) = some v' ∧
      listBeq (pairBeq (beq t)) v' v = true ∧ (t.ordered = true → v' = v) := by
  obtain ⟨v', hv', hparse⟩ := h.map hv.2 hload
  refine ⟨v', ?_, listBeq_of_forall₂ (hv'.pairBeq fun _ _ hx ↦ hx.1),
    fun ht ↦ hv'.eq fun _ _ hx ↦ hx.2 ht⟩
  rw [hparse]
  exact congrArg some (OrderedSet.ofList_of_sorted (hv'.sorted hv.1))

theorem Parses.hashMap {v : List (String × t.Carrier I)}
    (h : Parses emit load showInt readInt arrange t)
    (harrange : ∀ {α : Type} (l : List α), (arrange l).Perm l) (hv : Valid (.unorderedMap t) v)
    (hload : Loads emit load
      (mapNode (v.map fun e ↦ (e.1, tree showInt t e.2)) :: v.flatMap fun e ↦ nodes showInt t e.2)) :
    ∃ v', (mapFromString emit load (fromStr emit load readInt arrange t) (insertUnordered sameKey)
        (emit (mapNode (v.map fun e ↦ (e.1, tree showInt t e.2))))).map arrange = some v' ∧
      unorderedBeq (pairBeq (beq t)) v' v = true := by
  obtain ⟨v', hv', hparse⟩ := h.map hv.2 hload
  have hkeys : (v'.map Prod.fst).Nodup := hv'.keys ▸ hv.1
  refine ⟨arrange v', ?_,
    unorderedBeq_of_forall₂ (hv'.pairBeq fun _ _ hx ↦ hx.1) (harrange v')⟩
  rw [hparse, foldl_insertUnordered (pairwise_sameKey hkeys)]
  rfl

theorem parses (hread : ∀ i, readInt (showInt i) = some i)
    (hplain : ∀ i, emit (.scalar (showInt i)) = showInt i)
    (harrange : ∀ {α : Type} (l : List α), (arrange l).Perm l) (t : Ty) (ht : t.wellFormed = true) :
    Parses emit load showInt readInt arrange t := by
  intro v hv hload
  induction t with
  | int =>
      refine ⟨v, ?_, decide_eq_true rfl, fun _ ↦ rfl⟩
      show readInt (emit (.scalar (showInt v))) = some v
      rw [hplain, hread]
  | vector t ih => exact Parses.sequence (ih ht) hv hload
  | list t ih => exact Parses.sequence (ih ht) hv hload
  | set t ih =>
      obtain ⟨hordered, ht⟩ := Bool.and_eq_true_iff.mp ht
      exact Parses.orderedSet (ih ht) hordered hv hload
  | unorderedSet t ih =>
      have hint : t = .int := beq_iff_eq.mp ht
      subst hint
      obtain ⟨v', hparse, hbeq⟩ := Parses.unordered (ih rfl) rfl harrange hv hload
      exact ⟨v', hparse, hbeq, nofun⟩
  | map t ih => exact Parses.orderedMap (ih ht) hv hload
  | unorderedMap t ih =>
      obtain ⟨v', hparse, hbeq⟩ := Parses.hashMap (ih ht) harrange hv hload
      exact ⟨v', hparse, hbeq, nofun⟩

/-- Parsing what was printed gives an equal value, at every nesting of containers. -/
theorem fromStr_toStr (t : Ty) (v : t.Carrier I) (ht : t.wellFormed = true) (hv : Valid t v)
    (hread : ∀ i, readInt (showInt i) = some i)
    (hplain : ∀ i, emit (.scalar (showInt i)) = showInt i)
    (harrange : ∀ {α : Type} (l : List α), (arrange l).Perm l)
    (hload : ∀ n ∈ nodes showInt t v, load (emit n) = some n) :
    ∃ text v', toStr emit load showInt t v = some text ∧
      fromStr emit load readInt arrange t text = some v' ∧ beq t v' v = true := by
  obtain ⟨v', hparse, hbeq, -⟩ := parses hread hplain harrange t ht v hv hload
  exact ⟨_, v', prints hplain t v hv hload, hparse, hbeq⟩

end

/-- A map of maps of vectors. -/
abbrev nestedTy : Ty := .map (.unorderedMap (.vector .int))

/-- With an empty map, an empty vector and keys that are printed in quotes. -/
def nested : nestedTy.Carrier Int :=
  [("", [("b", [1, -2]), ("a", [])]), ("key: 1", [])]

def nestedVector : Node := .seq [.scalar "1", .scalar "-2"]

def nestedMap : Node := .map [("b", nestedVector), ("a", .seq [])]

def nestedNode : Node := .map [("", nestedMap), ("key: 1", .seq [])]

def nestedMapYaml : String := "b:\n  - 1\n  - -2\na:\n  []"

def nestedYaml : String :=
  "\"\":\n  b:\n    - 1\n    - -2\n  a:\n    []\n\"key: 1\":\n  []"

/-- What the emitter prints for the nodes of this value. -/
def nestedEmit : Node → String
  | .scalar text => text
  | .seq (_ :: _) => "- 1\n- -2"
  | .map ((_, .map _) :: _) => nestedYaml
  | .map _ => nestedMapYaml
  | _ => "[]"

def nestedTable : List (String × Node) :=
  [("1", .scalar "1"), ("-2", .scalar "-2"), ("- 1\n- -2", nestedVector), ("[]", .seq []),
    (nestedMapYaml, nestedMap), (nestedYaml, nestedNode)]

def nestedLoad (text : String) : Option Node := nestedTable.lookup text

theorem nestedTable_keys : (nestedTable.map Prod.fst).Nodup := by decide +kernel

theorem nodes_nested : nodes Int.repr nestedTy nested =
    [nestedNode, nestedMap, nestedVector, .scalar "1", .scalar "-2", .seq [], .seq []] := by
  rfl

theorem valid_nested : Valid nestedTy nested := by
  refine ⟨?_, fun e he ↦ ?_⟩
  · exact List.pairwise_pair.mpr (by decide)
  · rcases List.mem_pair.mp he with rfl | rfl
    · refine ⟨by decide, fun e he x _ ↦ trivial⟩
    · exact ⟨List.nodup_nil, fun e he ↦ absurd he List.not_mem_nil⟩

theorem nestedLoad_nestedEmit :
    ∀ n ∈ nodes Int.repr nestedTy nested, nestedLoad (nestedEmit n) = some n := by
  rw [nodes_nested]
  have hload : ∀ n, (nestedEmit n, n) ∈ nestedTable → nestedLoad (nestedEmit n) = some n :=
    fun n hn ↦ lookup_of_mem nestedTable_keys hn
  intro n hn
  apply hload
  simp only [List.mem_cons, List.not_mem_nil, or_false] at hn
  rcases hn with rfl | rfl | rfl | rfl | rfl | rfl | rfl
  · show (nestedYaml, nestedNode) ∈ nestedTable
    simp [nestedTable]
  · show (nestedMapYaml, nestedMap) ∈ nestedTable
    simp [nestedTable]
  · show ("- 1\n- -2", nestedVector) ∈ nestedTable
    simp [nestedTable]
  · show ("1", Node.scalar "1") ∈ nestedTable
    simp [nestedTable]
  · show ("-2", Node.scalar "-2") ∈ nestedTable
    simp [nestedTable]
  · show ("[]", Node.seq []) ∈ nestedTable
    simp [nestedTable]
  · show ("[]", Node.seq []) ∈ nestedTable
    simp [nestedTable]

theorem fromStr_toStr_nested : ∃ text v',
    toStr nestedEmit nestedLoad Int.repr nestedTy nested = some text ∧
      fromStr nestedEmit nestedLoad String.toInt? id nestedTy text = some v' ∧
      beq nestedTy v' nested = true :=
  fromStr_toStr nestedTy nested rfl valid_nested Int.toInt?_repr (fun _ ↦ rfl) (fun l ↦ .refl l)
    nestedLoad_nestedEmit

end Server.Config
