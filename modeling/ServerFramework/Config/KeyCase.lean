import ServerFramework.Config.Load
import Mathlib.Data.List.Count
import Mathlib.Data.List.Perm.Basic
import Mathlib.Tactic.IntervalCases

/-!
# The case of the keys

`listAllMember` leaves out every path with an upper-case letter, and the loop of `loadFromYaml` turns
what was listed into lower case.
-/

namespace Server.Config

open Document

/-! ## What a registered argument is told -/

section

variable {σ : String → Type}

/-- The registered arguments with whatever state they have. -/
abbrev Objects (σ : String → Type) := ∀ n : String, Option (σ n)

/-- One iteration of the loop of `loadFromYaml`, with the virtual `fromString` of the argument. -/
def offerTo (emit : Node → String) (fromString : ∀ n, String → σ n → σ n) (s : Objects σ)
    (i : String × Node) : Objects σ :=
  if i.1.isEmpty then s
  else
    match s (tolower i.1) with
    | none => s
    | some arg =>
      Function.update s (tolower i.1) (some (fromString (tolower i.1) (textOf emit i.2) arg))

def loadInto (emit : Node → String) (fromString : ∀ n, String → σ n → σ n) (s : Objects σ)
    (root : Node) : Objects σ :=
  (listAllMember "" root).foldl (offerTo emit fromString) s

/-- The texts that the argument `n` is given, one after the other. -/
def offered (emit : Node → String) (n : String) (nodes : List (String × Node)) : List String :=
  (nodes.filter fun i ↦ !i.1.isEmpty && tolower i.1 == n).map fun i ↦ textOf emit i.2

/-- Loading either tree does the same to every argument, whatever its `fromString` does. -/
def SameEffect (emit : Node → String) (t t' : Node) : Prop :=
  ∀ (σ : String → Type) (fromString : ∀ n, String → σ n → σ n) (s : Objects σ),
    loadInto emit fromString s t = loadInto emit fromString s t'

variable {emit : Node → String} {fromString : ∀ n, String → σ n → σ n} {s : Objects σ}
  {nodes : List (String × Node)} {n : String}

theorem offerTo_apply {i : String × Node} :
    offerTo emit fromString s i n =
      (s n).map fun arg ↦ (offered emit n [i]).foldl (fun arg text ↦ fromString n text arg) arg := by
  by_cases hempty : i.1.isEmpty = true
  · simp [offerTo, offered, hempty]
  · by_cases hn : tolower i.1 = n
    · subst hn
      cases hs : s (tolower i.1) <;> simp [offerTo, offered, hempty, hs]
    · have hother : offerTo emit fromString s i n = s n := by
        rw [offerTo, if_neg hempty]
        cases s (tolower i.1) with
        | none => rfl
        | some arg => exact Function.update_of_ne (Ne.symm hn) _ _
      rw [hother]
      simp [offered, hn]

theorem foldl_offerTo :
    nodes.foldl (offerTo emit fromString) s n =
      (s n).map fun arg ↦ (offered emit n nodes).foldl (fun arg text ↦ fromString n text arg) arg := by
  induction nodes generalizing s with
  | nil => exact Option.map_id'.symm
  | cons i nodes ih =>
      have hcons : offered emit n (i :: nodes) = offered emit n [i] ++ offered emit n nodes := by
        rw [offered, offered, offered, ← List.map_append, ← List.filter_append,
          List.singleton_append]
      rw [List.foldl_cons, ih, offerTo_apply, Option.map_map, hcons]
      simp only [List.foldl_append]
      rfl

/-- An argument that keeps the texts it is given tells two loads apart. -/
theorem sameEffect_iff_offered {t t' : Node} : SameEffect emit t t' ↔
    ∀ n, offered emit n (listAllMember "" t) = offered emit n (listAllMember "" t') := by
  constructor
  · intro h n
    have hkeep : ∀ nodes : List (String × Node),
        nodes.foldl (offerTo emit fun _ text texts ↦ texts ++ [text]) (fun _ ↦ some []) n =
          some (offered emit n nodes) := by
      intro nodes
      rw [foldl_offerTo]
      simp [List.foldl_append_eq_append, ← List.flatMap_def]
    have hboth := congrFun (h (fun _ ↦ List String) (fun _ text texts ↦ texts ++ [text])
      fun _ ↦ some []) n
    rw [loadInto, loadInto, hkeep, hkeep] at hboth
    exact Option.some.inj hboth
  · intro h σ fromString s
    funext n
    rw [loadInto, loadInto, foldl_offerTo, foldl_offerTo, h n]

/-- The arguments of `loadFromYaml` are objects that hold a value and take what they can convert. -/
theorem loadFromYaml_eq_loadInto {T : String → Type} [∀ n, DecidableEq (T n)]
    (fromStr : ∀ n, String → Option (T n)) (s : Registry T) (root : Node) :
    loadFromYaml emit fromStr s root =
      loadInto emit (fun n text old ↦ (fromStr n text).getD old) s root := by
  have hoffer : offer emit fromStr =
      offerTo emit fun n text old ↦ (fromStr n text).getD old := by
    funext s i
    rw [offer, offerTo, fromString]
    split
    · rfl
    · cases hs : s (tolower i.1) with
      | none => rfl
      | some old =>
          cases hval : fromStr (tolower i.1) (textOf emit i.2) with
          | none =>
              show s = Function.update s (tolower i.1) (some (Option.getD _ old))
              rw [Option.getD_none, ← hs, Function.update_eq_self]
          | some val =>
              show setValue s (tolower i.1) old val = Function.update s _ (some (Option.getD _ old))
              rw [Option.getD_some, setValue]
              split
              · rename_i heq
                rw [← heq, ← hs, Function.update_eq_self]
              · rfl
  rw [loadFromYaml, loadInto, hoffer]

end

/-! ## Names of either case -/

/-- Letters of either case, digits, `.` and `_`. -/
def mixedKey (key : String) : Bool := key.toList.all fun c ↦ allowed.contains c || c.isUpper

/-- The tree with all keys of maps in lower case. -/
def lowerKeys (n : Node) : Node := n.mapKeys tolower

theorem isMap_lowerKeys {n : Node} : (lowerKeys n).isMap = n.isMap := Node.isMap_mapKeys

theorem lowerKeys_map {entries : List (String × Node)} :
    lowerKeys (.map entries) = .map (entries.map fun e ↦ (tolower e.1, lowerKeys e.2)) :=
  Node.mapKeys_map

theorem upper_char {c : Char} (h : c.isUpper = true) : allowed.contains c.toLower = true := by
  have hrange : 65 ≤ c.toNat ∧ c.toNat ≤ 90 := by
    have hval := of_decide_eq_true h
    exact ⟨UInt32.le_iff_toNat_le.mp hval.1, UInt32.le_iff_toNat_le.mp hval.2⟩
  have hall : ∀ k : Nat, k < 26 → allowed.contains (Char.ofNat (65 + k)).toLower = true := by
    decide +kernel
  have hc : Char.ofNat (65 + (c.toNat - 65)) = c := by
    rw [show 65 + (c.toNat - 65) = c.toNat by omega, Char.ofNat_toNat]
  have hk := hall (c.toNat - 65) (by omega)
  rwa [hc] at hk

theorem valid_tolower {key : String} (h : mixedKey key = true) : validKey (tolower key) = true := by
  rw [mixedKey, List.all_eq_true] at h
  rw [validKey, tolower, String.toList_ofList, List.all_eq_true]
  intro c hc
  obtain ⟨d, hd, rfl⟩ := List.mem_map.mp hc
  rcases Bool.or_eq_true_iff.mp (h d hd) with hallowed | hupper
  · have hlower : allowed.map Char.toLower = allowed := rfl
    have hmem := List.mem_map_of_mem (f := Char.toLower) (List.contains_iff_mem.mp hallowed)
    rw [hlower] at hmem
    exact List.contains_iff_mem.mpr hmem
  · exact upper_char hupper

/-- Among these names, those that are kept by `tolower` are the valid ones. -/
theorem valid_iff_lower {key : String} (h : mixedKey key = true) :
    validKey key = true ↔ tolower key = key := by
  constructor
  · exact tolower_of_valid
  · intro hlower
    rw [← hlower]
    exact valid_tolower h

@[simp] theorem path_empty (k : String) : path "" k = k := rfl

theorem valid_path {key k : String} (hkey : validKey key = true) :
    validKey (path key k) = true ↔ validKey k = true := by
  rw [path]
  split
  · exact Iff.rfl
  · have hdot : validKey "." = true := by decide
    rw [validKey] at hkey hdot
    rw [validKey, validKey, String.toList_append, String.toList_append, List.all_append,
      List.all_append, hkey, hdot, Bool.true_and, Bool.true_and]

theorem path_ne_empty {key k : String} (hk : k ≠ "") : path key k ≠ "" := by
  intro h
  rw [path] at h
  split at h
  · exact hk h
  · exact absurd (congrArg String.length h) (by simp)

theorem tolower_ne_empty {k : String} (hk : k ≠ "") : tolower k ≠ "" := by
  intro h
  have hlength := congrArg String.length h
  rw [tolower, String.length_ofList, List.length_map, String.length_toList] at hlength
  exact hk (String.length_eq_zero_iff.mp hlength)

/-! ## What is listed of either tree -/

theorem listEntries_eq {key : String} {entries : List (String × Node)} :
    listEntries key entries = entries.flatMap fun e ↦ listAllMember (path key e.1) e.2 := by
  induction entries with
  | nil => rfl
  | cons e entries ih => rw [listEntries, ih, List.flatMap_cons, listEntry]

theorem listAllMember_map {key : String} {entries : List (String × Node)}
    (h : validKey key = true) : listAllMember key (.map entries) =
      (key, .map entries) :: entries.flatMap fun e ↦ listAllMember (path key e.1) e.2 := by
  rw [listAllMember, if_pos h, listEntries_eq]

theorem listAllMember_leaf {key : String} {n : Node} (hn : n.isMap = false)
    (h : validKey key = true) : listAllMember key n = [(key, n)] := by
  cases n with
  | map entries => cases hn
  | _ => exact if_pos h

theorem listAllMember_invalid {key : String} {n : Node} (h : validKey key = false) :
    listAllMember key n = [] := by
  cases n <;> simp [listAllMember, h]

theorem valid_key_of_mem {key : String} {n : Node} {i : String × Node}
    (h : i ∈ listAllMember key n) : validKey key = true := by
  by_contra hkey
  rw [listAllMember_invalid (Bool.eq_false_iff.mpr hkey)] at h
  cases h

theorem self_mem_listAllMember {key : String} {n : Node} (h : validKey key = true) :
    (key, n) ∈ listAllMember key n := by
  cases n with
  | map entries =>
      rw [listAllMember_map h]
      exact List.mem_cons_self
  | _ => simp [listAllMember, h]

/-- The keys of maps that are reached from the root through maps are in lower case. -/
inductive LowerPaths : Node → Prop where
  | leaf {n : Node} : n.isMap = false → LowerPaths n
  | map {entries : List (String × Node)} : (∀ e ∈ entries, tolower e.1 = e.1) →
      (∀ e ∈ entries, LowerPaths e.2) → LowerPaths (.map entries)

/-- What is listed of the tree is what is listed of the one in lower case. -/
theorem listAllMember_lowerKeys {n : Node} (h : LowerPaths n) (key : String) :
    listAllMember key (lowerKeys n) = (listAllMember key n).map fun i ↦ (i.1, lowerKeys i.2) := by
  by_cases hkey : validKey key = true
  · induction h generalizing key with
    | leaf hleaf =>
        rw [listAllMember_leaf hleaf hkey, listAllMember_leaf (isMap_lowerKeys.trans hleaf) hkey]
        rfl
    | @map entries hlower _ ih =>
        rw [lowerKeys_map, listAllMember_map hkey, listAllMember_map hkey, List.map_cons,
          ← lowerKeys_map, List.flatMap_map, List.map_flatMap]
        congr 1
        apply List.flatMap_congr
        intro e he
        rw [hlower e he]
        by_cases hpath : validKey (path key e.1) = true
        · exact ih e he (path key e.1) hpath
        · rw [listAllMember_invalid (Bool.eq_false_iff.mpr hpath),
            listAllMember_invalid (Bool.eq_false_iff.mpr hpath), List.map_nil]
  · rw [listAllMember_invalid (Bool.eq_false_iff.mpr hkey),
      listAllMember_invalid (Bool.eq_false_iff.mpr hkey), List.map_nil]

/-- How many nodes of a list have a name. -/
def named (nodes : List (String × Node)) : Nat := nodes.countP fun i ↦ !i.1.isEmpty

theorem named_pos {key : String} {n : Node} (hkey : validKey key = true) (hne : key ≠ "") :
    0 < named (listAllMember key n) :=
  List.countP_pos_iff.mpr ⟨_, self_mem_listAllMember hkey, by simpa using hne⟩

/-- The tree lists at most as much as the one in lower case, and as much only along paths in lower
case. -/
def Lists (n : Node) : Prop :=
  ∀ key : String, validKey key = true →
    named (listAllMember key n) ≤ named (listAllMember key (lowerKeys n)) ∧
      (named (listAllMember key n) = named (listAllMember key (lowerKeys n)) → LowerPaths n)

/-- An entry with an upper-case letter in its key is missing from the list of the tree only. -/
theorem Lists.entry {key k : String} {v : Node} (h : Lists v) (hk : mixedKey k = true)
    (hkey : validKey key = true) :
    named (listAllMember (path key k) v) ≤
        named (listAllMember (path key (tolower k)) (lowerKeys v)) ∧
      (named (listAllMember (path key k) v) =
          named (listAllMember (path key (tolower k)) (lowerKeys v)) →
        tolower k = k ∧ LowerPaths v) := by
  by_cases hvalid : validKey k = true
  · have hlower := (valid_iff_lower hk).mp hvalid
    have hboth := h (path key k) ((valid_path hkey).mpr hvalid)
    rw [hlower]
    exact ⟨hboth.1, fun heq ↦ ⟨rfl, hboth.2 heq⟩⟩
  · have hinvalid : validKey (path key k) = false :=
      Bool.eq_false_iff.mpr (mt (valid_path hkey).mp hvalid)
    have hempty : k ≠ "" := by
      rintro rfl
      exact hvalid rfl
    have hne : path key (tolower k) ≠ "" := path_ne_empty (tolower_ne_empty hempty)
    have hpos := named_pos (n := lowerKeys v) ((valid_path hkey).mpr (valid_tolower hk)) hne
    rw [listAllMember_invalid hinvalid]
    refine ⟨Nat.zero_le _, fun heq ↦ ?_⟩
    rw [← heq] at hpos
    cases hpos

theorem lists_of_mixed {n : Node} (hmixed : n.AllKeys fun k ↦ mixedKey k = true) : Lists n := by
  have hleaf : ∀ {n : Node}, n.isMap = false → Lists n := by
    intro n hn key hkey
    rw [listAllMember_leaf hn hkey, listAllMember_leaf (isMap_lowerKeys.trans hn) hkey]
    exact ⟨Nat.le_refl _, fun _ ↦ .leaf hn⟩
  induction n using Node.induct with
  | map entries ih =>
      intro key hkey
      cases hmixed with
      | map hkeys hvalues =>
          -- one entry after the other
          have hsum : ∀ l : List (String × Node), (∀ e ∈ l, e ∈ entries) →
              named (l.flatMap fun e ↦ listAllMember (path key e.1) e.2) ≤
                  named (l.flatMap fun e ↦ listAllMember (path key (tolower e.1)) (lowerKeys e.2)) ∧
                (named (l.flatMap fun e ↦ listAllMember (path key e.1) e.2) =
                    named (l.flatMap fun e ↦ listAllMember (path key (tolower e.1)) (lowerKeys e.2)) →
                  ∀ e ∈ l, tolower e.1 = e.1 ∧ LowerPaths e.2) := by
            intro l
            induction l with
            | nil => exact fun _ ↦ ⟨Nat.le_refl _, nofun⟩
            | cons e l ihl =>
                intro hl
                have he := hl e List.mem_cons_self
                have hrest := ihl fun e he ↦ hl e (List.mem_cons_of_mem _ he)
                have hone := Lists.entry (ih e he (hvalues e he)) (hkeys e he) hkey
                simp only [named, List.flatMap_cons, List.countP_append] at hrest hone ⊢
                refine ⟨by omega, fun heq ↦ ?_⟩
                rw [List.forall_mem_cons]
                exact ⟨hone.2 (by omega), hrest.2 (by omega)⟩
          rw [lowerKeys_map, listAllMember_map hkey, listAllMember_map hkey, List.flatMap_map]
          have hall := hsum entries fun _ he ↦ he
          simp only [named, List.countP_cons] at hall ⊢
          refine ⟨by omega, fun heq ↦ ?_⟩
          have hlower := hall.2 (by omega)
          exact .map (fun e he ↦ (hlower e he).1) fun e he ↦ (hlower e he).2
  | _ => exact hleaf rfl

/-! ## When the case of the keys makes no difference -/

/-- No key has an upper-case letter, apart from those in what is under the empty path and is not a
map: this is not offered to an argument. -/
inductive LowerCase : String → Node → Prop where
  | named {key : String} {n : Node} : key ≠ "" → (n.AllKeys fun k ↦ tolower k = k) → LowerCase key n
  | map {entries : List (String × Node)} : (∀ e ∈ entries, tolower e.1 = e.1) →
      (∀ e ∈ entries, LowerCase e.1 e.2) → LowerCase "" (.map entries)
  | leaf {n : Node} : n.isMap = false → LowerCase "" n

theorem lowerPaths_of_allKeys {n : Node} (h : n.AllKeys fun k ↦ tolower k = k) : LowerPaths n := by
  induction n using Node.induct with
  | map entries ih =>
      cases h with
      | map hkeys hvalues => exact .map hkeys fun e he ↦ ih e he (hvalues e he)
  | _ => exact .leaf rfl

theorem LowerCase.lowerPaths {key : String} {n : Node} (h : LowerCase key n) : LowerPaths n := by
  induction h with
  | named _ hkeys => exact lowerPaths_of_allKeys hkeys
  | map hkeys _ ih => exact .map hkeys ih
  | leaf hleaf => exact .leaf hleaf

/-- The nodes that are offered under a name. -/
def Fixed (key : String) (n : Node) : Prop :=
  ∀ i ∈ listAllMember key n, i.1 ≠ "" → lowerKeys i.2 = i.2

theorem fixed_of_allKeys {n : Node} (h : n.AllKeys fun k ↦ tolower k = k) (key : String) :
    Fixed key n := by
  induction n using Node.induct generalizing key with
  | map entries ih =>
      intro i hi hne
      rw [listAllMember_map (valid_key_of_mem hi)] at hi
      rcases List.mem_cons.mp hi with rfl | hi
      · exact Node.mapKeys_eq_self_iff.mpr h
      · rcases List.mem_flatMap.mp hi with ⟨e, he, hi⟩
        cases h with
        | map hkeys hvalues => exact ih e he (hvalues e he) _ i hi hne
  | _ =>
      intro i hi _
      rw [listAllMember_leaf rfl (valid_key_of_mem hi), List.mem_singleton] at hi
      rw [hi]
      exact Node.mapKeys_eq_self_iff.mpr h

theorem LowerCase.fixed {key : String} {n : Node} (h : LowerCase key n) : Fixed key n := by
  induction h with
  | named _ hkeys => exact fixed_of_allKeys hkeys _
  | map _ _ ih =>
      intro i hi hne
      rw [listAllMember_map (valid_key_of_mem hi)] at hi
      rcases List.mem_cons.mp hi with rfl | hi
      · exact absurd rfl hne
      · rcases List.mem_flatMap.mp hi with ⟨e, he, hi⟩
        exact ih e he i hi hne
  | leaf hleaf =>
      intro i hi hne
      rw [listAllMember_leaf hleaf (valid_key_of_mem hi), List.mem_singleton] at hi
      rw [hi] at hne
      exact absurd rfl hne

theorem lowerCase_of_fixed {n : Node} (hpaths : LowerPaths n)
    (hmixed : n.AllKeys fun k ↦ mixedKey k = true) {key : String} (hkey : validKey key = true)
    (hfixed : Fixed key n) : LowerCase key n := by
  induction hpaths generalizing key with
  | leaf hleaf =>
      by_cases hne : key = ""
      · subst hne
        exact .leaf hleaf
      · exact .named hne (Node.mapKeys_eq_self_iff.mp (hfixed _ (self_mem_listAllMember hkey) hne))
  | @map entries hkeys _ ih =>
      by_cases hne : key = ""
      · subst hne
        cases hmixed with
        | map hnames hvalues =>
            refine .map hkeys fun e he ↦ ih e he (hvalues e he) ?_ fun i hi ↦ hfixed i ?_
            · exact (valid_iff_lower (hnames e he)).mpr (hkeys e he)
            · rw [listAllMember_map hkey]
              exact List.mem_cons_of_mem _ (List.mem_flatMap.mpr ⟨e, he, hi⟩)
      · exact .named hne (Node.mapKeys_eq_self_iff.mp (hfixed _ (self_mem_listAllMember hkey) hne))

variable {emit : Node → String} {load : String → Option Node} {t : Node}

/-- The names that texts are offered under, in their order. -/
theorem named_eq_of_offered {nodes nodes' : List (String × Node)}
    (h : ∀ n, offered emit n nodes = offered emit n nodes') : named nodes = named nodes' := by
  let names (l : List (String × Node)) := (l.filter fun i ↦ !i.1.isEmpty).map fun i ↦ tolower i.1
  have hcount : ∀ n l, (names l).count n = (offered emit n l).length := by
    intro n l
    rw [offered, List.length_map, ← List.countP_eq_length_filter, List.count, List.countP_map,
      List.countP_filter]
    congr 1
    funext i
    exact Bool.and_comm _ _
  have hlength : ∀ l, named l = (names l).length := by
    intro l
    rw [List.length_map, named, List.countP_eq_length_filter]
  have hperm : (names nodes).Perm (names nodes') := by
    apply List.perm_iff_count.mpr
    intro n
    rw [hcount, hcount, h n]
  rw [hlength, hlength, hperm.length_eq]

/-- The emitter tells a tree from the one in lower case. -/
theorem lowerKeys_of_textOf {v : Node} (h : textOf emit v = textOf emit (lowerKeys v))
    (hload : load (emit v) = some v) (hload' : load (emit (lowerKeys v)) = some (lowerKeys v)) :
    lowerKeys v = v := by
  have htext : ∀ w : Node, w ≠ v → lowerKeys v = w → emit v = emit w → False := by
    intro w hne hw hemit
    rw [hw, ← hemit, hload] at hload'
    exact hne (Option.some.inj hload').symm
  by_contra hne
  cases v with
  | null => exact hne rfl
  | scalar text => exact hne rfl
  | seq elements =>
      refine htext _ hne rfl (h.trans ?_)
      rw [lowerKeys, Node.mapKeys_seq]
      rfl
  | map entries =>
      refine htext _ hne rfl (h.trans ?_)
      rw [lowerKeys_map]
      rfl

theorem sameEffect_of_lowerCase (h : LowerCase "" t) : SameEffect emit t (lowerKeys t) := by
  apply sameEffect_iff_offered.mpr
  intro n
  rw [listAllMember_lowerKeys h.lowerPaths, offered, offered, List.filter_map, List.map_map]
  apply List.map_congr_left
  intro i hi
  have hmem := List.mem_filter.mp hi
  have hname : i.1 ≠ "" := by
    intro hempty
    simp [hempty] at hmem
  exact congrArg (textOf emit) (h.fixed i hmem.1 hname).symm

theorem lowerCase_of_sameEffect (hmixed : t.AllKeys fun k ↦ mixedKey k = true)
    (hload : ∀ i ∈ listAllMember "" t ++ listAllMember "" (lowerKeys t),
      load (emit i.2) = some i.2)
    (h : SameEffect emit t (lowerKeys t)) : LowerCase "" t := by
  have hoffered := sameEffect_iff_offered.mp h
  -- as many nodes with a name are listed, so no path is missing
  have hpaths := (lists_of_mixed hmixed "" rfl).2 (named_eq_of_offered hoffered)
  have hlist := listAllMember_lowerKeys hpaths ""
  refine lowerCase_of_fixed hpaths hmixed rfl fun i hi hne ↦ ?_
  have htexts := hoffered (tolower i.1)
  rw [hlist, offered, offered, List.filter_map, List.map_map] at htexts
  have htext := List.map_inj_left.mp htexts i (List.mem_filter.mpr ⟨hi, by simpa using hne⟩)
  have hlower : (i.1, lowerKeys i.2) ∈ listAllMember "" (lowerKeys t) := by
    rw [hlist]
    exact List.mem_map_of_mem hi
  exact lowerKeys_of_textOf htext (hload i (List.mem_append_left _ hi))
    (hload _ (List.mem_append_right _ hlower))

variable (emit load)

/-- Loading the tree and loading it in lower case do the same to every registered argument exactly
when no key that an argument could see has an upper-case letter. -/
theorem sameEffect_lowerKeys_iff (t : Node) (hmixed : t.AllKeys fun k ↦ mixedKey k = true)
    (hload : ∀ i ∈ listAllMember "" t ++ listAllMember "" (lowerKeys t),
      load (emit i.2) = some i.2) :
    SameEffect emit t (lowerKeys t) ↔ LowerCase "" t :=
  ⟨lowerCase_of_sameEffect hmixed hload, sameEffect_of_lowerCase⟩

/-! ## Fixed trees -/

/-- A tree with one key. -/
def portTree (k : String) : Node := .map [(k, .scalar "80")]

/-- The emitter on such trees. -/
def portEmit : Node → String
  | .scalar text => text
  | .map [(k, .scalar text)] => k ++ ": " ++ text
  | _ => "~"

def portLoad (text : String) : Option Node :=
  if text = "80" then some (.scalar "80")
  else if text = "port: 80" then some (portTree "port")
  else none

theorem sameEffect_lowerKeys_iff_port :
    LowerCase "" (portTree "port") ∧
      SameEffect portEmit (portTree "port") (lowerKeys (portTree "port")) := by
  have hscalar : ∀ P, (Node.scalar "80").AllKeys P := fun _ ↦ .scalar "80"
  have hkeys : (portTree "port").AllKeys fun k ↦ mixedKey k = true := by
    apply Node.AllKeys.map <;> simp [hscalar]
    decide
  have hlower : LowerCase "" (portTree "port") := by
    apply LowerCase.map
    · simp only [List.mem_singleton, forall_eq]
      decide
    · simp only [List.mem_singleton, forall_eq]
      exact .named (by decide) (hscalar _)
  refine ⟨hlower, (sameEffect_lowerKeys_iff portEmit portLoad (portTree "port") hkeys ?_).mpr hlower⟩
  have hsame : lowerKeys (portTree "port") = portTree "port" := rfl
  have hlist : listAllMember "" (portTree "port") =
      [("", portTree "port"), ("port", .scalar "80")] := rfl
  rw [hsame, hlist]
  intro i hi
  have hload : portLoad (portEmit (portTree "port")) = some (portTree "port") := rfl
  have hload' : portLoad (portEmit (.scalar "80")) = some (.scalar "80") := rfl
  simp only [List.cons_append, List.nil_append, List.mem_cons, List.not_mem_nil, or_false] at hi
  rcases hi with rfl | rfl | rfl | rfl
  · exact hload
  · exact hload'
  · exact hload
  · exact hload'

/-- The argument `port` is not found under the key `Port`. -/
theorem not_sameEffect_port :
    offered portEmit "port" (listAllMember "" (portTree "Port")) = [] ∧
      offered portEmit "port" (listAllMember "" (lowerKeys (portTree "Port"))) = ["80"] ∧
      ¬ SameEffect portEmit (portTree "Port") (lowerKeys (portTree "Port")) := by
  have hnone : offered portEmit "port" (listAllMember "" (portTree "Port")) = [] := by
    decide +kernel
  have hsome : offered portEmit "port" (listAllMember "" (lowerKeys (portTree "Port"))) = ["80"] := by
    decide +kernel
  refine ⟨hnone, hsome, fun h ↦ ?_⟩
  have hboth := sameEffect_iff_offered.mp h "port"
  rw [hnone, hsome] at hboth
  cases hboth

end Server.Config
