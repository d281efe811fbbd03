import ServerFramework.Config.KeyCase
import ServerFramework.Library.Acyclic
import Mathlib.Data.Fintype.EquivFin

/-!
# Documents with aliases

An alias makes a node the child of several others, or of itself.  `listAllMember` goes down such a
graph as if it were a tree; with enough fuel it comes to an end if and only if no cycle of entries
with valid keys can be reached from the root.
-/

namespace Server.Config

open Document Relation

/-- A node of a graph; its children are nodes again. -/
inductive Content (V : Type) where
  | null
  | scalar (text : String)
  | sequence (items : List V)
  | map (entries : List (V × V))
  deriving DecidableEq, Repr

abbrev Graph (V : Type) := V → Content V

namespace Graph

variable {V : Type}

/-- `Node::Scalar()`, which is empty for a node that is no scalar. -/
def scalar (g : Graph V) (v : V) : String :=
  match g v with
  | .scalar text => text
  | _ => ""

/-- `listAllMember`, with a bound on the depth of the recursion. -/
def listAllMember (g : Graph V) : Nat → String → V → Option (List (String × V))
  | 0, _, _ => none
  | fuel + 1, key, v =>
    if validKey key then
      match g v with
      | .map entries =>
        (entries.mapM fun e ↦ g.listAllMember fuel (path key (g.scalar e.1)) e.2).map fun ls ↦
          (key, v) :: ls.flatten
      | _ => some [(key, v)]
    else some []

/-- `listAllMember` returns when it is called by `loadFromYaml`. -/
def Returns (g : Graph V) (root : V) : Prop := ∃ fuel, (g.listAllMember fuel "" root).isSome = true

/-- From a map to the value of an entry with a valid key. -/
def Entry (g : Graph V) (u v : V) : Prop :=
  ∃ entries k, g u = .map entries ∧ (k, v) ∈ entries ∧ validKey (g.scalar k) = true

variable {g : Graph V} {v root : V} {fuel : Nat} {key : String}

theorem isSome_invalid (hkey : ¬ validKey key = true) :
    (g.listAllMember (fuel + 1) key v).isSome = true := by
  rw [listAllMember, if_neg hkey]
  rfl

theorem isSome_leaf (hv : ∀ entries, g v ≠ .map entries) :
    (g.listAllMember (fuel + 1) key v).isSome = true := by
  rw [listAllMember]
  split
  · split
    · rename_i entries hmap
      exact absurd hmap (hv entries)
    · rfl
  · rfl

theorem isSome_map {entries : List (V × V)} (hkey : validKey key = true) (hv : g v = .map entries) :
    (g.listAllMember (fuel + 1) key v).isSome = true ↔
      ∀ e ∈ entries, (g.listAllMember fuel (path key (g.scalar e.1)) e.2).isSome = true := by
  rw [listAllMember, if_pos hkey, hv]
  dsimp only
  rw [Option.isSome_map, Acyclic.mapM_isSome]

/-- More fuel does no harm. -/
theorem isSome_succ (h : (g.listAllMember fuel key v).isSome = true) :
    (g.listAllMember (fuel + 1) key v).isSome = true := by
  induction fuel generalizing key v with
  | zero => cases h
  | succ fuel ih =>
      by_cases hkey : validKey key = true
      · cases hv : g v with
        | map entries =>
            rw [isSome_map hkey hv] at h ⊢
            exact fun e he ↦ ih (h e he)
        | _ =>
            apply isSome_leaf
            rw [hv]
            nofun
      · exact isSome_invalid hkey

/-! ## Graphs that are trees -/

/-- The tree that a graph is, followed to a depth. -/
def unfold (g : Graph V) : Nat → V → Option Node
  | 0, _ => none
  | fuel + 1, v =>
    match g v with
    | .null => some .null
    | .scalar text => some (.scalar text)
    | .sequence items => (items.mapM (g.unfold fuel)).map .seq
    | .map entries =>
      (entries.mapM fun e ↦ (g.unfold fuel e.2).map fun n ↦ (g.scalar e.1, n)).map .map

/-- A listed node of the graph and the listed tree that it unfolds to. -/
def Matches (g : Graph V) (x : String × V) (y : String × Node) : Prop :=
  x.1 = y.1 ∧ ∃ fuel, g.unfold fuel x.2 = some y.2

theorem matches_leaf {n : Node} (hv : ∀ entries, g v ≠ .map entries) (hn : n.isMap = false)
    (h : g.unfold (fuel + 1) v = some n) :
    ∃ l, g.listAllMember (fuel + 1) key v = some l ∧
      List.Forall₂ g.Matches l (Config.listAllMember key n) := by
  by_cases hkey : validKey key = true
  · refine ⟨[(key, v)], ?_, ?_⟩
    · rw [listAllMember, if_pos hkey]
      split
      · rename_i entries hmap
        exact absurd hmap (hv entries)
      · rfl
    · rw [listAllMember_leaf hn hkey]
      exact .cons ⟨rfl, fuel + 1, h⟩ .nil
  · refine ⟨[], by rw [listAllMember, if_neg hkey], ?_⟩
    rw [listAllMember_invalid (Bool.eq_false_iff.mpr hkey)]
    exact .nil

/-- What is listed of a graph is what is listed of the tree that it unfolds to. -/
theorem listAllMember_unfold {n : Node} (h : g.unfold fuel v = some n) :
    ∃ l, g.listAllMember fuel key v = some l ∧
      List.Forall₂ g.Matches l (Config.listAllMember key n) := by
  induction fuel generalizing key v n with
  | zero => cases h
  | succ fuel ih =>
      have hunfold := h
      rw [unfold] at h
      cases hv : g v with
      | null =>
          rw [hv] at h
          cases h
          exact matches_leaf (by rw [hv]; nofun) rfl hunfold
      | scalar text =>
          rw [hv] at h
          cases h
          exact matches_leaf (by rw [hv]; nofun) rfl hunfold
      | sequence items =>
          rw [hv] at h
          rcases Option.map_eq_some_iff.mp h with ⟨elements, -, rfl⟩
          exact matches_leaf (by rw [hv]; nofun) rfl hunfold
      | map entries =>
          rw [hv] at h
          rcases Option.map_eq_some_iff.mp h with ⟨trees, htrees, rfl⟩
          by_cases hkey : validKey key = true
          · have hlists : ∃ ls,
                (entries.mapM fun e ↦ g.listAllMember fuel (path key (g.scalar e.1)) e.2) = some ls ∧
                  List.Forall₂ (List.Forall₂ g.Matches) ls
                    (trees.map fun e ↦ Config.listAllMember (path key e.1) e.2) := by
              rw [Acyclic.mapM_eq_some] at htrees
              clear hv h hunfold
              induction htrees with
              | nil => exact ⟨[], rfl, .nil⟩
              | @cons e t entries trees he _ ihs =>
                  rcases Option.map_eq_some_iff.mp he with ⟨m, hm, rfl⟩
                  have hone : ∃ l, g.listAllMember fuel (path key (g.scalar e.1)) e.2 = some l ∧
                      List.Forall₂ g.Matches l
                        (Config.listAllMember (path key (g.scalar e.1)) m) := ih hm
                  rcases hone with ⟨l, hl, hmatch⟩
                  rcases ihs with ⟨ls, hls, hmatches⟩
                  refine ⟨l :: ls, ?_, .cons hmatch hmatches⟩
                  rw [List.mapM_cons, hl, hls]
                  rfl
            rcases hlists with ⟨ls, hls, hmatches⟩
            refine ⟨(key, v) :: ls.flatten, ?_, ?_⟩
            · rw [listAllMember, if_pos hkey, hv]
              dsimp only
              rw [hls]
              rfl
            · rw [listAllMember_map hkey, List.flatMap_def]
              exact .cons ⟨rfl, fuel + 1, hunfold⟩ (List.rel_flatten hmatches)
          · refine ⟨[], by rw [listAllMember, if_neg hkey], ?_⟩
            rw [listAllMember_invalid (Bool.eq_false_iff.mpr hkey)]
            exact .nil

/-! ## When the recursion ends -/

/-- The calls below a call that returns go down a finite number of entries. -/
theorem acc_of_isSome (hkey : validKey key = true)
    (h : (g.listAllMember fuel key v).isSome = true) : Acc (Function.swap g.Entry) v := by
  induction fuel generalizing key v with
  | zero => cases h
  | succ fuel ih =>
      constructor
      rintro w ⟨entries, k, hv, hmem, hk⟩
      rw [isSome_map hkey hv] at h
      exact ih ((valid_path hkey).mpr hk) (h (k, w) hmem)

theorem isSome_of_acc (h : Acc (Function.swap g.Entry) v) :
    ∃ fuel, ∀ key, (g.listAllMember fuel key v).isSome = true := by
  induction h with
  | intro v _ ih =>
      cases hv : g v with
      | map entries =>
          have hentries : ∀ e ∈ entries, ∃ fuel, ∀ key, validKey key = true →
              (g.listAllMember fuel (path key (g.scalar e.1)) e.2).isSome = true := by
            rintro ⟨k, w⟩ hmem
            by_cases hk : validKey (g.scalar k) = true
            · rcases ih w ⟨entries, k, hv, hmem, hk⟩ with ⟨fuel, hfuel⟩
              exact ⟨fuel, fun key _ ↦ hfuel _⟩
            · -- the path is invalid from here on
              refine ⟨1, fun key hkey ↦ isSome_invalid ?_⟩
              exact mt (valid_path hkey).mp hk
          rcases Acyclic.exists_fuel (fun n e he key hkey ↦ isSome_succ (he key hkey)) hentries
            with ⟨fuel, hfuel⟩
          refine ⟨fuel + 1, fun key ↦ ?_⟩
          by_cases hkey : validKey key = true
          -- one fuel serves all entries, whatever the path to them
          · rw [isSome_map hkey hv]
            exact fun e he ↦ hfuel e he key hkey
          · exact isSome_invalid hkey
      | _ =>
          refine ⟨1, fun key ↦ isSome_leaf ?_⟩
          rw [hv]
          nofun

/-- Loading ends exactly if no cycle of entries with valid keys can be reached from the root. -/
theorem returns_iff [Finite V] :
    g.Returns root ↔ ∀ v, ReflTransGen g.Entry root v → ¬ TransGen g.Entry v v := by
  show _ ↔ Acyclic.From g.Entry root
  rw [← Acyclic.acc_iff]
  constructor
  · rintro ⟨fuel, hfuel⟩
    exact acc_of_isSome (by decide) hfuel
  · intro h
    rcases isSome_of_acc h with ⟨fuel, hfuel⟩
    exact ⟨fuel, hfuel ""⟩

/-- A document with an alias and no cycle: `{a: &x {b: 1}, c: *x}`. -/
def shared : Graph (Fin 6)
  | 0 => .map [(1, 2), (3, 2)]
  | 1 => .scalar "a"
  | 2 => .map [(4, 5)]
  | 3 => .scalar "c"
  | 4 => .scalar "b"
  | 5 => .scalar "1"

/-- The values of a map. -/
def values (g : Graph V) (v : V) : List V :=
  match g v with
  | .map entries => entries.map Prod.snd
  | _ => []

theorem mem_values {u : V} (h : g.Entry u v) : v ∈ g.values u := by
  rcases h with ⟨entries, k, hu, hmem, -⟩
  unfold values
  rw [hu]
  exact List.mem_map_of_mem hmem

theorem returns_iff_shared : shared.Returns 0 := by
  have hless : ∀ u, ∀ v ∈ shared.values u, u < v := by decide
  apply returns_iff.mpr
  intro v _ hcycle
  have hlt : ∀ u w, TransGen shared.Entry u w → u < w := by
    intro u w h
    induction h with
    | single hstep => exact hless _ _ (mem_values hstep)
    | tail _ hstep ih => exact ih.trans (hless _ _ (mem_values hstep))
  exact lt_irrefl v (hlt v v hcycle)

/-- `&x {a: *x}` -/
def knot : Graph Bool
  | true => .map [(false, true)]
  | false => .scalar "a"

/-- A map whose anchor is inside it: however deep the recursion goes, it is not at its end. -/
theorem knot_not_returns : ¬ knot.Returns true := by
  rintro ⟨fuel, hfuel⟩
  have hnone : ∀ key, validKey key = true → knot.listAllMember fuel key true = none := by
    clear hfuel
    induction fuel with
    | zero => exact fun _ _ ↦ rfl
    | succ fuel ih =>
        intro key hkey
        have hpath : validKey (path key "a") = true := (valid_path hkey).mpr (by decide)
        rw [listAllMember, if_pos hkey]
        show (List.mapM (fun e : Bool × Bool ↦
          knot.listAllMember fuel (path key (knot.scalar e.1)) e.2) [(false, true)]).map _ = none
        rw [List.mapM_cons]
        show (knot.listAllMember fuel (path key "a") true >>= _).map _ = none
        rw [ih _ hpath]
        rfl
  rw [hnone "" (by decide)] at hfuel
  cases hfuel

end Graph

end Server.Config
