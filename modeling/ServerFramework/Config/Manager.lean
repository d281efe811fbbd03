import ServerFramework.Library.Runs
import Mathlib.Data.Fintype.Basic
import Mathlib.Logic.Function.Basic

/-!
# `ConfigMgr::lookUp` from several threads

All members of `ConfigMgr` take the read lock, which any number of threads hold at the same time, so
the accesses to `getData()` inside the section are interleaved freely.
-/

namespace Server.Config

open Runs

/-- The characters of a name. -/
def allowed : List Char :=
  ['a', 'b', 'c', 'd', 'e', 'f', 'g', 'h', 'i', 'j', 'k', 'l', 'm', 'n', 'o', 'p', 'q', 'r',
    's', 't', 'u', 'v', 'w', 'x', 'y', 'z', '.', '_', '0', '1', '2', '3', '4', '5', '6', '7',
    '8', '9']

/-- `name.find_first_not_of("abcdefghijklmnopqrstuvwxyz._0123456789") == npos` -/
def validKey (name : String) : Bool := name.toList.all fun c ↦ allowed.contains c

/-- `std::transform` with `::tolower` -/
def tolower (name : String) : String := String.ofList (name.toList.map Char.toLower)

theorem tolower_of_valid {name : String} (h : validKey name = true) : tolower name = name := by
  have hlower : allowed.map Char.toLower = allowed := rfl
  have hchars : ∀ c ∈ allowed, c.toLower = id c :=
    List.map_inj_left.mp (hlower.trans (List.map_id _).symm)
  have hmap : name.toList.map Char.toLower = name.toList.map id := by
    apply List.map_congr_left
    intro c hc
    rw [validKey, List.all_eq_true] at h
    exact hchars c (List.contains_iff_mem.mp (h c hc))
  rw [tolower, hmap, List.map_id, String.ofList_toList]

/-- Identity of a `ConfigArg` object. -/
abbrev ArgId := Nat

/-- A `ConfigArg<T>` as `lookUp` constructs it; `Ty` are the types `T`, and `V` their values. -/
structure ArgObject (Ty : Type) (V : Ty → Type) where
  name : String
  ty : Ty
  val : V ty
  description : String

/-- The arguments of `lookUp<T>`. -/
structure Request (Ty : Type) (V : Ty → Type) where
  name : String
  ty : Ty
  defaultValue : V ty
  description : String

/-- Where a thread is in `lookUp`. -/
inductive LookUpPc (Ty : Type) (V : Ty → Type) where
  | out
  | find (r : Request Ty V)
  /-- `find` returned `end()` -/
  | create (r : Request Ty V)
  /-- before `getData()[name] = nArg` -/
  | insert (r : Request Ty V) (nArg : ArgId)

/-- What a call returned; `none` is a null pointer. -/
structure Returned (Ty : Type) where
  name : String
  ty : Ty
  result : Option ArgId
  deriving DecidableEq, Repr

/-- `ConfigMgr` with the threads `Θ` that use it. -/
structure Manager (Ty : Type) (V : Ty → Type) (Θ : Type) where
  /-- `getData()` -/
  data : String → Option ArgId
  object : ArgId → Option (ArgObject Ty V)
  nextArg : ArgId
  pc : Θ → LookUpPc Ty V
  returned : List (Returned Ty)

inductive MgrAction (Ty : Type) (V : Ty → Type) (Θ : Type) where
  /-- the lock, and the test of the name -/
  | lookUp (t : Θ) (r : Request Ty V)
  | find (t : Θ)
  | create (t : Θ)
  | insert (t : Θ)

namespace Manager

variable {Ty Θ : Type} {V : Ty → Type}

/-- Before any call. -/
def start : Manager Ty V Θ := ⟨fun _ ↦ none, fun _ ↦ none, 0, fun _ ↦ .out, []⟩

def lookUpBase (s : Manager Ty V Θ) (name : String) : Option ArgId := s.data name

variable [DecidableEq Ty] [DecidableEq Θ]

/-- `std::dynamic_pointer_cast<ConfigArg<T>>` -/
def dynamicCast (s : Manager Ty V Θ) (id : ArgId) (ty : Ty) : Option ArgId :=
  if (s.object id).map ArgObject.ty = some ty then some id else none

def setPc (s : Manager Ty V Θ) (t : Θ) (pc : LookUpPc Ty V) : Manager Ty V Θ :=
  { s with pc := Function.update s.pc t pc }

/-- Unlock and return. -/
def answer (s : Manager Ty V Θ) (t : Θ) (r : Request Ty V) (result : Option ArgId) :
    Manager Ty V Θ :=
  { s with returned := s.returned ++ [(⟨r.name, r.ty, result⟩ : Returned Ty)] }.setPc t .out

def step (s : Manager Ty V Θ) : MgrAction Ty V Θ → Option (Manager Ty V Θ)
  | .lookUp t r =>
    match s.pc t with
    -- an invalid name is an exception
    | .out => some (if validKey r.name then s.setPc t (.find r) else s)
    | _ => none
  | .find t =>
    match s.pc t with
    | .find r =>
      match s.data r.name with
      | some id => some (s.answer t r (s.dynamicCast id r.ty))
      | none => some (s.setPc t (.create r))
    | _ => none
  | .create t =>
    match s.pc t with
    | .create r =>
      some ({ s with
        object := Function.update s.object s.nextArg
          (some ⟨tolower r.name, r.ty, r.defaultValue, r.description⟩)
        nextArg := s.nextArg + 1 }.setPc t (.insert r s.nextArg))
    | _ => none
  | .insert t =>
    match s.pc t with
    | .insert r nArg =>
      some ({ s with data := Function.update s.data r.name (some nArg) }.answer t r (some nArg))
    | _ => none

/-- The name that a call found missing and has not inserted yet. -/
def missing : LookUpPc Ty V → Option String
  | .create r => some r.name
  | .insert r _ => some r.name
  | _ => none

/-- No call finds a name missing while another one that did has not inserted it. -/
def MissesAlone (s : Manager Ty V Θ) : MgrAction Ty V Θ → Prop
  | .find t =>
    match s.pc t with
    | .find r => s.data r.name = none → ∀ t', missing (s.pc t') ≠ some r.name
    | _ => True
  | _ => True

/-! ## What a step can do -/

variable {s s' : Manager Ty V Θ} {t : Θ} {r : Request Ty V}

inductive Stepped (s : Manager Ty V Θ) : MgrAction Ty V Θ → Manager Ty V Θ → Prop where
  | refused {t : Θ} {r : Request Ty V} : Stepped s (.lookUp t r) s
  | entered {t : Θ} {r : Request Ty V} :
      validKey r.name = true → Stepped s (.lookUp t r) (s.setPc t (.find r))
  | found {t : Θ} {r : Request Ty V} {id : ArgId} :
      s.pc t = .find r → s.data r.name = some id →
      Stepped s (.find t) (s.answer t r (s.dynamicCast id r.ty))
  | missed {t : Θ} {r : Request Ty V} :
      s.pc t = .find r → s.data r.name = none → Stepped s (.find t) (s.setPc t (.create r))
  | created {t : Θ} {r : Request Ty V} :
      s.pc t = .create r →
      Stepped s (.create t)
        ({ s with
          object := Function.update s.object s.nextArg
            (some ⟨tolower r.name, r.ty, r.defaultValue, r.description⟩)
          nextArg := s.nextArg + 1 }.setPc t (.insert r s.nextArg))
  | inserted {t : Θ} {r : Request Ty V} {nArg : ArgId} :
      s.pc t = .insert r nArg →
      Stepped s (.insert t)
        ({ s with data := Function.update s.data r.name (some nArg) }.answer t r (some nArg))

theorem step_cases {a : MgrAction Ty V Θ} (hs : s.step a = some s') : Stepped s a s' := by
  cases a with
  | lookUp t r =>
      simp only [step] at hs
      split at hs
      · cases hs
        split
        · rename_i hvalid
          exact .entered hvalid
        · exact .refused
      · cases hs
  | find t =>
      simp only [step] at hs
      split at hs
      · rename_i r ht
        split at hs
        · rename_i id hid
          cases hs
          exact .found ht hid
        · rename_i hnone
          cases hs
          exact .missed ht hnone
      · cases hs
  | create t =>
      simp only [step] at hs
      split at hs
      · rename_i r ht
        cases hs
        exact .created ht
      · cases hs
  | insert t =>
      simp only [step] at hs
      split at hs
      · rename_i r nArg ht
        cases hs
        exact .inserted ht
      · cases hs

/-! ## The invariant -/

/-- A missing name is inserted by one thread only, and what calls returned is what is stored. -/
structure Unique (s : Manager Ty V Θ) : Prop where
  missing : ∀ t n, missing (s.pc t) = some n → s.data n = none
  alone : ∀ t t' n, Manager.missing (s.pc t) = some n → Manager.missing (s.pc t') = some n → t = t'
  exists_object : ∀ n id, s.data n = some id → (s.object id).isSome = true
  created : ∀ t r nArg, s.pc t = .insert r nArg →
    (s.object nArg).map ArgObject.ty = some r.ty
  fresh : ∀ id, s.nextArg ≤ id → s.object id = none
  returned : ∀ r ∈ s.returned, ∃ id, s.data r.name = some id ∧ r.result = s.dynamicCast id r.ty

/-- A thread that has nothing missing any more, or not yet, and what its call returned. -/
theorem Unique.move (h : Unique s) {pc : LookUpPc Ty V} (hdata : s'.data = s.data)
    (hobject : s'.object = s.object) (hnext : s'.nextArg = s.nextArg)
    (hpc : s'.pc = Function.update s.pc t pc) (hnone : Manager.missing pc = none)
    (hreturned : ∀ r ∈ s'.returned, ∃ id, s.data r.name = some id ∧
      r.result = s.dynamicCast id r.ty) : Unique s' := by
  have hold : ∀ t' n, Manager.missing (s'.pc t') = some n → Manager.missing (s.pc t') = some n := by
    intro t' n hn
    rw [hpc] at hn
    by_cases ht : t' = t
    · rw [ht, Function.update_self, hnone] at hn
      cases hn
    · rwa [Function.update_of_ne ht] at hn
  have hcast : s'.dynamicCast = s.dynamicCast := by
    unfold dynamicCast
    rw [hobject]
  refine ⟨fun t' n hn ↦ ?_, fun t₁ t₂ n h₁ h₂ ↦ h.alone t₁ t₂ n (hold _ _ h₁) (hold _ _ h₂), ?_, ?_,
    ?_, ?_⟩
  · rw [hdata]
    exact h.missing t' n (hold t' n hn)
  · rw [hdata, hobject]
    exact h.exists_object
  · intro t' r nArg hr
    rw [hpc] at hr
    rw [hobject]
    by_cases ht : t' = t
    · rw [ht, Function.update_self] at hr
      rw [hr] at hnone
      cases hnone
    · rw [Function.update_of_ne ht] at hr
      exact h.created t' r nArg hr
  · rw [hnext, hobject]
    exact h.fresh
  · rw [hdata, hcast]
    exact hreturned

theorem Unique.answer (h : Unique s) {id : ArgId} (hid : s.data r.name = some id) :
    Unique (s.answer t r (s.dynamicCast id r.ty)) := by
  refine h.move rfl rfl rfl rfl rfl fun r' hr' ↦ ?_
  rcases List.mem_append.mp hr' with hmem | hmem
  · exact h.returned r' hmem
  · rw [List.mem_singleton.mp hmem]
    exact ⟨id, hid, rfl⟩

theorem Unique.miss (h : Unique s) (hnone : s.data r.name = none)
    (halone : ∀ t', Manager.missing (s.pc t') ≠ some r.name) : Unique (s.setPc t (.create r)) := by
  have hcases : ∀ t' n, Manager.missing ((s.setPc t (.create r)).pc t') = some n →
      t' = t ∧ n = r.name ∨ Manager.missing (s.pc t') = some n := by
    intro t' n hn
    change Manager.missing (Function.update s.pc t _ t') = some n at hn
    by_cases ht : t' = t
    · rw [ht, Function.update_self] at hn
      cases hn
      exact .inl ⟨ht, rfl⟩
    · rw [Function.update_of_ne ht] at hn
      exact .inr hn
  refine ⟨fun t' n hn ↦ ?_, fun t₁ t₂ n h₁ h₂ ↦ ?_, h.exists_object, fun t' r' nArg hr' ↦ ?_, h.fresh,
    h.returned⟩
  · rcases hcases t' n hn with ⟨-, rfl⟩ | hold
    · exact hnone
    · exact h.missing t' n hold
  · rcases hcases t₁ n h₁ with ⟨rfl, rfl⟩ | hold₁
    · rcases hcases t₂ r.name h₂ with ⟨rfl, -⟩ | hold₂
      · rfl
      · exact absurd hold₂ (halone t₂)
    · rcases hcases t₂ n h₂ with ⟨-, rfl⟩ | hold₂
      · exact absurd hold₁ (halone t₁)
      · exact h.alone t₁ t₂ n hold₁ hold₂
  · change Function.update s.pc t _ t' = _ at hr'
    by_cases ht : t' = t
    · rw [ht, Function.update_self] at hr'
      cases hr'
    · rw [Function.update_of_ne ht] at hr'
      exact h.created t' r' nArg hr'

omit [DecidableEq Θ] in
/-- An object that is there is not the next one. -/
theorem Unique.ne_next (h : Unique s) {id : ArgId} (hid : (s.object id).isSome = true) :
    id ≠ s.nextArg := by
  intro heq
  rw [heq, h.fresh _ (Nat.le_refl _)] at hid
  cases hid

theorem Unique.create (h : Unique s) (ht : s.pc t = .create r) {o : ArgObject Ty V}
    (ho : o.ty = r.ty) :
    Unique ({ s with
      object := Function.update s.object s.nextArg (some o)
      nextArg := s.nextArg + 1 }.setPc t (.insert r s.nextArg)) := by
  -- the thread goes on with the name that it found missing
  have hmissing : ∀ t', Manager.missing (Function.update s.pc t (.insert r s.nextArg) t') =
      Manager.missing (s.pc t') := by
    intro t'
    by_cases htt : t' = t
    · rw [htt, Function.update_self, ht]
      rfl
    · rw [Function.update_of_ne htt]
  have hkept : ∀ id, (s.object id).isSome = true →
      Function.update s.object s.nextArg (some o) id = s.object id := fun id hid ↦
    Function.update_of_ne (h.ne_next hid) _ _
  refine ⟨fun t' n hn ↦ h.missing t' n ((hmissing t').symm.trans hn), fun t₁ t₂ n h₁ h₂ ↦
    h.alone t₁ t₂ n ((hmissing t₁).symm.trans h₁) ((hmissing t₂).symm.trans h₂), fun n id hid ↦ ?_,
    fun t' r' nArg hr' ↦ ?_, fun id hid ↦ ?_, fun r' hr' ↦ ?_⟩
  · show (Function.update s.object s.nextArg (some o) id).isSome = true
    rw [hkept id (h.exists_object n id hid)]
    exact h.exists_object n id hid
  · show (Function.update s.object s.nextArg (some o) nArg).map ArgObject.ty = some r'.ty
    change Function.update s.pc t _ t' = _ at hr'
    by_cases htt : t' = t
    · rw [htt, Function.update_self] at hr'
      cases hr'
      rw [Function.update_self]
      exact congrArg some ho
    · rw [Function.update_of_ne htt] at hr'
      have hty := h.created t' r' nArg hr'
      have hsome : (s.object nArg).isSome = true := by
        rw [← Option.isSome_map (f := ArgObject.ty), hty]
        rfl
      rw [hkept nArg hsome]
      exact hty
  · have hlt : s.nextArg + 1 ≤ id := hid
    show Function.update s.object s.nextArg (some o) id = none
    rw [Function.update_of_ne (Nat.ne_of_gt hlt)]
    exact h.fresh id (Nat.le_of_succ_le hlt)
  · obtain ⟨id, hid, hresult⟩ := h.returned r' hr'
    refine ⟨id, hid, hresult.trans ?_⟩
    show s.dynamicCast id r'.ty =
      if (Function.update s.object s.nextArg (some o) id).map ArgObject.ty = some r'.ty then some id
      else none
    rw [hkept id (h.exists_object _ id hid)]
    rfl

theorem Unique.insert (h : Unique s) {nArg : ArgId} (ht : s.pc t = .insert r nArg) :
    Unique ({ s with data := Function.update s.data r.name (some nArg) }.answer t r (some nArg)) := by
  have hmissing : Manager.missing (s.pc t) = some r.name := by
    rw [ht]
    rfl
  have hnone := h.missing t r.name hmissing
  have hty := h.created t r nArg ht
  -- what was stored under another name stays
  have hkept : ∀ n, n ≠ r.name → Function.update s.data r.name (some nArg) n = s.data n := fun n hn ↦
    Function.update_of_ne hn _ _
  have hothers : ∀ t' n, Manager.missing (Function.update s.pc t .out t') = some n →
      t' ≠ t ∧ Manager.missing (s.pc t') = some n := by
    intro t' n hn
    by_cases htt : t' = t
    · rw [htt, Function.update_self] at hn
      cases hn
    · rw [Function.update_of_ne htt] at hn
      exact ⟨htt, hn⟩
  refine ⟨fun t' n hn ↦ ?_, fun t₁ t₂ n h₁ h₂ ↦
    h.alone t₁ t₂ n (hothers t₁ n h₁).2 (hothers t₂ n h₂).2, fun n id hid ↦ ?_,
    fun t' r' nArg' hr' ↦ ?_, h.fresh, fun r' hr' ↦ ?_⟩
  · obtain ⟨htt, hn⟩ := hothers t' n hn
    have hne : n ≠ r.name := fun heq ↦ htt (h.alone t' t n hn (heq ▸ hmissing))
    exact (hkept n hne).trans (h.missing t' n hn)
  · change Function.update s.data r.name (some nArg) n = some id at hid
    by_cases hn : n = r.name
    · rw [hn, Function.update_self] at hid
      cases hid
      show (s.object nArg).isSome = true
      rw [← Option.isSome_map (f := ArgObject.ty), hty]
      rfl
    · rw [hkept n hn] at hid
      exact h.exists_object n id hid
  · change Function.update s.pc t .out t' = _ at hr'
    by_cases htt : t' = t
    · rw [htt, Function.update_self] at hr'
      cases hr'
    · rw [Function.update_of_ne htt] at hr'
      exact h.created t' r' nArg' hr'
  · rcases List.mem_append.mp hr' with hmem | hmem
    · obtain ⟨id, hid, hresult⟩ := h.returned r' hmem
      have hne : r'.name ≠ r.name := by
        intro heq
        rw [heq, hnone] at hid
        cases hid
      exact ⟨id, (hkept _ hne).trans hid, hresult⟩
    · rw [List.mem_singleton.mp hmem]
      refine ⟨nArg, Function.update_self _ _ _, ?_⟩
      show some nArg = s.dynamicCast nArg r.ty
      rw [dynamicCast, if_pos hty]

theorem Unique.step (h : Unique s) {a : MgrAction Ty V Θ} (hok : s.MissesAlone a)
    (hs : s.step a = some s') : Unique s' := by
  cases step_cases hs with
  | refused => exact h
  | entered => exact h.move rfl rfl rfl rfl rfl h.returned
  | found _ hid => exact h.answer hid
  | missed ht hnone =>
      simp only [MissesAlone, ht] at hok
      exact h.miss hnone (hok hnone)
  | created ht => exact h.create ht rfl
  | inserted ht => exact h.insert ht

omit [DecidableEq Θ] in
theorem start_unique : Unique (start : Manager Ty V Θ) :=
  ⟨nofun, nofun, nofun, nofun, fun _ _ ↦ rfl, nofun⟩

/-- The steps in which no two calls find the same name missing at the same time. -/
def Separate : Manager Ty V Θ → MgrAction Ty V Θ → Manager Ty V Θ → Prop :=
  Guarded (Of step) MissesAlone

/-- A step replaces nothing that is stored. -/
theorem Unique.data_kept (h : Unique s) {a : MgrAction Ty V Θ} (hs : s.step a = some s')
    {n : String} {id : ArgId} (hid : s.data n = some id) : s'.data n = some id := by
  cases step_cases hs with
  | @inserted t r nArg ht =>
      have hne : n ≠ r.name := by
        rintro rfl
        rw [h.missing t r.name (by rw [ht]; rfl)] at hid
        cases hid
      exact (Function.update_of_ne hne _ _).trans hid
  | _ => exact hid

theorem run_unique {as : List (MgrAction Ty V Θ)} (h : Run Separate s as s') (hs : Unique s) :
    Unique s' :=
  h.invariant (fun _ _ _ hs hstep ↦ hs.step hstep.2 hstep.1) hs

/-- All calls with one name and type return the same argument, which is the one that is stored, and
what is stored is never replaced. -/
theorem one_argument {as bs : List (MgrAction Ty V Θ)} (h : Run Separate start as s)
    (h' : Run Separate s bs s') :
    (∀ r ∈ s.returned, ∀ r' ∈ s.returned, r.name = r'.name → r.ty = r'.ty → r.result = r'.result) ∧
      (∀ r ∈ s.returned, ∀ id, r.result = some id → s.lookUpBase r.name = some id) ∧
      ∀ n id, s.lookUpBase n = some id → s'.lookUpBase n = some id := by
  have hunique := run_unique h start_unique
  refine ⟨fun r hr r' hr' hname hty ↦ ?_, fun r hr id hid ↦ ?_, fun n id hid ↦ ?_⟩
  · obtain ⟨id, hid, hresult⟩ := hunique.returned r hr
    obtain ⟨id', hid', hresult'⟩ := hunique.returned r' hr'
    rw [hname, hid'] at hid
    cases hid
    rw [hresult, hresult', hty]
  · obtain ⟨id', hid', hresult⟩ := hunique.returned r hr
    rw [hid, dynamicCast] at hresult
    split at hresult
    · cases hresult
      exact hid'
    · cases hresult
  · have hkept : ∀ n id, s.data n = some id → s'.data n = some id :=
      h'.relates (I := Unique)
        (P := fun s s' ↦ ∀ n id, s.data n = some id → s'.data n = some id) (fun _ _ _ h ↦ h)
        (fun _ _ _ h h' n id hid ↦ h' n id (h n id hid))
        (fun _ _ _ hs hstep ↦ hs.step hstep.2 hstep.1)
        (fun _ _ _ hs hstep _ _ hid ↦ hs.data_kept hstep.1 hid) hunique
    exact hkept n id hid

/-! ## Runs on fixed inputs -/

/-- Whether a name is missing for some thread, as a test. -/
def missesAlone [Fintype Θ] (s : Manager Ty V Θ) : MgrAction Ty V Θ → Bool
  | .find t =>
    match s.pc t with
    | .find r => decide (s.data r.name = none → ∀ t', Manager.missing (s.pc t') ≠ some r.name)
    | _ => true
  | _ => true

omit [DecidableEq Ty] [DecidableEq Θ] in
theorem missesAlone_spec [Fintype Θ] {a : MgrAction Ty V Θ} (h : s.missesAlone a = true) :
    s.MissesAlone a := by
  unfold MissesAlone
  split
  · split
    · rename_i t r hr
      simp only [missesAlone, hr] at h
      exact of_decide_eq_true h
    · trivial
  · trivial

/-- An integer argument. -/
def portRequest : Request Unit fun _ ↦ Int := ⟨"system.port", (), 8080, "system port"⟩

abbrev twoThreads : Manager Unit (fun _ ↦ Int) Bool := start

/-- The second thread looks the name up after the first one has inserted it. -/
theorem one_argument_pair : ∃ s s' : Manager Unit (fun _ ↦ Int) Bool,
    Run Separate twoThreads
      [.lookUp true portRequest, .lookUp false portRequest, .find true, .create true,
        .insert true] s ∧
      Run Separate s [.find false] s' ∧
      s.returned = [⟨"system.port", (), some 0⟩] ∧ s.lookUpBase "system.port" = some 0 ∧
      s'.lookUpBase "system.port" = some 0 := by
  obtain ⟨s, s', h, h', hP⟩ := exists_run_pair (R := Separate) step missesAlone
    (fun _ _ _ hs hok ↦ ⟨hs, missesAlone_spec hok⟩) twoThreads
    [.lookUp true portRequest, .lookUp false portRequest, .find true, .create true, .insert true]
    [.find false]
    (P := fun s _ ↦ decide (s.returned = [⟨"system.port", (), some 0⟩])) (by decide +kernel)
  have hreturned : s.returned = [⟨"system.port", (), some 0⟩] := of_decide_eq_true hP
  obtain ⟨-, hstored, hkept⟩ := one_argument h h'
  have hport := hstored ⟨"system.port", (), some 0⟩ (hreturned ▸ List.mem_cons_self) 0 rfl
  exact ⟨s, s', h, h', hreturned, hport, hkept _ _ hport⟩

/-- Both threads find the name missing: the second argument replaces the first, which the other
thread has got. -/
theorem two_arguments : ∃ s : Manager Unit (fun _ ↦ Int) Bool,
    Run (Of step) twoThreads
      [.lookUp true portRequest, .lookUp false portRequest, .find true, .find false, .create true,
        .create false, .insert true, .insert false] s ∧
      s.returned = [⟨"system.port", (), some 0⟩, ⟨"system.port", (), some 1⟩] ∧
      s.lookUpBase "system.port" = some 1 := by
  obtain ⟨s, h, hP⟩ := exists_run (R := Of step) step (fun _ _ ↦ true) (fun _ _ _ hs _ ↦ hs)
    twoThreads
    [.lookUp true portRequest, .lookUp false portRequest, .find true, .find false, .create true,
      .create false, .insert true, .insert false]
    (P := fun s ↦ decide (s.returned =
      [⟨"system.port", (), some 0⟩, ⟨"system.port", (), some 1⟩] ∧
        s.lookUpBase "system.port" = some 1)) (by decide +kernel)
  obtain ⟨hreturned, hbase⟩ := of_decide_eq_true hP
  exact ⟨s, h, hreturned, hbase⟩

end Manager

end Server.Config
