import Mathlib.Data.List.Basic
import Mathlib.Tactic.TypeStar

/-!
# Runs of labelled transition systems

`Run R s as s'` says that the actions `as`, taken one after the other by the step relation `R`, lead
from `s` to `s'`.  Conditions on the steps of a run are conjoined to the relation, so one notion of
run serves both "any run" and "any run whose steps meet a condition".
-/

namespace Runs

variable {σ α β : Type*}

inductive Run (R : σ → α → σ → Prop) : σ → List α → σ → Prop where
  | nil (s : σ) : Run R s [] s
  | cons {s s' s'' : σ} {a : α} {as : List α} :
      R s a s' → Run R s' as s'' → Run R s (a :: as) s''

/-- The steps of `R` that meet the condition `ok` in the state before them. -/
def Guarded (R : σ → α → σ → Prop) (ok : σ → α → Prop) (s : σ) (a : α) (s' : σ) : Prop :=
  R s a s' ∧ ok s a

/-- The relation of a partial step function. -/
def Of (step : σ → α → Option σ) (s : σ) (a : α) (s' : σ) : Prop := step s a = some s'

variable {R R' : σ → α → σ → Prop} {ok : σ → α → Prop} {s s' s'' : σ} {as bs : List α}

theorem Run.append (h : Run R s as s') (h' : Run R s' bs s'') : Run R s (as ++ bs) s'' := by
  induction h with
  | nil => exact h'
  | cons hstep _ ih => exact .cons hstep (ih h')

/-- A run of two lists of actions, one after the other, passes through a state between them. -/
theorem Run.of_append (h : Run R s (as ++ bs) s'') : ∃ s', Run R s as s' ∧ Run R s' bs s'' := by
  induction as generalizing s with
  | nil => exact ⟨s, .nil s, h⟩
  | cons a as ih =>
      cases h with
      | cons hstep hrest =>
          obtain ⟨s', hfirst, hsecond⟩ := ih hrest
          exact ⟨s', .cons hstep hfirst, hsecond⟩

theorem Run.mono (hR : ∀ s a s', R s a s' → R' s a s') (h : Run R s as s') : Run R' s as s' := by
  induction h with
  | nil => exact .nil _
  | cons hstep _ ih => exact .cons (hR _ _ _ hstep) ih

theorem Run.unguard (h : Run (Guarded R ok) s as s') : Run R s as s' :=
  h.mono fun _ _ _ hs ↦ hs.1

/-- What one step preserves, a run preserves. -/
theorem Run.invariant {I : σ → Prop} (hI : ∀ s a s', I s → R s a s' → I s')
    (h : Run R s as s') (hs : I s) : I s' := by
  induction h with
  | nil => exact hs
  | cons hstep _ ih => exact ih (hI _ _ _ hs hstep)

/-- A preorder that every step from a state with the invariant respects relates both ends. -/
theorem Run.relates {I : σ → Prop} {P : σ → σ → Prop} (hrefl : ∀ s, P s s)
    (htrans : ∀ a b c, P a b → P b c → P a c) (hI : ∀ s a s', I s → R s a s' → I s')
    (hP : ∀ s a s', I s → R s a s' → P s s') (h : Run R s as s') (hs : I s) : P s s' := by
  induction h with
  | nil => exact hrefl _
  | cons hstep _ ih => exact htrans _ _ _ (hP _ _ _ hs hstep) (ih (hI _ _ _ hs hstep))

/-- What every step loses at most, a run that has it at its end had all along. -/
theorem Run.backward {Q : σ → Prop} (hQ : ∀ s a s', R s a s' → Q s' → Q s)
    (h : Run R s as s') (hs' : Q s') : Run (fun s a s' ↦ R s a s' ∧ Q s') s as s' ∧ Q s := by
  induction h with
  | nil => exact ⟨.nil _, hs'⟩
  | cons hstep _ ih =>
      obtain ⟨hrest, hmid⟩ := ih hs'
      exact ⟨.cons ⟨hstep, hmid⟩ hrest, hQ _ _ _ hstep hmid⟩

/-- If every state without `P` has a run to a state of smaller measure, one with `P` can be reached. -/
theorem exists_run_of_decreases {I P : σ → Prop} (μ : σ → Nat)
    (hI : ∀ s a s', I s → R s a s' → I s')
    (hstep : ∀ s, I s → ¬ P s → ∃ as s', Run R s as s' ∧ μ s' < μ s) (hs : I s) :
    ∃ as s', Run R s as s' ∧ P s' := by
  induction hn : μ s using Nat.strongRecOn generalizing s with
  | ind n ih =>
      by_cases hdone : P s
      · exact ⟨[], s, .nil s, hdone⟩
      · obtain ⟨as, s', hrun, hlt⟩ := hstep s hs hdone
        obtain ⟨bs, s'', hrest, hdone'⟩ := ih (μ s') (hn ▸ hlt) (hrun.invariant hI hs) rfl
        exact ⟨as ++ bs, s'', hrun.append hrest, hdone'⟩

/-- Runs a list of actions with a partial step function. -/
def exec (step : σ → α → Option σ) (s : σ) : List α → Option σ
  | [] => some s
  | a :: as => (step s a).bind fun s' ↦ exec step s' as

theorem exec_eq_some_iff {step : σ → α → Option σ} :
    exec step s as = some s' ↔ Run (Of step) s as s' := by
  induction as generalizing s with
  | nil =>
      rw [exec, Option.some_inj]
      constructor
      · rintro rfl
        exact .nil _
      · intro h
        cases h
        rfl
  | cons a as ih =>
      rw [exec, Option.bind_eq_some_iff]
      constructor
      · rintro ⟨t, ht, hrest⟩
        exact .cons ht (ih.mp hrest)
      · intro h
        cases h with
        | cons ht hrest => exact ⟨_, ht, ih.mpr hrest⟩

/-- Steps a partial function only where a decidable condition holds. -/
def checked (step : σ → α → Option σ) (ok : σ → α → Bool) (s : σ) (a : α) : Option σ :=
  if ok s a then step s a else none

/-- How often something happens along a run, from how often it does in each step. -/
def tally (step : σ → α → Option σ) (count : σ → α → Nat) (s : σ) : List α → Nat
  | [] => 0
  | a :: as =>
    count s a +
      match step s a with
      | none => 0
      | some s' => tally step count s' as

/-- What each step adds to a number and takes from it, a run does. -/
theorem tally_balance {step : σ → α → Option σ} {I : σ → Prop} {n : σ → Nat}
    {inc dec : σ → α → Nat} (hR : ∀ s a s', R s a s' → step s a = some s')
    (hI : ∀ s a s', I s → R s a s' → I s')
    (hstep : ∀ s a s', I s → R s a s' → n s + inc s a = n s' + dec s a)
    (h : Run R s as s') (hs : I s) :
    n s + tally step inc s as = n s' + tally step dec s as := by
  induction h with
  | nil => rfl
  | cons ha _ ih =>
      have hone := hstep _ _ _ hs ha
      have hrest := ih (hI _ _ _ hs ha)
      rw [tally, tally, hR _ _ _ ha]
      dsimp only
      omega

theorem tally_gain {step : σ → α → Option σ} {I : σ → Prop} {n : σ → Nat} {inc : σ → α → Nat}
    (hR : ∀ s a s', R s a s' → step s a = some s') (hI : ∀ s a s', I s → R s a s' → I s')
    (hstep : ∀ s a s', I s → R s a s' → n s + inc s a = n s') (h : Run R s as s') (hs : I s) :
    n s + tally step inc s as = n s' := by
  induction h with
  | nil => rfl
  | cons ha _ ih =>
      have hone := hstep _ _ _ hs ha
      have hrest := ih (hI _ _ _ hs ha)
      rw [tally, hR _ _ _ ha]
      dsimp only
      omega

/-- What a step that counts brings about, and every step keeps, holds after a run with such a step. -/
theorem Run.after_tally {step : σ → α → Option σ} {I Q : σ → Prop} {count : σ → α → Nat}
    (hR : ∀ s a s', R s a s' → step s a = some s') (hI : ∀ s a s', I s → R s a s' → I s')
    (hcount : ∀ s a s', I s → R s a s' → count s a ≠ 0 → Q s')
    (hQ : ∀ s a s', I s → R s a s' → Q s → Q s') (h : Run R s as s') (hs : I s)
    (hne : tally step count s as ≠ 0) : Q s' := by
  have hkeep : ∀ {t t' bs}, Run R t bs t' → I t → Q t → Q t' := by
    intro t t' bs hrun ht hq
    have hboth := hrun.invariant (I := fun t ↦ I t ∧ Q t)
      (fun s a s' hs hstep ↦ ⟨hI s a s' hs.1 hstep, hQ s a s' hs.1 hstep hs.2⟩) ⟨ht, hq⟩
    exact hboth.2
  induction h with
  | nil => exact absurd rfl hne
  | @cons t t' t'' a bs hstep hrest ih =>
      rw [tally, hR _ _ _ hstep] at hne
      have hmid := hI _ _ _ hs hstep
      by_cases hzero : count t a = 0
      · rw [hzero, Nat.zero_add] at hne
        exact ih hmid hne
      · exact hkeep hrest hmid (hcount _ _ _ hs hstep hzero)

/-- What the steps of a run put out, one after the other. -/
def trace (step : σ → α → Option σ) (out : σ → α → List β) (s : σ) : List α → List β
  | [] => []
  | a :: as =>
    out s a ++
      match step s a with
      | none => []
      | some s' => trace step out s' as

theorem filterMap_trace {γ : Type*} (f : β → Option γ) {step : σ → α → Option σ} {out : σ → α → List β}
    (s : σ) (as : List α) :
    (trace step out s as).filterMap f = trace step (fun s a ↦ (out s a).filterMap f) s as := by
  induction as generalizing s with
  | nil => rfl
  | cons a as ih =>
      rw [trace, trace, List.filterMap_append]
      cases step s a with
      | none => rfl
      | some s' => exact congrArg _ (ih s')

theorem filter_trace (p : β → Bool) {step : σ → α → Option σ} {out : σ → α → List β} (s : σ)
    (as : List α) :
    (trace step out s as).filter p = trace step (fun s a ↦ (out s a).filter p) s as := by
  simp only [← List.filterMap_eq_filter]
  exact filterMap_trace _ s as

/-- A list that every step takes from in front and adds to at its end is a queue over a whole run. -/
theorem trace_queue {step : σ → α → Option σ} {q : σ → List β} {puts takes : σ → α → List β}
    (hR : ∀ s a s', R s a s' → step s a = some s')
    (hstep : ∀ s a s', R s a s' → q s ++ puts s a = takes s a ++ q s') (h : Run R s as s') :
    q s ++ trace step puts s as = trace step takes s as ++ q s' := by
  induction h with
  | nil => rw [trace, trace, List.append_nil, List.nil_append]
  | @cons s s' s'' a as ha _ ih =>
      rw [trace, trace, hR _ _ _ ha]
      calc q s ++ (puts s a ++ trace step puts s' as)
          = takes s a ++ (q s' ++ trace step puts s' as) := by
            rw [← List.append_assoc, hstep _ _ _ ha, List.append_assoc]
        _ = takes s a ++ trace step takes s' as ++ q s'' := by rw [ih, List.append_assoc]

variable (step : σ → α → Option σ) (ok : σ → α → Bool)

theorem run_of_checked (hR : ∀ s a s', step s a = some s' → ok s a = true → R s a s')
    (h : exec (checked step ok) s as = some s') : Run R s as s' := by
  apply (exec_eq_some_iff.mp h).mono
  intro t a t' ht
  unfold Of checked at ht
  split at ht
  · rename_i hok
    exact hR t a t' ht hok
  · cases ht

/-- A run whose steps meet a condition exists once evaluating it succeeds. -/
theorem exists_run (hR : ∀ s a s', step s a = some s' → ok s a = true → R s a s') (s : σ)
    (as : List α) {P : σ → Bool} (h : (exec (checked step ok) s as).map P = some true) :
    ∃ s', Run R s as s' ∧ P s' = true := by
  obtain ⟨s', hs', hP⟩ := Option.map_eq_some_iff.mp h
  exact ⟨s', run_of_checked step ok hR hs', hP⟩

/-- The same for a run in two parts. -/
theorem exists_run_pair (hR : ∀ s a s', step s a = some s' → ok s a = true → R s a s') (s : σ)
    (as bs : List α) {P : σ → σ → Bool}
    (h : ((exec (checked step ok) s as).bind fun s' ↦
      (exec (checked step ok) s' bs).map fun s'' ↦ P s' s'') = some true) :
    ∃ s' s'', Run R s as s' ∧ Run R s' bs s'' ∧ P s' s'' = true := by
  obtain ⟨s', hs', h⟩ := Option.bind_eq_some_iff.mp h
  obtain ⟨s'', hs'', hP⟩ := Option.map_eq_some_iff.mp h
  exact ⟨s', s'', run_of_checked step ok hR hs', run_of_checked step ok hR hs'', hP⟩

end Runs
