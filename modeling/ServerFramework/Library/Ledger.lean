import ServerFramework.Library.Runs
import Mathlib.Data.List.Nodup

/-!
# Ledgers of a store

A store takes items in, and lets them go in one of two ways.  The ledger of a run lists what was
accepted, handed over and discarded along it; it balances when every item is accounted for once.
-/

open Runs

structure Ledger (β : Type*) where
  accepted : List β
  handed : List β
  discarded : List β
  deriving DecidableEq, Repr

namespace Ledger

variable {σ α β : Type*}

def empty : Ledger β := ⟨[], [], []⟩

def add (L M : Ledger β) : Ledger β :=
  ⟨L.accepted ++ M.accepted, L.handed ++ M.handed, L.discarded ++ M.discarded⟩

/-- Everything stored before or accepted was handed over, was discarded or is stored. -/
def Balances (before : List β) (L : Ledger β) (after : List β) : Prop :=
  (before ++ L.accepted).Perm (L.handed ++ L.discarded ++ after)

theorem Balances.empty (l : List β) : Balances l .empty l := by
  unfold Balances Ledger.empty
  rw [List.append_nil]
  exact .refl _

theorem Balances.add {a b c : List β} {L M : Ledger β} (h : Balances a L b) (h' : Balances b M c) :
    Balances a (L.add M) c := by
  classical
  unfold Balances Ledger.add at *
  rw [List.perm_iff_count] at *
  intro x
  have hx := h x
  have hx' := h' x
  simp only [List.count_append] at *
  omega

/-- What was there before and is not afterwards. -/
def gone [DecidableEq β] (before after : List β) : List β := before.filter fun x ↦ x ∉ after

theorem perm_gone [DecidableEq β] {before after : List β} (hb : before.Nodup) (ha : after.Nodup)
    (hsub : ∀ x ∈ after, x ∈ before) : before.Perm (gone before after ++ after) := by
  have hdisj : (gone before after ++ after).Nodup := by
    apply List.Nodup.append (hb.filter _) ha
    intro x hx hx'
    exact of_decide_eq_true (List.mem_filter.mp hx).2 hx'
  rw [List.perm_ext_iff_of_nodup hb hdisj]
  intro x
  simp only [gone, List.mem_append, List.mem_filter, decide_eq_true_eq]
  constructor
  · intro hx
    by_cases hx' : x ∈ after
    · exact .inr hx'
    · exact .inl ⟨hx, hx'⟩
  · rintro (⟨hx, -⟩ | hx)
    · exact hx
    · exact hsub x hx

/-- A list of lists of which only one is not empty. -/
theorem flatMap_eq_of_single {l : List α} {f : α → List β} {a : α} (hnd : l.Nodup) (ha : a ∈ l)
    (h : ∀ b ∈ l, b ≠ a → f b = []) : l.flatMap f = f a := by
  induction l with
  | nil => cases ha
  | cons x xs ih =>
      obtain ⟨hx, hnd⟩ := List.nodup_cons.mp hnd
      rw [List.flatMap_cons]
      rcases List.mem_cons.mp ha with rfl | ha
      · have hnil : xs.flatMap f = [] := List.flatMap_eq_nil_iff.mpr fun b hb ↦
          h b (List.mem_cons_of_mem _ hb) fun hba ↦ hx (hba ▸ hb)
        rw [hnil, List.append_nil]
      · have hfx : f x = [] := h x List.mem_cons_self fun hxa ↦ hx (hxa ▸ ha)
        rw [hfx, List.nil_append]
        exact ih hnd ha fun b hb ↦ h b (List.mem_cons_of_mem _ hb)

/-- The ledger of a run, from what each step records. -/
def totals (step : σ → α → Option σ) (record : σ → α → σ → Ledger β) (s : σ) :
    List α → Ledger β
  | [] => .empty
  | a :: as =>
    match step s a with
    | none => .empty
    | some s' => (record s a s').add (totals step record s' as)

/-- What each step's record satisfies and what adding records preserves holds of the totals. -/
theorem totals_relates {step : σ → α → Option σ} {record : σ → α → σ → Ledger β}
    {R : σ → α → σ → Prop} {I : σ → Prop} {P : σ → Ledger β → σ → Prop}
    (hR : ∀ s a s', R s a s' → step s a = some s') (hI : ∀ s a s', I s → R s a s' → I s')
    (hempty : ∀ s, P s .empty s) (hadd : ∀ a b c L M, P a L b → P b M c → P a (L.add M) c)
    (hstep : ∀ s a s', I s → R s a s' → P s (record s a s') s') {s s' : σ} {as : List α}
    (h : Run R s as s') (hs : I s) : P s (totals step record s as) s' := by
  induction h with
  | nil => exact hempty _
  | cons ha _ ih =>
      rw [totals, hR _ _ _ ha]
      exact hadd _ _ _ _ _ (hstep _ _ _ hs ha) (ih (hI _ _ _ hs ha))

end Ledger
