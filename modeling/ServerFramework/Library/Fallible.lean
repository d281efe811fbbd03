import Mathlib.Tactic.TypeStar

/-! Taking apart computations in `Except`. -/

namespace Fallible

universe u

variable {ε ε' : Type*} {α β : Type u}

theorem bind_ok {x : Except ε α} {f : α → Except ε β} {b : β} (h : x >>= f = .ok b) :
    ∃ a, x = .ok a ∧ f a = .ok b := by
  cases x with
  | error e => simp [bind, Except.bind] at h
  | ok a => exact ⟨a, rfl, h⟩

theorem map_ok {x : Except ε α} {f : α → β} {b : β} (h : f <$> x = .ok b) :
    ∃ a, x = .ok a ∧ f a = b := by
  cases x with
  | error e => simp [Functor.map, Except.map] at h
  | ok a => exact ⟨a, rfl, Except.ok.inj h⟩

theorem mapError_ok {x : Except ε α} {f : ε → ε'} {a : α} (h : x.mapError f = .ok a) :
    x = .ok a := by
  cases x with
  | error e => cases h
  | ok b => exact congrArg _ (Except.ok.inj h)

theorem bind_error {x : Except ε α} {f : α → Except ε β} {e : ε} (h : x >>= f = .error e) :
    x = .error e ∨ ∃ a, x = .ok a ∧ f a = .error e := by
  cases x with
  | error e' =>
      obtain rfl : e' = e := by simpa [bind, Except.bind] using h
      exact .inl rfl
  | ok a => exact .inr ⟨a, rfl, h⟩

theorem map_error {x : Except ε α} {f : α → β} {e : ε} (h : f <$> x = .error e) :
    x = .error e := by
  cases x with
  | error e' =>
      obtain rfl : e' = e := by simpa [Functor.map, Except.map] using h
      rfl
  | ok a => simp [Functor.map, Except.map] at h

theorem toOption_eq_some {x : Except ε α} {a : α} (h : x.toOption = some a) : x = .ok a := by
  cases x with
  | error e => cases h
  | ok b => exact congrArg _ (Option.some.inj h)

end Fallible
