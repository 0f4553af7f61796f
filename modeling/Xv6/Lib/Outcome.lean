import Mathlib.Logic.Function.Basic

/-!
# Results of computations that may fail

Calls one after the other, with `Except.bind` and `Except.map`; and computations that end with a
property, or with an error that is not a bad one.
-/

namespace Outcome

variable {ε α β : Type*} {bad : ε → Prop} {P : α → Prop} {x : Except ε α}

@[simp] theorem ok_bind (a : α) (f : α → Except ε β) : (Except.ok a).bind f = f a := rfl

/-- A sequence of computations returns when each of them does. -/
theorem bind_eq_ok.{u, v} {ε : Type u} {α β : Type v} {x : Except ε α} {f : α → Except ε β}
    {b : β} :
    (x >>= f) = .ok b ↔ ∃ a, x = .ok a ∧ f a = .ok b := by
  cases x with
  | error e => exact ⟨nofun, nofun⟩
  | ok a => exact ⟨fun h => ⟨a, rfl, h⟩, fun ⟨_, ha, h⟩ => by cases ha; exact h⟩

theorem map_eq_ok {f : α → β} {b : β} : x.map f = .ok b ↔ ∃ a, x = .ok a ∧ f a = b := by
  cases x with
  | error e => exact ⟨nofun, nofun⟩
  | ok a =>
    constructor
    · intro h
      cases h
      exact ⟨a, rfl, rfl⟩
    · rintro ⟨_, ha, rfl⟩
      cases ha
      rfl

theorem toOption_eq_some {a : α} : x.toOption = some a ↔ x = .ok a := by
  cases x with
  | error e => exact ⟨nofun, nofun⟩
  | ok b => exact ⟨fun h => by cases h; rfl, fun h => by cases h; rfl⟩

theorem mapError_eq_ok {ε' : Type*} {f : ε → ε'} {a : α} : x.mapError f = .ok a ↔ x = .ok a := by
  cases x with
  | error e => exact ⟨nofun, nofun⟩
  | ok b => exact ⟨fun h => by cases h; rfl, fun h => by cases h; rfl⟩

/-- The result has property `P`, or the error is not bad. -/
def Safe (bad : ε → Prop) (P : α → Prop) : Except ε α → Prop
  | .ok a => P a
  | .error e => ¬ bad e

namespace Safe

theorem bind {Q : β → Prop} {f : α → Except ε β} (h : Safe bad P x)
    (hf : ∀ a, P a → Safe bad Q (f a)) : Safe bad Q (x.bind f) := by
  cases x with
  | error e => exact h
  | ok a => exact hf a h

theorem map {Q : β → Prop} {f : α → β} (h : Safe bad P x) (hf : ∀ a, P a → Q (f a)) :
    Safe bad Q (x.map f) := by
  cases x with
  | error e => exact h
  | ok a => exact hf a h

theorem mono {Q : α → Prop} (h : Safe bad P x) (hPQ : ∀ a, P a → Q a) : Safe bad Q x := by
  cases x with
  | error e => exact h
  | ok a => exact hPQ a h

end Safe

end Outcome
