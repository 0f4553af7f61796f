import Mathlib.Logic.Function.Basic

/-!
# Exclusive ownership

Places own things: `own p = some b` says that place `p` owns `b`.  The ownership is sound if what
is owned is good and nothing is owned twice.  It stays sound when something that nobody owns is
granted, and when places give up what they own.
-/

namespace Ownership

open Function

variable {P B : Type*}

structure Sound (own : P → Option B) (good : B → Prop) : Prop where
  good : ∀ p b, own p = some b → good b
  exclusive : ∀ p q b, own p = some b → own q = some b → p = q

/-- What is owned after a grant to a place that owned nothing. -/
theorem exists_grant [DecidableEq P] {own : P → Option B} {p : P} {b c : B} (hnone : own p = none) :
    (∃ q, update own p (some b) q = some c) ↔ c = b ∨ ∃ q, own q = some c := by
  constructor
  · rintro ⟨q, hq⟩
    by_cases hqp : q = p
    · rw [hqp, update_self] at hq
      exact .inl (Option.some.inj hq).symm
    · rw [update_of_ne hqp] at hq
      exact .inr ⟨q, hq⟩
  · rintro (rfl | ⟨q, hq⟩)
    · exact ⟨p, update_self ..⟩
    · refine ⟨q, ?_⟩
      rw [update_of_ne, hq]
      rintro rfl
      rw [hnone] at hq
      cases hq

namespace Sound

variable {own own' : P → Option B} {good good' : B → Prop}

/-- A thing that nobody owns is granted. -/
theorem grant [DecidableEq P] (h : Sound own good) {b : B} (hfresh : ∀ q, own q ≠ some b)
    (hgood : ∀ c, good c → good' c) (hb : good' b) (p : P) :
    Sound (update own p (some b)) good' where
  good q c hq := by
    by_cases hqp : q = p
    · rw [hqp, update_self] at hq
      cases hq
      exact hb
    · rw [update_of_ne hqp] at hq
      exact hgood c (h.good q c hq)
  exclusive q r c hq hr := by
    by_cases hqp : q = p <;> by_cases hrp : r = p
    · rw [hqp, hrp]
    · rw [hqp, update_self] at hq
      rw [update_of_ne hrp] at hr
      cases hq
      exact absurd hr (hfresh r)
    · rw [hrp, update_self] at hr
      rw [update_of_ne hqp] at hq
      cases hr
      exact absurd hq (hfresh q)
    · rw [update_of_ne hqp] at hq
      rw [update_of_ne hrp] at hr
      exact h.exclusive q r c hq hr

/-- Places give up what they own. -/
theorem mono (h : Sound own good) (hown : ∀ p b, own' p = some b → own p = some b)
    (hgood : ∀ p b, own' p = some b → good b → good' b) : Sound own' good' where
  good p b hp := hgood p b hp (h.good p b (hown p b hp))
  exclusive p q b hp hq := h.exclusive p q b (hown p b hp) (hown q b hq)

end Sound

end Ownership
