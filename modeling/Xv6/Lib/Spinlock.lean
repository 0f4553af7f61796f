import Mathlib.Logic.Function.Basic
import Mathlib.Tactic.SplitIfs

/-!
# Spinlocks

A family of spinlocks, each with the processor that holds it, if any.  `acquire` is not enabled
while the lock is held, `release` only for the holder.

A program says at each of its positions which locks a processor holds there.  `Consistent`
relates that to the locks themselves; it is kept by a step that takes or gives back the lock
which the new position has more, or less, than the old one.
-/

namespace Spinlock

open Function

variable {L C : Type*} [DecidableEq L]

/-- Take a free lock. -/
def acquire (lock : L → Option C) (c : C) (l : L) : Option (L → Option C) :=
  if (lock l).isNone then some (update lock l (some c)) else none

/-- Give back a lock that `c` holds. -/
def release [DecidableEq C] (lock : L → Option C) (c : C) (l : L) : Option (L → Option C) :=
  if lock l = some c then some (update lock l none) else none

omit [DecidableEq L] in
/-- The locks are held as `held` says. -/
def Consistent (lock : L → Option C) (held : C → L → Prop) : Prop :=
  ∀ c l, lock l = some c ↔ held c l

namespace Consistent

variable {lock lock' : L → Option C} {held held' : C → L → Prop} {c : C} {l : L}

section

variable (h : Consistent lock held)

include h

omit [DecidableEq L] in
/-- Two processors never hold the same lock. -/
theorem exclusive {c' : C} (hc : held c l) (hc' : held c' l) : c = c' := by
  have h1 := (h c l).2 hc
  have h2 := (h c' l).2 hc'
  exact Option.some.inj (h1.symm.trans h2)

omit [DecidableEq L] in
theorem congr (hheld : ∀ c l, held' c l ↔ held c l) :
    Consistent lock held' := fun c l => (h c l).trans (hheld c l).symm

/-- A lock that is taken was held by nobody. -/
theorem free (ha : acquire lock c l = some lock') (c' : C) : ¬ held c' l := by
  intro hc'
  unfold acquire at ha
  split_ifs at ha with hnone
  rw [(h c' l).2 hc'] at hnone
  cases hnone

theorem acquire (ha : acquire lock c l = some lock') (hself : ∀ l', held' c l' ↔ l' = l ∨ held c l')
    (hother : ∀ c', c' ≠ c → ∀ l', held' c' l' ↔ held c' l') : Consistent lock' held' := by
  have hfree := h.free ha
  unfold Spinlock.acquire at ha
  split_ifs at ha
  cases ha
  intro c' l'
  by_cases hl : l' = l
  · subst hl
    rw [update_self]
    by_cases hc : c' = c
    · subst hc
      simp [hself]
    · have hne : held' c' l' ↔ False := (hother c' hc l').trans (iff_false_intro (hfree c'))
      simp [hne, Ne.symm hc]
  · rw [update_of_ne hl, h c' l']
    by_cases hc : c' = c
    · subst hc
      simp [hself, hl]
    · exact (hother c' hc l').symm

theorem release [DecidableEq C] (hr : release lock c l = some lock')
    (hself : ∀ l', held' c l' ↔ l' ≠ l ∧ held c l')
    (hother : ∀ c', c' ≠ c → ∀ l', held' c' l' ↔ held c' l') : Consistent lock' held' := by
  unfold Spinlock.release at hr
  split_ifs at hr with hheld
  cases hr
  intro c' l'
  by_cases hl : l' = l
  · subst hl
    rw [update_self]
    by_cases hc : c' = c
    · subst hc
      simp [hself]
    · have hne : ¬ held' c' l' := fun hc' =>
        hc (h.exclusive ((hother c' hc l').1 hc') ((h c l').1 hheld))
      simp [hne]
  · rw [update_of_ne hl, h c' l']
    by_cases hc : c' = c
    · subst hc
      simp [hself, hl]
    · exact (hother c' hc l').symm

end

end Consistent

end Spinlock
