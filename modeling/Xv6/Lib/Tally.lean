import Mathlib.Algebra.BigOperators.Ring.Finset
import Mathlib.Algebra.Order.BigOperators.Group.Finset
import Mathlib.Data.Fintype.BigOperators

/-!
# Tallies

A counter is kept beside a family of places that contribute to it, as a reference count is beside
the pointers it counts.  `tally` adds up the contributions; `tally_update` says how it moves when
one place changes, which is what a single step of a program does.

Contributions may be negative: a place may hold a pointer that has not been counted yet, or that
is no longer counted.  `claims_le` bounds such debts by the pointers they belong to.
-/

namespace Tally

open Function Finset

variable {κ τ α β : Type*}

/-- One for the object that `v` points to. -/
def ind [DecidableEq α] (v : Option α) (a : α) : ℤ := if v = some a then 1 else 0

section

variable [DecidableEq α] {a b : α} {v : Option α}

attribute [congr] ind.congr_simp

@[simp] theorem ind_none : ind none a = 0 := rfl

@[simp] theorem ind_self : ind (some a) a = 1 := by simp [ind]

theorem ind_some : ind (some a) b = if a = b then 1 else 0 := by simp [ind]

theorem ind_nonneg : 0 ≤ ind v a := by
  unfold ind
  split_ifs <;> decide

/-- Counting one reference more. -/
theorem update_succ (n : α → ℤ) (a b : α) : update n a (n a + 1) b = n b + ind (some a) b := by
  by_cases h : b = a
  · subst h
    simp
  · simp [ind, h, Ne.symm h]

/-- Counting one reference less. -/
theorem update_pred (n : α → ℤ) (a b : α) : update n a (n a - 1) b = n b - ind (some a) b := by
  by_cases h : b = a
  · subst h
    simp
  · simp [ind, h, Ne.symm h]

theorem cast_update_succ (n : α → ℕ) (a b : α) :
    (update n a (n a + 1) b : ℤ) = n b + ind (some a) b := by
  by_cases h : b = a
  · subst h
    simp
  · simp [ind, h, Ne.symm h]

theorem cast_update_pred {n : α → ℕ} {a : α} (hpos : 0 < n a) (b : α) :
    (update n a (n a - 1) b : ℤ) = n b - ind (some a) b := by
  by_cases h : b = a
  · subst h
    rw [update_self, ind_self]
    omega
  · simp [ind, h, Ne.symm h]

end

/-- What all the places contribute. -/
def tally [Fintype κ] (p : κ → β) (g : β → ℤ) : ℤ := ∑ k, g (p k)

variable [Fintype κ]

theorem tally_update [DecidableEq κ] (p : κ → β) (g : β → ℤ) (k : κ) (b : β) :
    tally (update p k b) g = tally p g + (g b - g (p k)) := by
  have hnew := sum_erase_add univ (fun i => g (update p k b i))
    (mem_univ k)
  have hold := sum_erase_add univ (fun i => g (p i)) (mem_univ k)
  have hrest : ∑ i ∈ univ.erase k, g (update p k b i) =
      ∑ i ∈ univ.erase k, g (p i) :=
    sum_congr rfl fun i hi => by rw [update_of_ne (ne_of_mem_erase hi)]
  simp only [update_self] at hnew
  unfold tally
  omega

theorem tally_nonneg {p : κ → β} {g : β → ℤ} (h : ∀ k, 0 ≤ g (p k)) : 0 ≤ tally p g :=
  sum_nonneg fun k _ => h k

theorem tally_eq_zero {p : κ → β} {g : β → ℤ} (h : ∀ k, g (p k) = 0) : tally p g = 0 :=
  sum_eq_zero fun k _ => h k

theorem tally_sub (p : κ → β) (g g' : β → ℤ) :
    tally p (fun b => g b - g' b) = tally p g - tally p g' :=
  sum_sub_distrib _ _

/-- A place that contributes keeps the tally positive. -/
theorem one_le_tally {p : κ → β} {g : β → ℤ} (h : ∀ k, 0 ≤ g (p k)) {k : κ}
    (hk : 1 ≤ g (p k)) : 1 ≤ tally p g :=
  hk.trans (single_le_sum (fun i _ => h i) (mem_univ k))

section

variable [Fintype τ] [DecidableEq α] {p : κ → Option α} {q : τ → Option α} {a : α}

/-- If every debtor for `a` has a pointer to `a` of its own, there are as many pointers as
debtors. -/
theorem claims_le (claim : τ → Option κ)
    (hclaim : ∀ t, q t = some a → ∃ k, claim t = some k ∧ p k = some a)
    (hinj : ∀ t t' k, q t = some a → q t' = some a → claim t = some k → claim t' = some k →
      t = t') : tally q (ind · a) ≤ tally p (ind · a) := by
  classical
  simp only [tally, ind, sum_boole]
  refine Int.ofNat_le.2 ?_
  rcases isEmpty_or_nonempty κ with hempty | ⟨⟨u⟩⟩
  · have hnone : ∀ t, q t ≠ some a := fun t ht => hempty.elim (hclaim t ht).choose
    simp [hnone]
  · refine card_le_card_of_injOn (fun t => (claim t).getD u) ?_ ?_
    · intro t ht
      obtain ⟨k, hk, hpk⟩ := hclaim t (mem_filter.1 ht).2
      simpa [hk] using hpk
    · intro t ht t' ht' heq
      have hqt := (mem_filter.1 ht).2
      have hqt' := (mem_filter.1 ht').2
      obtain ⟨k, hk, -⟩ := hclaim t hqt
      obtain ⟨k', hk', -⟩ := hclaim t' hqt'
      simp only [hk, hk', Option.getD_some] at heq
      exact hinj t t' k hqt hqt' hk (heq ▸ hk')

/-- A pointer that no debtor claims is one more. -/
theorem claims_lt (claim : τ → Option κ)
    (hclaim : ∀ t, q t = some a → ∃ k, claim t = some k ∧ p k = some a)
    (hinj : ∀ t t' k, q t = some a → q t' = some a → claim t = some k → claim t' = some k →
      t = t') {u : κ} (hu : p u = some a) (hfree : ∀ t, q t = some a → claim t ≠ some u) :
    tally q (ind · a) + 1 ≤ tally p (ind · a) := by
  -- one more debtor, who claims that pointer
  have h := claims_le (q := fun t : Option τ => t.elim (some a) q) (p := p) (a := a)
    (fun t => t.elim (some u) claim) ?_ ?_
  · rw [tally, Fintype.sum_option, add_comm] at h
    simpa [tally] using h
  · rintro (_ | t) ht
    · exact ⟨u, rfl, hu⟩
    · exact hclaim t ht
  · rintro (_ | t) (_ | t') k ht ht' hk hk'
    · rfl
    · cases hk
      exact absurd hk' (hfree t' ht')
    · cases hk'
      exact absurd hk (hfree t ht)
    · rw [hinj t t' k ht ht' hk hk']

end

end Tally
