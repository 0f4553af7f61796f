import Mathlib.Data.BitVec

/-!
# Ring buffers with free-running indices

A buffer of `cap` cells with a read index `r` and a write index `w`, both machine words that are
only ever incremented and wrap around at `2 ^ n`; a cell is found modulo `cap`.  `Holds` says which
list the buffer holds.  It is kept by `push`, `pop` and the removal of the last element, and it
decides the comparisons of the indices that programs make.

The capacity divides `2 ^ n`, so that the cell does not depend on wrap-around, and is smaller than
`2 ^ n`, so that a full buffer differs from an empty one.
-/

namespace Ring

open List BitVec Function

variable {α : Type*} {n cap : ℕ} {buf : ℕ → α} {r w : BitVec n} {xs : List α} {x : α}

/-- The buffer holds `xs` from index `r` to index `w`. -/
structure Holds (cap : ℕ) (buf : ℕ → α) (r w : BitVec n) (xs : List α) : Prop where
  length_le : xs.length ≤ cap
  stop : w = r + BitVec.ofNat n xs.length
  cell : ∀ k (hk : k < xs.length), buf ((r.toNat + k) % cap) = xs[k]

theorem holds_nil (r : BitVec n) : Holds cap buf r r [] where
  length_le := Nat.zero_le cap
  stop := by simp
  cell _ hk := absurd hk (Nat.not_lt_zero _)

/-- The cell of an index does not depend on wrap-around. -/
theorem toNat_mod (hcap : cap ∣ 2 ^ n) (r : BitVec n) (k : ℕ) :
    (r + BitVec.ofNat n k).toNat % cap = (r.toNat + k) % cap := by
  rw [toNat_add, toNat_ofNat, Nat.mod_mod_of_dvd _ hcap, Nat.add_mod,
    Nat.mod_mod_of_dvd _ hcap, ← Nat.add_mod]

/-- Two cells of one lap are different. -/
theorem cell_ne {a j k : ℕ} (hjk : j < k) (hk : k < j + cap) : (a + j) % cap ≠ (a + k) % cap := by
  intro heq
  have hmod : a + j ≡ a + k [MOD cap] := heq
  have hjk' : j ≡ k [MOD cap] := Nat.ModEq.add_left_cancel' a hmod
  have hdvd : cap ∣ k - j := (Nat.modEq_iff_dvd' hjk.le).1 hjk'
  have hle := Nat.le_of_dvd (Nat.sub_pos_of_lt hjk) hdvd
  omega

namespace Holds

section

variable (h : Holds cap buf r w xs) (hcap : cap < 2 ^ n)

include h hcap

theorem toNat_sub : (w - r).toNat = xs.length := by
  have hle := h.length_le
  rw [h.stop, add_comm, BitVec.add_sub_cancel, toNat_ofNat, Nat.mod_eq_of_lt (by omega)]

/-- The comparison of the indices for a given number of elements. -/
theorem stop_eq_iff {m : ℕ} (hm : m ≤ cap) : w = r + BitVec.ofNat n m ↔ xs.length = m := by
  constructor
  · intro hw
    have hsub := h.toNat_sub hcap
    rw [hw, add_comm, BitVec.add_sub_cancel, toNat_ofNat,
      Nat.mod_eq_of_lt (by omega)] at hsub
    exact hsub.symm
  · rintro rfl
    exact h.stop

theorem empty_iff : r = w ↔ xs = [] := by
  have hzero := h.stop_eq_iff hcap (Nat.zero_le cap)
  rw [BitVec.add_zero] at hzero
  rw [eq_comm, hzero, length_eq_zero_iff]

end

/-- An element is added at the end. -/
theorem push (h : Holds cap buf r w xs) (hcap : cap ∣ 2 ^ n) (hlt : xs.length < cap) (x : α) :
    Holds cap (update buf (w.toNat % cap) x) r (w + 1) (xs ++ [x]) := by
  have hw : w.toNat % cap = (r.toNat + xs.length) % cap := by
    rw [h.stop, toNat_mod hcap]
  refine ⟨?_, ?_, fun k hk => ?_⟩
  · rw [length_append, length_singleton]
    exact hlt
  · have hone : BitVec.ofNat n (xs.length + 1) = BitVec.ofNat n xs.length + 1 :=
      ofNat_add xs.length 1
    rw [length_append, length_singleton, hone, ← BitVec.add_assoc, ← h.stop]
  · rw [length_append, length_singleton] at hk
    rw [hw]
    rcases Nat.lt_succ_iff_lt_or_eq.1 hk with hlast | rfl
    · have hne : (r.toNat + k) % cap ≠ (r.toNat + xs.length) % cap := cell_ne hlast (by omega)
      rw [update_of_ne hne, getElem_append_left hlast]
      exact h.cell k hlast
    · rw [update_self, getElem_concat_length rfl]

/-- The elements up to an index in between. -/
theorem left {ys : List α} (h : Holds cap buf r w (xs ++ ys)) :
    Holds cap buf r (r + BitVec.ofNat n xs.length) xs where
  length_le := by
    have hle := h.length_le
    rw [length_append] at hle
    omega
  stop := rfl
  cell k hk := by
    have hlt : k < (xs ++ ys).length := by
      rw [length_append]
      omega
    rw [h.cell k hlt, getElem_append_left hk]

theorem stop_sub_one (h : Holds cap buf r w (xs ++ [x])) :
    w - 1 = r + BitVec.ofNat n xs.length := by
  have hone : BitVec.ofNat n (xs.length + 1) = BitVec.ofNat n xs.length + 1 :=
    ofNat_add xs.length 1
  rw [h.stop, length_append, length_singleton, hone, ← BitVec.add_assoc,
    BitVec.add_sub_cancel]

/-- The first element is at the read index. -/
theorem first (h : Holds cap buf r w (x :: xs)) : buf (r.toNat % cap) = x :=
  h.cell 0 (Nat.succ_pos _)

/-- The first element is removed. -/
theorem pop (h : Holds cap buf r w (x :: xs)) (hcap : cap ∣ 2 ^ n) :
    Holds cap buf (r + 1) w xs := by
  have hle : xs.length + 1 ≤ cap := h.length_le
  refine ⟨by omega, ?_, fun k hk => ?_⟩
  · have hone : BitVec.ofNat n (xs.length + 1) = 1 + BitVec.ofNat n xs.length := by
      rw [Nat.add_comm]
      exact ofNat_add 1 xs.length
    rw [h.stop, length_cons, hone, BitVec.add_assoc]
  · have hcell := h.cell (k + 1) (Nat.succ_lt_succ hk)
    have hnext : ((r + 1).toNat + k) % cap = (r.toNat + (k + 1)) % cap := by
      rw [Nat.add_mod, show (r + 1 : BitVec n) = r + BitVec.ofNat n 1 from rfl, toNat_mod hcap,
        ← Nat.add_mod]
      congr 1
      omega
    rw [hnext, hcell, getElem_cons_succ]

/-- The last element is before the write index. -/
theorem last (h : Holds cap buf r w (xs ++ [x])) (hcap : cap ∣ 2 ^ n) :
    buf ((w - 1).toNat % cap) = x := by
  have hw : w - 1 = r + BitVec.ofNat n xs.length := h.stop_sub_one
  rw [hw, toNat_mod hcap, h.cell xs.length (by simp), getElem_concat_length rfl]

/-- The last element is removed. -/
theorem dropLast (h : Holds cap buf r w (xs ++ [x])) : Holds cap buf r (w - 1) xs := by
  rw [h.stop_sub_one]
  exact h.left

end Holds

end Ring
