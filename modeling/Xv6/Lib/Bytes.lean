import Mathlib.Data.BitVec

/-!
# Fields in a sequence of bytes

A store is a sequence of bytes `ℕ → BitVec 8`.  `peek` reads a number from consecutive bytes, least
significant first, and `poke` stores one; `pokes` stores an array of 32-bit words.  `bit`, `setBit`
and `clearBit` treat the store as a bitmap.

A read after a write is the value written if the fields are the same, and the old value if they do
not overlap.
-/

namespace Bytes

open BitVec Function

variable {b b' : ℕ → BitVec 8} {o o' n n' v i : ℕ}

/-! ### Numbers -/

/-- The number in the `n` bytes from `o` on. -/
def peek (b : ℕ → BitVec 8) (o : ℕ) : ℕ → ℕ
  | 0 => 0
  | n + 1 => (b o).toNat + 256 * peek b (o + 1) n

/-- Store the number `v` in the `n` bytes from `o` on. -/
def poke (b : ℕ → BitVec 8) (o n v : ℕ) : ℕ → BitVec 8 := fun i =>
  if o ≤ i ∧ i < o + n then BitVec.ofNat 8 (v / 256 ^ (i - o)) else b i

theorem peek_congr (h : ∀ i, o ≤ i → i < o + n → b i = b' i) : peek b o n = peek b' o n := by
  induction n generalizing o with
  | zero => rfl
  | succ n ih =>
    rw [peek, peek, h o le_rfl (by omega), ih fun i hi hn => h i (by omega) (by omega)]

theorem poke_of_lt (h : i < o) : poke b o n v i = b i := if_neg (by omega)

theorem poke_of_le (h : o + n ≤ i) : poke b o n v i = b i := if_neg (by omega)

/-- A number that fits into the field is read back. -/
theorem peek_poke (hv : v < 256 ^ n) : peek (poke b o n v) o n = v := by
  induction n generalizing o v with
  | zero =>
    rw [pow_zero] at hv
    simp only [peek]
    omega
  | succ n ih =>
    have hrest : peek (poke b o (n + 1) v) (o + 1) n = v / 256 := by
      have hv' : v / 256 < 256 ^ n := by
        rw [Nat.pow_succ] at hv
        omega
      rw [← ih (o := o + 1) hv']
      refine peek_congr fun i hi hn => ?_
      have hexp : i - o = (i - (o + 1)) + 1 := by omega
      rw [poke, poke, if_pos (by omega), if_pos (by omega), hexp, Nat.pow_succ',
        Nat.div_div_eq_div_mul]
    rw [peek, hrest, poke, if_pos (by omega), Nat.sub_self, pow_zero, Nat.div_one, toNat_ofNat]
    omega

/-- A field that does not overlap keeps its value. -/
theorem peek_poke_of_disjoint (h : o' + n' ≤ o ∨ o + n ≤ o') :
    peek (poke b o n v) o' n' = peek b o' n' := by
  refine peek_congr fun i hi hn => ?_
  rcases h with h | h
  · exact poke_of_lt (by omega)
  · exact poke_of_le (by omega)

/-! ### Words -/

/-- The 32-bit word at `o`. -/
def word (b : ℕ → BitVec 8) (o : ℕ) : BitVec 32 := BitVec.ofNat 32 (peek b o 4)

/-- Store an array of words from `o` on. -/
def pokes {m : ℕ} (b : ℕ → BitVec 8) (o : ℕ) (f : Fin m → BitVec 32) : ℕ → BitVec 8 := fun i =>
  if h : o ≤ i ∧ (i - o) / 4 < m then
    BitVec.ofNat 8 ((f ⟨(i - o) / 4, h.2⟩).toNat / 256 ^ ((i - o) % 4))
  else b i

theorem word_congr (h : ∀ i, o ≤ i → i < o + 4 → b i = b' i) : word b o = word b' o := by
  rw [word, word, peek_congr h]

theorem word_poke (w : BitVec 32) : word (poke b o 4 w.toNat) o = w := by
  rw [word, peek_poke (by have := w.isLt; omega), ofNat_toNat, setWidth_eq]

theorem word_poke_of_disjoint (h : o' + 4 ≤ o ∨ o + n ≤ o') :
    word (poke b o n v) o' = word b o' := by
  rw [word, word, peek_poke_of_disjoint h]

theorem word_pokes {m : ℕ} (f : Fin m → BitVec 32) (j : Fin m) :
    word (pokes b o f) (o + 4 * j) = f j := by
  rw [← word_poke (b := pokes b o f) (o := o + 4 * j) (f j)]
  refine word_congr fun i hi hn => ?_
  have hj : (i - o) / 4 = j := by omega
  have hm : o ≤ i ∧ (i - o) / 4 < m := ⟨by omega, by rw [hj]; exact j.isLt⟩
  have hfin : (⟨(i - o) / 4, hm.2⟩ : Fin m) = j := Fin.ext hj
  rw [poke, if_pos ⟨hi, hn⟩, pokes, dif_pos hm, hfin]
  congr 3
  omega

theorem pokes_of_lt {m : ℕ} {f : Fin m → BitVec 32} (h : i < o) : pokes b o f i = b i :=
  dif_neg (by omega)

theorem pokes_of_le {m : ℕ} {f : Fin m → BitVec 32} (h : o + 4 * m ≤ i) : pokes b o f i = b i :=
  dif_neg (by omega)

/-! ### Bitmaps -/

/-- Bit `k` of the bitmap is set: `b[k/8] & (1 << (k % 8))` is not 0. -/
def bit (b : ℕ → BitVec 8) (k : ℕ) : Bool := b (k / 8) &&& 1#8 <<< (k % 8) != 0#8

/-- `b[k/8] |= 1 << (k % 8)`. -/
def setBit (b : ℕ → BitVec 8) (k : ℕ) : ℕ → BitVec 8 :=
  update b (k / 8) (b (k / 8) ||| 1#8 <<< (k % 8))

/-- `b[k/8] &= ~(1 << (k % 8))`. -/
def clearBit (b : ℕ → BitVec 8) (k : ℕ) : ℕ → BitVec 8 :=
  update b (k / 8) (b (k / 8) &&& ~~~(1#8 <<< (k % 8)))

theorem and_shift_ne_zero (x : BitVec 8) {k : ℕ} (hk : k < 8) :
    (x &&& 1#8 <<< k != 0#8) = x.getLsbD k := by
  have hall : ∀ k : Fin 8, ∀ x : BitVec 8, (x &&& 1#8 <<< k.val != 0#8) = x.getLsbD k.val := by
    decide +kernel
  exact hall ⟨k, hk⟩ x

theorem bit_eq (b : ℕ → BitVec 8) (k : ℕ) : bit b k = (b (k / 8)).getLsbD (k % 8) :=
  and_shift_ne_zero _ (Nat.mod_lt _ (by decide))

theorem getLsbD_shift {k j : ℕ} (hj : j < 8) : (1#8 <<< k).getLsbD j = decide (j = k) := by
  rw [getLsbD_shiftLeft, getLsbD_one]
  by_cases h : j = k
  · simp [h]
    omega
  · simp [h]
    omega

theorem bit_setBit (b : ℕ → BitVec 8) (k j : ℕ) :
    bit (setBit b k) j = (decide (j = k) || bit b j) := by
  rw [bit_eq, bit_eq, setBit]
  have hj : j % 8 < 8 := Nat.mod_lt _ (by decide)
  by_cases hbyte : j / 8 = k / 8
  · have hk : j = k ↔ j % 8 = k % 8 := by omega
    rw [hbyte, update_self, getLsbD_or, getLsbD_shift hj, Bool.or_comm]
    simp only [hk]
  · have hk : j ≠ k := by rintro rfl; exact hbyte rfl
    rw [update_of_ne hbyte]
    simp [hk]

theorem bit_clearBit (b : ℕ → BitVec 8) (k j : ℕ) :
    bit (clearBit b k) j = (decide (j ≠ k) && bit b j) := by
  rw [bit_eq, bit_eq, clearBit]
  have hj : j % 8 < 8 := Nat.mod_lt _ (by decide)
  by_cases hbyte : j / 8 = k / 8
  · have hk : j = k ↔ j % 8 = k % 8 := by omega
    rw [hbyte, update_self, getLsbD_and, getLsbD_not, getLsbD_shift hj,
      Bool.and_comm]
    simp [hk, hj]
  · have hk : j ≠ k := by rintro rfl; exact hbyte rfl
    rw [update_of_ne hbyte]
    simp [hk]

end Bytes
