import Xv6.Vm.UserMem

/-!
# `memmove` of the kernel and of the user library (`kernel/string.c`, `user/ulib.c`)

Both copy upwards or downwards, byte by byte, and choose the direction by different tests.  The
length is a `uint` in the kernel and an `int` in the user library.
-/

namespace Xv6

open Function BitVec

/-- Memory, byte by byte. -/
abbrev Memory := Word → Byte

/-- `while(n-- > 0) *d++ = *s++`. -/
def copyUp : ℕ → Memory → Word → Word → Memory
  | 0, m, _, _ => m
  | n + 1, m, d, s => copyUp n (update m d (m s)) (d + 1) (s + 1)

/-- `while(n-- > 0) *--d = *--s`. -/
def copyDown : ℕ → Memory → Word → Word → Memory
  | 0, m, _, _ => m
  | n + 1, m, d, s => copyDown n (update m (d - 1) (m (s - 1))) (d - 1) (s - 1)

/-- `memmove` of the kernel. -/
def kernelMemmove (m : Memory) (dst src : Word) (n : UInt) : Memory :=
  let k := n.setWidth 64
  if src < dst ∧ src + k > dst then copyDown n.toNat m (dst + k) (src + k)
  else copyUp n.toNat m dst src

/-- `memmove` of the user library. -/
def userMemmove (m : Memory) (dst src : Word) (n : UInt) : Memory :=
  let k := n.signExtend 64
  if src > dst then copyUp n.toInt.toNat m dst src
  else copyDown n.toInt.toNat m (dst + k) (src + k)

variable {m : Memory} {d s dst src : Word} {n : ℕ}

/-- Memory after a move: the `n` bytes from `d` on are the old bytes from `s` on, the others are
unchanged. -/
def moved (m : Memory) (d s : Word) (n : ℕ) : Memory := fun a =>
  if d.toNat ≤ a.toNat ∧ a.toNat < d.toNat + n then m (s + (a - d)) else m a

/-- Copying upwards reads every byte before it is overwritten, if the source is not below the
destination or does not reach it. -/
theorem copyUp_eq_moved (hd : d.toNat + n ≤ 2 ^ 64) (hs : s.toNat + n ≤ 2 ^ 64)
    (h : d.toNat ≤ s.toNat ∨ s.toNat + n ≤ d.toNat) : copyUp n m d s = moved m d s n := by
  induction n generalizing m d s with
  | zero =>
    funext a
    rw [copyUp, moved, if_neg (by omega)]
  | succ n ih =>
    rw [copyUp]
    cases n with
    | zero =>
      funext a
      by_cases ha : a = d
      · subst ha
        simp [copyUp, moved]
      · have hne : ¬ (d.toNat ≤ a.toNat ∧ a.toNat < d.toNat + 1) := fun hle =>
          ha (eq_of_toNat_eq (by omega))
        rw [copyUp, update_of_ne ha, moved, if_neg hne]
    | succ n =>
      have hd1 : (d + 1).toNat = d.toNat + 1 := by bv_omega
      have hs1 : (s + 1).toNat = s.toNat + 1 := by bv_omega
      rw [ih (by omega) (by omega) (by omega)]
      funext a
      simp only [moved, hd1]
      by_cases ha : a = d
      · subst ha
        simp
      · have hsum : s + 1 + (a - (d + 1)) = s + (a - d) := by bv_omega
        rw [hsum, update_of_ne ha]
        by_cases hin : d.toNat + 1 ≤ a.toNat ∧ a.toNat < d.toNat + 1 + (n + 1)
        · have hne : s + (a - d) ≠ d := by bv_omega
          rw [if_pos hin, if_pos (by omega), update_of_ne hne]
        · rw [if_neg hin, if_neg (by bv_omega)]

/-- Copying downwards does, if the source is not above the destination. -/
theorem copyDown_eq_moved (hd : d.toNat + n ≤ 2 ^ 64) (h : s.toNat ≤ d.toNat) :
    copyDown n m (d + BitVec.ofNat 64 n) (s + BitVec.ofNat 64 n) = moved m d s n := by
  induction n generalizing m with
  | zero =>
    funext a
    rw [copyDown, moved, if_neg (by omega)]
  | succ n ih =>
    have hstep : ∀ p : Word, p + BitVec.ofNat 64 (n + 1) - 1 = p + BitVec.ofNat 64 n := fun p => by
      rw [ofNat_add]
      bv_omega
    rw [copyDown, hstep, hstep, ih (by omega)]
    have hlast : (d + BitVec.ofNat 64 n).toNat = d.toNat + n := by
      rw [toNat_add, toNat_ofNat]
      omega
    funext a
    simp only [moved]
    by_cases ha : a = d + BitVec.ofNat 64 n
    · subst ha
      have hoff : s + (d + BitVec.ofNat 64 n - d) = s + BitVec.ofNat 64 n := by bv_omega
      rw [if_neg (by omega), update_self, if_pos (by omega), hoff]
    · have hne : a.toNat ≠ d.toNat + n := fun heq => ha (eq_of_toNat_eq (by omega))
      rw [update_of_ne ha]
      by_cases hin : d.toNat ≤ a.toNat ∧ a.toNat < d.toNat + n
      · have hne' : s + (a - d) ≠ d + BitVec.ofNat 64 n := by bv_omega
        rw [if_pos hin, if_pos (by omega), update_of_ne hne']
      · rw [if_neg hin, if_neg (by omega)]

section

variable {n : UInt} (hs : src.toNat + n.toNat ≤ 2 ^ 64) (hd : dst.toNat + n.toNat ≤ 2 ^ 64)

include hs hd

theorem kernelMemmove_eq_moved : kernelMemmove m dst src n = moved m dst src n.toNat := by
  have hk : n.setWidth 64 = BitVec.ofNat 64 n.toNat := by bv_omega
  unfold kernelMemmove
  simp only [hk]
  split_ifs with h
  · exact copyDown_eq_moved hd (by bv_omega)
  · refine copyUp_eq_moved hd hs ?_
    rw [not_and_or, gt_iff_lt, lt_def, lt_def, toNat_add,
      toNat_ofNat] at h
    omega

theorem userMemmove_eq_moved (hn : n.toNat < 2 ^ 31) :
    userMemmove m dst src n = moved m dst src n.toNat := by
  have hint : n.toInt = n.toNat := toInt_eq_toNat_of_lt (by omega)
  have hk : n.signExtend 64 = BitVec.ofNat 64 n.toNat := by
    refine eq_of_toInt_eq ?_
    have hofNat : (BitVec.ofNat 64 n.toNat).toNat = n.toNat := Nat.mod_eq_of_lt (by omega)
    rw [toInt_signExtend_of_le (by decide), hint, toInt_eq_toNat_of_lt, hofNat]
    omega
  unfold userMemmove
  simp only [hk, hint, Int.toNat_natCast]
  split_ifs with h
  · exact copyUp_eq_moved hd hs (.inl (by bv_omega))
  · exact copyDown_eq_moved hd (by bv_omega)

end

/-- **`memmove` is right for every overlap.**  In both functions the destination gets the old bytes
of the source and no other byte changes, in the one of the user library for every length that is an
`int`; so they agree. -/
theorem memmove_eq_moved (m : Memory) (dst src : Word) (n : UInt)
    (hs : src.toNat + n.toNat ≤ 2 ^ 64) (hd : dst.toNat + n.toNat ≤ 2 ^ 64) :
    kernelMemmove m dst src n = moved m dst src n.toNat ∧
      (n.toNat < 2 ^ 31 → userMemmove m dst src n = moved m dst src n.toNat) :=
  ⟨kernelMemmove_eq_moved hs hd, userMemmove_eq_moved hs hd⟩

/-- The ranges overlap by two bytes. -/
theorem memmove_eq_moved_overlap : kernelMemmove (fun a => a.setWidth 8) 12 10 4 13 = 11 ∧
    userMemmove (fun a => a.setWidth 8) 12 10 4 13 = 11 := by
  obtain ⟨hkernel, huser⟩ := memmove_eq_moved (fun a => a.setWidth 8) 12 10 4 (by decide)
    (by decide)
  rw [hkernel, huser (by decide)]
  decide

/-- A length of `2 ^ 31` is negative as an `int`, and the user library copies nothing. -/
theorem userMemmove_negative : ∃ (m : Memory) (dst src : Word) (n : UInt),
    src.toNat + n.toNat ≤ 2 ^ 64 ∧ dst.toNat + n.toNat ≤ 2 ^ 64 ∧
      userMemmove m dst src n ≠ moved m dst src n.toNat := by
  refine ⟨fun a => if a = 0 then 1 else 0, 0x100000000, 0, 0x80000000, by decide, by decide, ?_⟩
  intro h
  have hfirst := congrFun h 0x100000000
  rw [show userMemmove _ 0x100000000 0 0x80000000 = _ from rfl] at hfirst
  revert hfirst
  decide

end Xv6
