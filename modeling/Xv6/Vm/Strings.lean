import Xv6.Proc.Struct
import Xv6.Vm.Physical

/-!
# Strings in user memory (`copyinstr` of `kernel/vm.c`, `argstr` of `kernel/syscall.c`)

`copyinstr` goes through the pages as `copyin` does, and stops at the first NUL.
-/

namespace Xv6.Physical

open Segment Vm

/-- Maximum length of a path. -/
def MAXPATH : ℕ := 128

/-- The inner loop of `copyinstr`, over the bytes of a page: the bytes stored, and `got_null`. -/
def cut : List Byte → List Byte × Bool
  | [] => ([], false)
  | b :: bs => if b = 0 then ([0], true) else (b :: (cut bs).1, (cut bs).2)

/-- The outer loop of `copyinstr`; every turn lowers `max`. -/
def copyinstrLoop (pt : Entries) (mem : Memory) : ℕ → Word → ℕ → List Byte × ℤ
  | 0, _, _ => ([], -1)
  | turns + 1, srcva, max =>
    if max = 0 then ([], -1)
    else
      let va0 := pgRoundDown srcva
      let pa0 := walkaddr pt va0
      if pa0 = 0 then ([], -1)
      else
        let off := (srcva - va0).toNat
        let n := min (PGSIZE - off) max
        let r := cut (table n fun k => mem (pa0 + off + k))
        if r.2 then (r.1, 0)
        else
          let rest := copyinstrLoop pt mem turns (va0 + BitVec.ofNat 64 PGSIZE) (max - n)
          (r.1 ++ rest.1, rest.2)

/-- `copyinstr`: the bytes stored from `dst` on, and 0 or -1. -/
def copyinstr (pt : Entries) (mem : Memory) (srcva : Word) (max : ℕ) : List Byte × ℤ :=
  copyinstrLoop pt mem max srcva max

/-- `fetchstr`. -/
def fetchstr (pt : Entries) (mem : Memory) (addr : Word) (max : ℕ) : ℤ :=
  let r := copyinstr pt mem addr max
  if r.2 < 0 then r.2 else (r.1.takeWhile (· ≠ 0)).length

/-- `argraw`; `none` is the panic. -/
def argraw (f : Trapframe) : ℕ → Option Word
  | 0 => some f.a0
  | 1 => some f.a1
  | 2 => some f.a2
  | 3 => some f.a3
  | 4 => some f.a4
  | 5 => some f.a5
  | _ => none

/-- `argstr`. -/
def argstr (f : Trapframe) (pt : Entries) (mem : Memory) (n max : ℕ) : Option ℤ :=
  (argraw f n).map fun addr => fetchstr pt mem addr max

theorem cut_append (xs ys : List Byte) : cut (xs ++ ys) =
    if (cut xs).2 then cut xs else ((cut xs).1 ++ (cut ys).1, (cut ys).2) := by
  induction xs with
  | nil => simp [cut]
  | cons b xs ih =>
    simp only [List.cons_append, cut, ih]
    by_cases h0 : b = 0
    · simp only [h0, if_true]
    · simp only [h0, if_false]
      split_ifs <;> rfl

/-- The bytes that `copyin` reads, up to the first NUL. -/
theorem copyinstrLoop_eq (pt : Entries) (mem : Memory) (turns : ℕ) (va : Word) (max : ℕ) :
    copyinstrLoop pt mem turns va max =
      let r := cut (copyinLoop pt mem turns va max).1
      (r.1, if r.2 then 0 else -1) := by
  induction turns generalizing va max with
  | zero => rfl
  | succ turns ih =>
    rw [copyinstrLoop, copyinLoop]
    split_ifs with hmax
    · rfl
    by_cases hpa : walkaddr pt (pgRoundDown va) = 0
    · simp only [if_pos hpa, cut, Bool.false_eq_true, if_false]
    · simp only [if_neg hpa, ih, cut_append]
      split_ifs <;> rfl

theorem cut_table (n : ℕ) (f : ℕ → Byte) :
    (∃ k < n, f k = 0 ∧ (∀ j < k, f j ≠ 0) ∧ cut (table n f) = (table (k + 1) f, true)) ∨
      (∀ k < n, f k ≠ 0) ∧ cut (table n f) = (table n f, false) := by
  induction n with
  | zero => exact .inr ⟨nofun, rfl⟩
  | succ n ih =>
    rw [← table_append n 1 f, cut_append]
    rcases ih with ⟨k, hk, h0, hne, heq⟩ | ⟨hne, heq⟩
    · exact .inl ⟨k, by omega, h0, hne, by rw [heq, if_pos rfl]⟩
    · by_cases h0 : f n = 0
      · refine .inl ⟨n, by omega, h0, hne, ?_⟩
        rw [heq, ← table_append n 1 f]
        simp [table, cut, h0]
      · refine .inr ⟨Nat.forall_lt_succ_right.2 ⟨hne, h0⟩, ?_⟩
        have hlast : cut (table 1 fun k => f (n + k)) = ([f n], false) := if_neg h0
        rw [heq, hlast]
        rfl

/-- There is a string of length `k` at the address. -/
def StringAt (pt : Entries) (mem : Memory) (va : Word) (k : ℕ) : Prop :=
  (∀ j ≤ k, Accessible pt (va + BitVec.ofNat 64 j)) ∧
    (∀ j < k, mem (phys pt (va + BitVec.ofNat 64 j)) ≠ 0) ∧
    mem (phys pt (va + BitVec.ofNat 64 k)) = 0

variable {pt : Entries} {mem : Memory} {va : Word} {k max : ℕ}

theorem StringAt.le {i : ℕ} (h : StringAt pt mem va k) (hi : StringAt pt mem va i) : k ≤ i :=
  Nat.not_lt.1 fun hlt => h.2.1 i hlt hi.2.2

/-- `copyinstr` stores a string and its NUL, or fails. -/
theorem copyinstr_cases (hpa : NoPageZero pt) (mem : Memory) (va : Word) (max : ℕ) :
    (∃ k < max, StringAt pt mem va k ∧ copyinstr pt mem va max =
      (table (k + 1) fun j => mem (phys pt (va + BitVec.ofNat 64 j)), 0)) ∨
    (∀ k < max, ¬ StringAt pt mem va k) ∧ (copyinstr pt mem va max).2 = -1 ∧
      (copyinstr pt mem va max).1.length ≤ max := by
  obtain ⟨q, hq, hthere, hend, hread⟩ := copyin_bytes hpa mem va max
  rw [copyinstr, copyinstrLoop_eq, ← copyin, hread]
  rcases cut_table q fun k => mem (phys pt (va + BitVec.ofNat 64 k)) with
    ⟨k, hk, h0, hne, heq⟩ | ⟨hne, heq⟩
  · exact .inl ⟨k, by omega, ⟨fun j hj => hthere j (by omega), hne, h0⟩, by rw [heq]; rfl⟩
  · refine .inr ⟨fun k hk hat => ?_, by rw [heq]; rfl, by rw [heq, length_table]; exact hq⟩
    by_cases hkq : k < q
    · exact hne k hkq hat.2.2
    -- a string that goes over the missing byte
    · exact hend (by omega) (hat.1 q (Nat.not_lt.1 hkq))

/-- What `copyinstr` stores of a string, and its result. -/
theorem copyinstr_of_stringAt (hpa : NoPageZero pt) (hk : k < max) (hat : StringAt pt mem va k) :
    copyinstr pt mem va max =
      (table (k + 1) fun j => mem (phys pt (va + BitVec.ofNat 64 j)), 0) := by
  rcases copyinstr_cases hpa mem va max with ⟨i, -, hi, heq⟩ | ⟨hno, -⟩
  · rwa [Nat.le_antisymm (hat.le hi) (hi.le hat)]
  · exact absurd hat (hno k hk)

/-- **`copyinstr` reads one string.**  If no user page is at physical page 0, it succeeds if there
is a string shorter than `max`, stores that string and its NUL, at most `max` bytes, and looks at
no page behind the NUL; and `argstr` accepts the strings shorter than `MAXPATH`. -/
theorem copyinstr_reads_string (pt : Entries) (hpa : NoPageZero pt) (mem : Memory) (va : Word)
    (max : ℕ) :
    ((copyinstr pt mem va max).2 = 0 ↔ ∃ k < max, StringAt pt mem va k) ∧
    (copyinstr pt mem va max).1.length ≤ max ∧
    (∀ k < max, StringAt pt mem va k →
      (copyinstr pt mem va max).1 =
        table (k + 1) (fun j => mem (phys pt (va + BitVec.ofNat 64 j))) ∧
      ∀ (pt' : Entries) (mem' : Memory), NoPageZero pt' →
        (∀ j ≤ k, pt' (pgRoundDown (va + BitVec.ofNat 64 j)) =
          pt (pgRoundDown (va + BitVec.ofNat 64 j)) ∧
          mem' (phys pt (va + BitVec.ofNat 64 j)) = mem (phys pt (va + BitVec.ofNat 64 j))) →
        copyinstr pt' mem' va max = copyinstr pt mem va max) ∧
    ∀ (f : Trapframe) (n : ℕ), argraw f n = some va →
      ((∃ r, argstr f pt mem n MAXPATH = some r ∧ 0 ≤ r) ↔
        ∃ k < MAXPATH, StringAt pt mem va k) := by
  refine ⟨?_, ?_, fun k hk hat => ?_, fun f n hn => ?_⟩
  · rcases copyinstr_cases hpa mem va max with ⟨k, hk, hat, heq⟩ | ⟨hno, herr, -⟩
    · exact ⟨fun _ => ⟨k, hk, hat⟩, fun _ => by rw [heq]⟩
    · exact ⟨fun h0 => by simp [herr] at h0, by rintro ⟨k, hk, hat⟩; exact absurd hat (hno k hk)⟩
  · rcases copyinstr_cases hpa mem va max with ⟨k, hk, -, heq⟩ | ⟨-, -, hlen⟩
    · rw [heq, length_table]
      exact hk
    · exact hlen
  · have hstored := copyinstr_of_stringAt hpa hk hat
    refine ⟨by rw [hstored], fun pt' mem' hpa' hsame => ?_⟩
    have hphys : ∀ j ≤ k,
        phys pt' (va + BitVec.ofNat 64 j) = phys pt (va + BitVec.ofNat 64 j) := fun j hj => by
      simp only [phys, walkaddr, (hsame j hj).1]
    have hbyte : ∀ j ≤ k, mem' (phys pt' (va + BitVec.ofNat 64 j)) =
        mem (phys pt (va + BitVec.ofNat 64 j)) := fun j hj => by rw [hphys j hj, (hsame j hj).2]
    have hat' : StringAt pt' mem' va k := by
      refine ⟨fun j hj => ?_, fun j hj => ?_, ?_⟩
      · rw [Accessible, (hsame j hj).1]
        exact hat.1 j hj
      · rw [hbyte j hj.le]
        exact hat.2.1 j hj
      · rw [hbyte k le_rfl]
        exact hat.2.2
    rw [hstored, copyinstr_of_stringAt hpa' hk hat']
    congr 1
    exact table_congr fun j hj => hbyte j (Nat.lt_succ_iff.1 hj)
  · simp only [argstr, hn, Option.map_some, Option.some.injEq, exists_eq_left', fetchstr]
    rcases copyinstr_cases hpa mem va MAXPATH with ⟨k, hk, hat, heq⟩ | ⟨hno, herr, -⟩
    · simp only [heq, lt_irrefl, if_false]
      exact ⟨fun _ => ⟨k, hk, hat⟩, fun _ => Int.natCast_nonneg _⟩
    · simp only [herr]
      exact ⟨fun h0 => by simp at h0, by rintro ⟨k, hk, hat⟩; exact absurd hat (hno k hk)⟩

/-- An empty string at the end of the page. -/
theorem copyinstr_reads_string_empty : (copyinstr onePage (fun _ => 0) 4095 8).2 = 0 ↔
    ∃ k < 8, StringAt onePage (fun _ => 0) 4095 k :=
  (copyinstr_reads_string onePage noPageZero_onePage (fun _ => 0) 4095 8).1

/-- A string in a page that is mapped to physical page 0 is taken for one that is not there. -/
theorem copyinstr_page_zero : ∃ (pt : Entries) (mem : Memory), StringAt pt mem 0 0 ∧
    (copyinstr pt mem 0 1).2 ≠ 0 := by
  refine ⟨fun _ => some ⟨0, PTE_V ||| PTE_U⟩, fun _ => 0, ⟨fun j hj => ?_, nofun, rfl⟩, by decide⟩
  rw [Nat.le_zero.1 hj]
  exact ⟨by decide, _, rfl, by decide, by decide⟩

end Xv6.Physical
