import Xv6.Lib.Writes
import Xv6.Vm.PageTable

/-!
# User memory in physical memory (`walkaddr`, `copyout`, `copyin` of `kernel/vm.c`)

Here a page table is given by the entries that `walk` finds, and memory by its bytes, so that two
pages may be mapped to one physical page.  Both functions do what a loop over the bytes does.
-/

namespace Xv6.Physical

open Segment Vm List BitVec

/-- Physical memory. -/
abbrev Memory := ℕ → Byte

/-- The entries that `walk` finds in a page table, by the address. -/
abbrev Entries := Word → Option Pte

/-- `walkaddr`: the physical address, or 0. -/
def walkaddr (pt : Entries) (va : Word) : ℕ :=
  if MAXVA ≤ va then 0
  else
    match pt va with
    | none => 0
    | some e =>
      if !e.valid then 0 else if e.flags &&& PTE_U = 0 then 0 else e.ppn * PGSIZE

/-- The writes of `memmove` to address `a`. -/
def memmoveTo (mem : Memory) (a : ℕ) (src : List Byte) : Memory :=
  Writes.apply mem (table src.length fun k => (a + k, src.getD k 0))

/-- The loop of `copyout`. -/
def copyoutLoop (pt : Entries) : ℕ → Memory → Word → List Byte → Memory × ℤ
  | 0, mem, _, _ => (mem, 0)
  | turns + 1, mem, dstva, src =>
    if src = [] then (mem, 0)
    else
      let va0 := pgRoundDown dstva
      let pa0 := walkaddr pt va0
      if pa0 = 0 then (mem, -1)
      else
        let off := (dstva - va0).toNat
        let n := min (PGSIZE - off) src.length
        copyoutLoop pt turns (memmoveTo mem (pa0 + off) (src.take n))
          (va0 + BitVec.ofNat 64 PGSIZE) (src.drop n)

/-- `copyout`. -/
def copyout (pt : Entries) (mem : Memory) (dstva : Word) (src : List Byte) : Memory × ℤ :=
  copyoutLoop pt src.length mem dstva src

/-- The loop of `copyin`. -/
def copyinLoop (pt : Entries) (mem : Memory) : ℕ → Word → ℕ → List Byte × ℤ
  | 0, _, _ => ([], 0)
  | turns + 1, srcva, len =>
    if len = 0 then ([], 0)
    else
      let va0 := pgRoundDown srcva
      let pa0 := walkaddr pt va0
      if pa0 = 0 then ([], -1)
      else
        let off := (srcva - va0).toNat
        let n := min (PGSIZE - off) len
        let rest := copyinLoop pt mem turns (va0 + BitVec.ofNat 64 PGSIZE) (len - n)
        ((table n fun k => mem (pa0 + off + k)) ++ rest.1, rest.2)

/-- `copyin`. -/
def copyin (pt : Entries) (mem : Memory) (srcva : Word) (len : ℕ) : List Byte × ℤ :=
  copyinLoop pt mem len srcva len

/-! ### Byte by byte -/

/-- The physical address of a byte. -/
def phys (pt : Entries) (va : Word) : ℕ := walkaddr pt (pgRoundDown va) + va.toNat % PGSIZE

/-- The user memory that the page table maps. -/
def view (pt : Entries) (mem : Memory) : UserMem := fun va =>
  if walkaddr pt va = 0 then none else some fun i => mem (walkaddr pt va + i)

variable {pt : Entries} {mem : Memory} {va : Word}

theorem walkaddr_view (mem : Memory) (va : Word) :
    Xv6.walkaddr (view pt mem) va = view pt mem va := by
  unfold Xv6.walkaddr view
  split_ifs with hmax h0 <;> try rfl
  exact absurd (if_pos hmax) h0

theorem byte_view (mem : Memory) (va : Word) : (view pt mem).byte va =
    if walkaddr pt (pgRoundDown va) = 0 then none else some (mem (phys pt va)) := by
  rw [UserMem.byte, walkaddr_view, view]
  split_ifs <;> rfl

theorem copyinLoop_view (pt : Entries) (mem : Memory) (turns : ℕ) (va : Word) (len : ℕ) :
    copyinLoop pt mem turns va len = Xv6.copyinLoop turns (view pt mem) va len := by
  induction turns generalizing va len with
  | zero => rfl
  | succ turns ih =>
    rw [copyinLoop, Xv6.copyinLoop]
    by_cases hlen : len = 0
    · rw [if_pos hlen, if_pos hlen]
    rw [if_neg hlen, if_neg hlen]
    simp only [walkaddr_view, view, toNat_sub_pgRoundDown]
    split_ifs with hpa
    · rfl
    · simp only [ih]
      congr 2
      refine table_congr fun k hk => ?_
      rw [dif_pos (by omega), Nat.add_assoc]

/-- `copyout` writes the bytes one after the other, as far as `copyin` would get. -/
theorem copyoutLoop_view (pt : Entries) (m₀ mem : Memory) (turns : ℕ) (va : Word)
    (src : List Byte) : copyoutLoop pt turns mem va src =
      let r := Xv6.copyinLoop turns (view pt m₀) va src.length
      (Writes.apply mem (table r.1.length fun k =>
        (phys pt (va + BitVec.ofNat 64 k), src.getD k 0)), r.2) := by
  induction turns generalizing mem va src with
  | zero => rfl
  | succ turns ih =>
    rw [copyoutLoop]
    by_cases hsrc : src = []
    · rw [if_pos hsrc, hsrc, length_nil, Xv6.copyinLoop, if_pos rfl]
      rfl
    have hlen : src.length ≠ 0 := fun h0 => hsrc (eq_nil_of_length_eq_zero h0)
    rw [if_neg hsrc]
    by_cases hpa : walkaddr pt (pgRoundDown va) = 0
    · simp only [if_pos hpa]
      rw [copyinLoop_of_walkaddr_none hlen (by rw [walkaddr_view, view, if_pos hpa])]
      rfl
    simp only [if_neg hpa, toNat_sub_pgRoundDown]
    obtain ⟨n, hn⟩ : ∃ n, n = min (PGSIZE - va.toNat % PGSIZE) src.length := ⟨_, rfl⟩
    have hpg : Xv6.walkaddr (view pt m₀) (pgRoundDown va) =
        some fun i : Fin PGSIZE => m₀ (walkaddr pt (pgRoundDown va) + i) := by
      rw [walkaddr_view, view, if_neg hpa]
    have hrest : ∀ mem : Memory, copyoutLoop pt turns mem
        (pgRoundDown va + BitVec.ofNat 64 PGSIZE) (src.drop n) =
          copyoutLoop pt turns mem (va + BitVec.ofNat 64 n) (src.drop n) := by
      intro mem
      by_cases hmore : n < src.length
      · rw [page_end hn hmore]
      · rw [drop_eq_nil_of_le (Nat.not_lt.1 hmore)]
        cases turns <;> simp only [copyoutLoop, if_true]
    rw [← hn, hrest, ih, (copyinLoop_turn turns hlen hpg hn).2, length_drop]
    simp only [length_append, length_table]
    rw [← table_append, Writes.apply_append, memmoveTo, length_take,
      Nat.min_eq_left (by omega)]
    congr 2
    · congr 1
      refine table_congr fun k hk => ?_
      obtain ⟨hround, hoff⟩ := pgRoundDown_add (show va.toNat % PGSIZE + k < PGSIZE by omega)
      rw [phys, hround, hoff, Nat.add_assoc, getD_eq_getElem?_getD, getElem?_take,
        if_pos hk, getD_eq_getElem?_getD]
    · refine table_congr fun k _ => ?_
      rw [ofNat_add, BitVec.add_assoc, getD_eq_getElem?_getD, getElem?_drop,
        getD_eq_getElem?_getD]

/-! ### Accessible pages -/

/-- The page of the address is below `MAXVA`, valid and open to the user. -/
def Accessible (pt : Entries) (va : Word) : Prop :=
  pgRoundDown va < MAXVA ∧
    ∃ e, pt (pgRoundDown va) = some e ∧ e.valid = true ∧ e.flags &&& PTE_U ≠ 0

/-- No user page is at physical page 0. -/
def NoPageZero (pt : Entries) : Prop :=
  ∀ va e, pt va = some e → e.valid = true → e.flags &&& PTE_U ≠ 0 → e.ppn ≠ 0

theorem byte_ne_none (hpa : NoPageZero pt) :
    (view pt mem).byte va ≠ none ↔ Accessible pt va := by
  rw [byte_view, ne_eq, ite_eq_left_iff, not_forall]
  simp only [reduceCtorEq, not_false_eq_true, exists_prop, and_true]
  unfold walkaddr Accessible
  by_cases hmax : MAXVA ≤ pgRoundDown va
  · simp [hmax, BitVec.not_lt.2 hmax]
  · rw [if_neg hmax]
    cases hpt : pt (pgRoundDown va) with
    | none => simp
    | some e =>
      have hne := hpa _ e hpt
      simp only [Bool.not_eq_eq_eq_not, Bool.not_true, Option.some.injEq, exists_eq_left',
        BitVec.not_le.1 hmax, true_and]
      cases hv : e.valid
      · simp
      · simpa [PGSIZE] using fun hu => hne hv hu

/-- `copyin` gets the bytes before the first page that is not accessible. -/
theorem copyin_bytes (hpa : NoPageZero pt) (mem : Memory) (va : Word) (len : ℕ) :
    ∃ c ≤ len, (∀ k < c, Accessible pt (va + BitVec.ofNat 64 k)) ∧
      (c < len → ¬ Accessible pt (va + BitVec.ofNat 64 c)) ∧
      copyin pt mem va len =
        (table c fun k => mem (phys pt (va + BitVec.ofNat 64 k)), if c = len then 0 else -1) := by
  obtain ⟨c, hc, hthere, hend, hcopy⟩ := copyinLoop_spec (view pt mem) va (le_refl len)
  refine ⟨c, hc, fun k hk => (byte_ne_none hpa).1 (hthere k hk),
    fun hlt hacc => (byte_ne_none hpa).2 hacc (hend hlt), ?_⟩
  rw [copyin, copyinLoop_view, hcopy]
  congr 1
  refine table_congr fun k hk => ?_
  have hk := hthere k hk
  rw [byte_view] at hk ⊢
  split_ifs at hk ⊢ with h0
  · exact absurd rfl hk
  · rfl

theorem walkaddr_mod (pt : Entries) (va : Word) : walkaddr pt va % PGSIZE = 0 := by
  unfold walkaddr
  split_ifs
  · rfl
  · split
    · rfl
    · split_ifs <;> simp

/-- Different pages have different places. -/
def Apart (pt : Entries) : Prop := ∀ p q : Word, walkaddr pt (pgRoundDown p) ≠ 0 →
  walkaddr pt (pgRoundDown p) = walkaddr pt (pgRoundDown q) → pgRoundDown p = pgRoundDown q

theorem Apart.phys_inj {x y : Word} (h : Apart pt) (hx : walkaddr pt (pgRoundDown x) ≠ 0)
    (heq : phys pt x = phys pt y) : x = y := by
  unfold phys at heq
  have hmx := walkaddr_mod pt (pgRoundDown x)
  have hmy := walkaddr_mod pt (pgRoundDown y)
  have hPG : PGSIZE = 4096 := rfl
  rw [hPG] at hmx hmy heq
  have hround := congrArg BitVec.toNat (h x y hx (by omega))
  rw [toNat_pgRoundDown, toNat_pgRoundDown, hPG] at hround
  exact eq_of_toNat_eq (by omega)

/-- **`copyout` and `copyin` agree with a loop over the bytes.**  If no user page is at physical
page 0, they transfer the bytes before the first page that is not accessible, and return 0 if there
is no such page; a `copyin` after a `copyout` gets the same bytes back, if different pages have
different places. -/
theorem copy_eq_bytewise (pt : Entries) (hpa : NoPageZero pt) (mem : Memory) (va : Word)
    (src : List Byte) (hlen : src.length < 2 ^ 64) :
    ∃ c ≤ src.length, (∀ k < c, Accessible pt (va + BitVec.ofNat 64 k)) ∧
      (c < src.length → ¬ Accessible pt (va + BitVec.ofNat 64 c)) ∧
      copyout pt mem va src =
        (Writes.apply mem (table c fun k => (phys pt (va + BitVec.ofNat 64 k), src.getD k 0)),
          if c = src.length then 0 else -1) ∧
      copyin pt mem va src.length =
        (table c fun k => mem (phys pt (va + BitVec.ofNat 64 k)),
          if c = src.length then 0 else -1) ∧
      (c = src.length → Apart pt →
        copyin pt (copyout pt mem va src).1 va src.length = (src, 0)) := by
  obtain ⟨c, hc, hacc, hend, hcopy⟩ := copyin_bytes hpa mem va src.length
  have hwalk : ∀ k < c, walkaddr pt (pgRoundDown (va + BitVec.ofNat 64 k)) ≠ 0 := fun k hk h0 =>
    (byte_ne_none hpa).2 (hacc k hk) ((byte_view mem _).trans (if_pos h0))
  have hout : copyout pt mem va src = (Writes.apply mem (table c fun k =>
      (phys pt (va + BitVec.ofNat 64 k), src.getD k 0)), if c = src.length then 0 else -1) := by
    rw [copyout, copyoutLoop_view pt mem, ← copyinLoop_view, ← copyin, hcopy]
    simp only [length_table]
  refine ⟨c, hc, hacc, hend, hout, hcopy, ?_⟩
  rintro rfl hapart
  have hdata : ∀ k < src.length, (view pt (copyout pt mem va src).1).byte
      (va + BitVec.ofNat 64 k) = some (src.getD k 0) := by
    intro k hk
    rw [byte_view, if_neg (hwalk k hk), hout]
    refine congrArg some (Writes.apply_of_mem mem ?_ (mem_map_of_mem (mem_range.2 hk)))
    -- the bytes have different places
    rw [map_map]
    refine List.Nodup.map_on (fun i hi j hj heq => ?_) nodup_range
    have hsum := congrArg BitVec.toNat (hapart.phys_inj (hwalk i (mem_range.1 hi)) heq)
    rw [mem_range] at hi hj
    simp only [toNat_add, toNat_ofNat] at hsum
    omega
  rw [copyin, copyinLoop_view, copyinLoop_of_byte le_rfl hdata]
  congr 1
  exact ext_getElem (by simp) fun k _ hk => by simp [hk]

/-- A page table with one page; the entry after it is not valid. -/
def onePage : Entries := fun va =>
  if va = 0 then some ⟨5, PTE_V ||| PTE_U⟩ else if va = 4096 then some .zero else none

theorem noPageZero_onePage : NoPageZero onePage := by
  intro va e he hv _
  unfold onePage at he
  split_ifs at he <;> cases he
  · decide
  · exact absurd hv (by decide)

/-- Two bytes that go over the end of the page. -/
theorem copy_eq_bytewise_two : ∃ c, (∀ k < c, Accessible onePage (4095 + BitVec.ofNat 64 k)) ∧
    (copyout onePage (fun _ => 0) 4095 [7, 8]).2 = if c = 2 then 0 else -1 := by
  obtain ⟨c, -, hacc, -, hret, -⟩ :=
    copy_eq_bytewise onePage noPageZero_onePage (fun _ => 0) 4095 [7, 8] (by decide)
  exact ⟨c, hacc, by rw [hret]; rfl⟩

/-- A page that is mapped to physical page 0 is taken for one that is not there. -/
theorem copyout_page_zero : ∃ (pt : Entries) (mem : Memory), Accessible pt 0 ∧
    (copyout pt mem 0 [1]).2 ≠ 0 :=
  ⟨fun _ => some ⟨0, PTE_V ||| PTE_U⟩, fun _ => 0, by
    exact ⟨by decide, _, rfl, by decide, by decide⟩, by decide⟩

end Xv6.Physical
