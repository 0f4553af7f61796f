import Xv6.Sem.Counting

/-!
# Semaphore calls with any argument (`sys_bsem_free`, `sys_bsem_down`, `sys_bsem_up`, `csem_alloc`)

The functions of `kernel/proc.c` compute `&bsems[bid]` from the `int` the user passes, without
looking at it.  Here the memory of the kernel is a sequence of words, numbered from the start of
`bsems` on in both directions; `struct bsem` takes three of them.  Each call is one critical
section of `bsem_lock`, and `bsem_down` may end in `sleep`.  The words that a call uses through `b`
are part of its result.
-/

namespace Xv6.Sem

open Function List

/-- The memory of the kernel around `bsems`, and the threads asleep. -/
structure Kernel (T : Type) where
  word : ℤ → UInt
  chan : T → Option ℤ -- The address on which a thread sleeps

namespace Kernel

variable {T : Type} {k k' : Kernel T} {bid : ℤ} {b : BsemId}

/-- `&bsems[bid]`. -/
def addr (bid : ℤ) : ℤ := 3 * bid

/-- `&bsems[bid].state`. -/
def stateAddr (bid : ℤ) : ℤ := addr bid

/-- `&bsems[bid].bid`. -/
def bidAddr (bid : ℤ) : ℤ := addr bid + 1

/-- `&bsems[bid].unlocked`. -/
def unlockedAddr (bid : ℤ) : ℤ := addr bid + 2

def store (k : Kernel T) (a : ℤ) (v : UInt) : Kernel T :=
  { k with word := update k.word a v }

/-- `wakeup`. -/
def wakeup (k : Kernel T) (a : ℤ) : Kernel T :=
  { k with chan := fun u => if k.chan u = some a then none else k.chan u }

/-- How a call ends. -/
inductive Result (T : Type)
  | ret (v : ℤ) (k : Kernel T) -- It returns this value
  | asleep (k : Kernel T) -- It sleeps

/-- What a call does: the words that it accesses in `bsems`, and how it ends. -/
structure Call (T : Type) where
  accessed : List ℤ
  result : Result T

/-- `bsem_free`. -/
def bsemFree (k : Kernel T) (bid : ℤ) : Call T :=
  ⟨[stateAddr bid], .ret 0 (k.store (stateAddr bid) 0)⟩

section

variable [DecidableEq T]

/-- `bsem_down`, called by thread `t`. -/
def bsemDown (k : Kernel T) (t : T) (bid : ℤ) : Call T :=
  ⟨[unlockedAddr bid],
    if k.word (unlockedAddr bid) = 0 then
      .asleep { k with chan := update k.chan t (some (addr bid)) }
    else .ret 0 (k.store (unlockedAddr bid) 0)⟩

end

/-- `bsem_up`. -/
def bsemUp (k : Kernel T) (bid : ℤ) : Call T :=
  ⟨[unlockedAddr bid], .ret 0 ((k.store (unlockedAddr bid) 1).wakeup (addr bid))⟩

/-- `bsem_alloc`. -/
def bsemAlloc (k : Kernel T) : ℤ × Kernel T :=
  match (finRange MAX_BSEM).find? fun b => k.word (stateAddr b.val) = 0 with
  | some b =>
    (b.val, ((k.store (bidAddr b.val) (BitVec.ofNat 32 b.val)).store (stateAddr b.val) 1).store
      (unlockedAddr b.val) 1)
  | none => (-1, k)

/-- The three system calls. -/
inductive Sys
  | free
  | down
  | up
  deriving DecidableEq, Repr

/-- The system call, by thread `t`; `argint` takes the low word of `a0` as an `int`. -/
def sysBsem [DecidableEq T] (k : Kernel T) (t : T) (c : Sys) (a0 : Word) : Call T :=
  let bid := (a0.setWidth 32).toInt
  match c with
  | .free => k.bsemFree bid
  | .down => k.bsemDown t bid
  | .up => k.bsemUp bid

/-! ### The table -/

/-- The table that the words of `bsems` hold. -/
def bsems (k : Kernel T) : Bsems := fun b =>
  ⟨k.word (stateAddr b.val) ≠ 0, (k.word (bidAddr b.val)).toInt, k.word (unlockedAddr b.val) ≠ 0⟩

/-- The number names an entry that is in use. -/
def Allocated (k : Kernel T) (bid : ℤ) : Prop :=
  ∃ b : BsemId, bid = b.val ∧ (k.bsems b).state = true

/-- The word is in `bsems`. -/
def InTable (a : ℤ) : Prop := 0 ≤ a ∧ a < 3 * MAX_BSEM

theorem inTable_stateAddr : InTable (stateAddr bid) ↔ 0 ≤ bid ∧ bid < MAX_BSEM := by
  simp only [InTable, stateAddr, addr]
  omega

theorem inTable_unlockedAddr : InTable (unlockedAddr bid) ↔ 0 ≤ bid ∧ bid < MAX_BSEM := by
  simp only [InTable, unlockedAddr, addr]
  omega

/-- A number in range that is not in use has `state` 0. -/
theorem state_of_not_allocated (hbid : 0 ≤ bid ∧ bid < MAX_BSEM) (h : ¬ k.Allocated bid) :
    k.word (stateAddr bid) = 0 := by
  by_contra hne
  refine h ⟨⟨bid.toNat, by omega⟩, (Int.toNat_of_nonneg hbid.1).symm, ?_⟩
  simpa [bsems, Int.toNat_of_nonneg hbid.1] using hne

theorem bsems_apply_congr (h : ∀ a, addr b.val ≤ a → a < addr b.val + 3 → k'.word a = k.word a) :
    k'.bsems b = k.bsems b := by
  unfold bsems stateAddr bidAddr unlockedAddr
  rw [h (addr b.val) (by omega) (by omega), h (addr b.val + 1) (by omega) (by omega),
    h (addr b.val + 2) (by omega) (by omega)]

theorem bsems_congr (h : ∀ a, InTable a → k'.word a = k.word a) : k'.bsems = k.bsems := by
  funext b
  have hb := b.isLt
  refine bsems_apply_congr fun a hlo hhi => h a ?_
  simp only [addr] at hlo hhi
  exact ⟨by omega, by omega⟩

/-! ### Calls with any argument -/

/-- The call stays within the table, and does nothing if the semaphore is not in use. -/
def Safe (k : Kernel T) (bid : ℤ) (c : Call T) : Prop :=
  (∀ a ∈ c.accessed, InTable a) ∧ (¬ k.Allocated bid → ∃ v, c.result = .ret v k)

variable {a : ℤ} {v : UInt}

theorem store_eq_self : k.store a v = k ↔ k.word a = v := by
  constructor
  · intro h
    have := congrArg (fun k => k.word a) h
    simpa [store] using this.symm
  · rintro rfl
    simp [store]

theorem wakeup_eq_self : k.wakeup a = k ↔ ∀ u, k.chan u ≠ some a := by
  constructor
  · intro h u hu
    have := congrArg (fun k => k.chan u) h
    simp [wakeup, hu] at this
  · intro h
    simp [wakeup, h]

theorem safe_bsemFree : Safe k bid (k.bsemFree bid) ↔ 0 ≤ bid ∧ bid < MAX_BSEM := by
  constructor
  · intro h
    exact inTable_stateAddr.1 (h.1 _ (mem_singleton_self _))
  · intro h
    refine ⟨fun a ha => ?_, fun hno => ⟨0, ?_⟩⟩
    · rw [mem_singleton.1 ha]
      exact inTable_stateAddr.2 h
    · rw [bsemFree, store_eq_self.2 (state_of_not_allocated h hno)]

theorem safe_bsemUp : Safe k bid (k.bsemUp bid) ↔ (0 ≤ bid ∧ bid < MAX_BSEM) ∧
    (k.Allocated bid ∨ k.word (unlockedAddr bid) = 1 ∧ ∀ u, k.chan u ≠ some (addr bid)) := by
  have hsame : ((k.store (unlockedAddr bid) 1).wakeup (addr bid) = k) ↔
      k.word (unlockedAddr bid) = 1 ∧ ∀ u, k.chan u ≠ some (addr bid) := by
    constructor
    · intro h
      have hword : k.word (unlockedAddr bid) = 1 := by
        have := congrArg (fun k => k.word (unlockedAddr bid)) h
        simpa [wakeup, store] using this.symm
      rw [store_eq_self.2 hword] at h
      exact ⟨hword, wakeup_eq_self.1 h⟩
    · rintro ⟨hword, hchan⟩
      rw [store_eq_self.2 hword, wakeup_eq_self.2 hchan]
  constructor
  · intro h
    refine ⟨inTable_unlockedAddr.1 (h.1 _ (mem_singleton_self _)), ?_⟩
    by_cases hal : k.Allocated bid
    · exact .inl hal
    · obtain ⟨v, hv⟩ := h.2 hal
      injection hv with _ hk
      exact .inr (hsame.1 hk)
  · rintro ⟨hbid, hcase⟩
    refine ⟨fun a ha => ?_, fun hno => ⟨0, ?_⟩⟩
    · rw [mem_singleton.1 ha]
      exact inTable_unlockedAddr.2 hbid
    · rw [bsemUp, hsame.2 (hcase.resolve_left hno)]

section

variable [DecidableEq T] {t : T}

theorem safe_bsemDown : Safe k bid (k.bsemDown t bid) ↔
    (0 ≤ bid ∧ bid < MAX_BSEM) ∧ k.Allocated bid := by
  constructor
  · intro h
    refine ⟨inTable_unlockedAddr.1 (h.1 _ (mem_singleton_self _)), ?_⟩
    -- it blocks, or locks the semaphore
    by_contra hno
    obtain ⟨v, hv⟩ := h.2 hno
    unfold bsemDown at hv
    dsimp only at hv
    split_ifs at hv with hlocked
    injection hv with _ hk
    exact hlocked (store_eq_self.1 hk)
  · rintro ⟨hbid, hal⟩
    refine ⟨fun a ha => ?_, fun hno => absurd hal hno⟩
    rw [mem_singleton.1 ha]
    exact inTable_unlockedAddr.2 hbid

/-- When a call is safe. -/
def Harmless (k : Kernel T) (c : Sys) (bid : ℤ) : Prop :=
  (0 ≤ bid ∧ bid < MAX_BSEM) ∧
    (c = .free ∨ k.Allocated bid ∨
      c = .up ∧ k.word (unlockedAddr bid) = 1 ∧ ∀ u, k.chan u ≠ some (addr bid))

/-- **Semaphore calls with any argument.** For every value of the argument register and every state
of the table, the call accesses only entries of `bsems`, and changes nothing and does not block if
the semaphore is not in use, exactly when the number is in range and the call is `bsem_free`, or
the semaphore is in use, or the call is `bsem_up` on a semaphore that is unlocked and that nobody
waits for. -/
theorem bsem_calls_safe_iff (k : Kernel T) (t : T) (c : Sys) (a0 : Word) :
    Safe k (a0.setWidth 32).toInt (k.sysBsem t c a0) ↔ Harmless k c (a0.setWidth 32).toInt := by
  unfold sysBsem Harmless
  cases c with
  | free => simp [safe_bsemFree]
  | down => simp [safe_bsemDown]
  | up => simp [safe_bsemUp]

end

/-- No semaphore is in use, and nobody sleeps. -/
def unusedTable : Kernel ℕ := ⟨fun _ => 0, fun _ => none⟩

/-- `bsem_free(5)` is harmless. -/
theorem bsem_free_unused_safe : Safe unusedTable 5 (unusedTable.sysBsem 0 .free 5) :=
  (bsem_calls_safe_iff unusedTable 0 .free 5).2 ⟨by decide, .inl rfl⟩

/-- `bsem_up(-1)` writes to the word in front of the table, and `bsem_up(5)` unlocks a semaphore
that is not in use. -/
theorem bsem_up_not_safe : (unusedTable.sysBsem 0 .up (-1)).accessed = [-1] ∧ ¬ InTable (-1) ∧
    ¬ unusedTable.Allocated 5 ∧ (unusedTable.bsems 5).unlocked = false ∧
    ∃ k', (unusedTable.sysBsem 0 .up 5).result = .ret 0 k' ∧ (k'.bsems 5).unlocked = true := by
  refine ⟨by decide, ?_, ?_, rfl, _, rfl, rfl⟩
  · simp [InTable]
  · rintro ⟨b, -, hb⟩
    cases hb

/-! ### `csem_alloc` -/

theorem bsems_store_of_ne {c : BsemId} (hc : c ≠ b)
    (ha : addr b.val ≤ a ∧ a < addr b.val + 3) : (k.store a v).bsems c = k.bsems c := by
  have hval : (c.val : ℤ) ≠ b.val := fun h => hc (Fin.ext (by omega))
  refine bsems_apply_congr fun a' hlo hhi => update_of_ne ?_ ..
  simp only [addr] at ha hlo hhi
  omega

/-- `bsem_alloc` on the words of `bsems` is `bsem_alloc` on the table. -/
theorem bsemAlloc_cases (k : Kernel T) :
    k.bsemAlloc = (-1, k) ∧ (∀ b, (k.bsems b).state = true) ∨
      ∃ b : BsemId, ∃ k', k.bsemAlloc = ((b.val : ℤ), k') ∧ (k.bsems b).state = false ∧
        k'.bsems = k.bsems.take b := by
  unfold bsemAlloc
  split
  next b hfind =>
    have hstate : k.word (stateAddr b.val) = 0 := by simpa using find?_some hfind
    refine .inr ⟨b, _, rfl, by simp [bsems, hstate], ?_⟩
    have hbid : (BitVec.ofNat 32 b.val).toInt = b.val := by
      have hlt : b.val < 128 := b.isLt
      rw [BitVec.toInt_eq_toNat_cond, BitVec.toNat_ofNat]
      omega
    funext c
    by_cases hc : c = b
    · subst hc
      simp [bsems, store, Bsems.take, stateAddr, bidAddr, unlockedAddr, hbid]
    · rw [bsems_store_of_ne hc, bsems_store_of_ne hc, bsems_store_of_ne hc, Bsems.take,
        update_of_ne hc]
      all_goals simp only [stateAddr, bidAddr, unlockedAddr]; omega
  next hfind =>
    refine .inl ⟨rfl, fun b => ?_⟩
    have := find?_eq_none.1 hfind b (mem_finRange b)
    simpa [bsems] using this

/-- `struct counting_semaphore`. -/
structure CsemMem where
  value : UInt
  s1 : ℤ
  s2 : ℤ
  deriving DecidableEq, Repr

/-- How `csem_alloc` ends. -/
inductive CsemResult (T : Type)
  | ret (v : ℤ) (sem : CsemMem) (k : Kernel T)
  | asleep

/-- The end of `csem_alloc`. -/
def csemFill (k : Kernel T) (sem : CsemMem) (initialValue : UInt) (s1 s2 : ℤ) : CsemResult T :=
  if s1 < 0 ∨ s2 < 0 then .ret (-1) sem k else .ret 0 ⟨initialValue, s1, s2⟩ k

/-- `csem_alloc`, called by thread `t`. -/
def csemAlloc [DecidableEq T] (k : Kernel T) (t : T) (sem : CsemMem) (initialValue : UInt) :
    CsemResult T :=
  let (s1, k) := k.bsemAlloc
  let (s2, k) := k.bsemAlloc
  if initialValue = 0 then
    match (k.bsemDown t s2).result with
    | .ret _ k => k.csemFill sem initialValue s1 s2
    | .asleep _ => .asleep
  else k.csemFill sem initialValue s1 s2

/-- The free entries of the table. -/
def freeIds (k : Kernel T) : Finset BsemId := Finset.univ.filter fun b => (k.bsems b).state = false

/-- The same semaphores are in use, and each of them is locked or unlocked as before. -/
def SameTable (k k' : Kernel T) : Prop :=
  ∀ b, (k'.bsems b).state = (k.bsems b).state ∧ (k'.bsems b).unlocked = (k.bsems b).unlocked

variable {sem : CsemMem}

section

variable [DecidableEq T]

/-- `bsem_down(-1)` does not touch the table, if it returns. -/
theorem bsems_bsemDown_neg {t : T} {v : ℤ} (h : (k.bsemDown t (-1)).result = .ret v k') :
    k'.bsems = k.bsems := by
  unfold bsemDown at h
  dsimp only at h
  split_ifs at h
  cases h
  refine bsems_congr fun a ha => update_of_ne ?_ ..
  rintro rfl
  exact absurd ha (by simp [InTable, unlockedAddr, addr])

variable {sem' : CsemMem}

/-- When the second `bsem_alloc` has failed, the table is as the first one has left it. -/
theorem csemAlloc_failed {t : T} {s1 r : ℤ} {k1 : Kernel T} (h1 : k.bsemAlloc = (s1, k1))
    (h2 : k1.bsemAlloc = (-1, k1))
    (h : k.csemAlloc t sem v = .ret r sem' k') : sem' = sem ∧ k'.bsems = k1.bsems := by
  unfold csemAlloc at h
  simp only [h1, h2] at h
  have hfill : ∀ {k2}, k2.csemFill sem v s1 (-1) = .ret r sem' k' → sem' = sem ∧ k' = k2 := by
    intro k2 hk2
    rw [csemFill, if_pos (.inr (by decide))] at hk2
    cases hk2
    exact ⟨rfl, rfl⟩
  split_ifs at h
  · split at h
    next hdown =>
      obtain ⟨hsem, rfl⟩ := hfill h
      exact ⟨hsem, bsems_bsemDown_neg hdown⟩
    · cases h
  · obtain ⟨hsem, rfl⟩ := hfill h
    exact ⟨hsem, rfl⟩

theorem csemAlloc_found {t : T} {b c : BsemId} {r : ℤ} {k1 k2 : Kernel T}
    (h1 : k.bsemAlloc = ((b.val : ℤ), k1)) (h2 : k1.bsemAlloc = ((c.val : ℤ), k2))
    (h : k.csemAlloc t sem v = .ret r sem' k') : r = 0 := by
  unfold csemAlloc at h
  simp only [h1, h2] at h
  have hfill : ∀ {k3 : Kernel T}, k3.csemFill sem v b.val c.val = .ret r sem' k' → r = 0 := by
    intro k3 hk3
    rw [csemFill, if_neg (by omega)] at hk3
    cases hk3
    rfl
  split_ifs at h
  · split at h
    · exact hfill h
    · cases h
  · exact hfill h

/-- **`csem_alloc` that fails.** For every state of the table and every initial value, if
`csem_alloc` returns -1, then the semaphores in use, their locks and `*sem` are as before if and
only if the table did not have exactly one free entry. -/
theorem csem_alloc_fails_cleanly_iff {t : T} (h : k.csemAlloc t sem v = .ret (-1) sem' k') :
    SameTable k k' ∧ sem' = sem ↔ k.freeIds.card ≠ 1 := by
  rcases k.bsemAlloc_cases with ⟨h₁, hfull⟩ | ⟨b, k₁, h₁, hfree, htake⟩
  · -- no entry is free: nothing has been allocated
    obtain ⟨hsem, hsame⟩ := csemAlloc_failed h₁ h₁ h
    have hempty : k.freeIds = ∅ := by
      ext b
      simp [freeIds, hfull b]
    rw [hempty]
    simp [SameTable, hsame, hsem]
  · rcases k₁.bsemAlloc_cases with ⟨h₂, hfull⟩ | ⟨c, k₂, h₂, -, -⟩
    · -- one entry was free, and stays allocated
      obtain ⟨hsem, hsame⟩ := csemAlloc_failed h₁ h₂ h
      have hone : k.freeIds = {b} := by
        ext c
        by_cases hc : c = b
        · simp [freeIds, hc, hfree]
        · have := hfull c
          rw [htake] at this
          simp only [Bsems.take, update_of_ne hc] at this
          simp [freeIds, hc, this]
      rw [hone, Finset.card_singleton]
      refine iff_of_false (fun hs => ?_) (by simp)
      have := (hs.1 b).1
      rw [hsame, htake, hfree] at this
      simp [Bsems.take] at this
    · cases csemAlloc_found h₁ h₂ h

end

/-- All entries are in use, apart from entry 127 if `last` is not set; all are unlocked. -/
def crowded (last : Bool) : Kernel ℕ where
  word a := if a = stateAddr 127 ∧ last = false then 0 else 1
  chan _ := none

/-- What a call returns and stores, and whether entry 127 is in use afterwards. -/
def CsemResult.summary : CsemResult ℕ → Option (ℤ × CsemMem × Bool)
  | .ret v sem k => some (v, sem, (k.bsems 127).state)
  | .asleep => none

theorem CsemResult.summary_eq_some {x : CsemResult ℕ} {v : ℤ} {b : Bool}
    (h : x.summary = some (v, sem, b)) : ∃ k, x = .ret v sem k ∧ (k.bsems 127).state = b := by
  cases x with
  | asleep => cases h
  | ret v' sem' k =>
    cases h
    exact ⟨k, rfl, rfl⟩

/-- No entry is free, and `csem_alloc` changes nothing. -/
theorem csem_alloc_full : ∃ k', (crowded true).csemAlloc 0 ⟨0, 0, 0⟩ 3 = .ret (-1) ⟨0, 0, 0⟩ k' ∧
    SameTable (crowded true) k' := by
  have hrun : ((crowded true).csemAlloc 0 ⟨0, 0, 0⟩ 3).summary = some (-1, ⟨0, 0, 0⟩, true) := by
    decide
  obtain ⟨k', hcall, -⟩ := CsemResult.summary_eq_some hrun
  have hcard : (crowded true).freeIds.card ≠ 1 := by decide
  exact ⟨k', hcall, ((csem_alloc_fails_cleanly_iff hcall).2 hcard).1⟩

/-- One entry is free; `csem_alloc` fails, and has allocated it. -/
theorem csem_alloc_leaks : ∃ k', (crowded false).csemAlloc 0 ⟨0, 0, 0⟩ 3 = .ret (-1) ⟨0, 0, 0⟩ k' ∧
    ((crowded false).bsems 127).state = false ∧ (k'.bsems 127).state = true := by
  have hrun : ((crowded false).csemAlloc 0 ⟨0, 0, 0⟩ 3).summary = some (-1, ⟨0, 0, 0⟩, true) := by
    decide
  obtain ⟨k', hcall, hstate⟩ := CsemResult.summary_eq_some hrun
  exact ⟨k', hcall, by decide, hstate⟩

end Kernel

end Xv6.Sem
