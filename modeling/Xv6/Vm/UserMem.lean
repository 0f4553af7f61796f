import Xv6.Lib.Segment
import Mathlib.Data.BitVec

/-!
# User memory as the kernel reaches it (`walkaddr`, `copyout`, `copyin` of `kernel/vm.c`)

A user address space is seen through `walkaddr`: a map from page-aligned virtual addresses to
the contents of the page, defined where the page is valid and user-accessible.  `copyout` and
`copyin` run page by page and stop at the first page that is not there; what was copied before
stays copied.
-/

namespace Xv6

/-- `uint64`. -/
abbrev Word := BitVec 64

/-- `uint`. -/
abbrev UInt := BitVec 32

/-- `uchar`. -/
abbrev Byte := BitVec 8

/-- Bytes per page. -/
def PGSIZE : ℕ := 4096

/-- One beyond the highest virtual address: `1L << (9 + 9 + 9 + 12 - 1)`. -/
def MAXVA : Word := 1#64 <<< 38

/-- `PGROUNDDOWN(a)`: `a & ~(PGSIZE-1)`. -/
def pgRoundDown (a : Word) : Word := a &&& ~~~4095#64

/-- The contents of a page. -/
abbrev Page := Fin PGSIZE → Byte

/-- The user-accessible pages of an address space. -/
abbrev UserMem := Word → Option Page

/-- `walkaddr`: no page at or above `MAXVA`. -/
def walkaddr (m : UserMem) (va : Word) : Option Page := if MAXVA ≤ va then none else m va

/-- Overwrite the bytes of a page from offset `off` on. -/
def Page.write (pg : Page) (off : ℕ) (src : List Byte) : Page := fun i =>
  if off ≤ i.val ∧ i.val < off + src.length then src.getD (i.val - off) 0 else pg i

/-- The `n` bytes of a page from offset `off` on. -/
def Page.read (pg : Page) (off n : ℕ) : List Byte :=
  (List.range n).map fun k => if h : off + k < PGSIZE then pg ⟨off + k, h⟩ else 0

/-- The loop of `copyout`.  Every turn copies at least one byte, so the length of the source
bounds the number of turns. -/
def copyoutLoop : ℕ → UserMem → Word → List Byte → UserMem × ℤ
  | 0, m, _, _ => (m, 0)
  | turns + 1, m, dstva, src =>
    if src = [] then (m, 0)
    else
      let va0 := pgRoundDown dstva
      match walkaddr m va0 with
      | none => (m, -1)
      | some pg =>
        let off := (dstva - va0).toNat
        let n := min (PGSIZE - off) src.length
        copyoutLoop turns (Function.update m va0 (some (pg.write off (src.take n))))
          (va0 + BitVec.ofNat 64 PGSIZE) (src.drop n)

/-- `copyout`: the memory afterwards, and 0 or -1. -/
def copyout (m : UserMem) (dstva : Word) (src : List Byte) : UserMem × ℤ :=
  copyoutLoop src.length m dstva src

/-- The loop of `copyin`: the bytes copied, and 0 or -1. -/
def copyinLoop : ℕ → UserMem → Word → ℕ → List Byte × ℤ
  | 0, _, _, _ => ([], 0)
  | turns + 1, m, srcva, len =>
    if len = 0 then ([], 0)
    else
      let va0 := pgRoundDown srcva
      match walkaddr m va0 with
      | none => ([], -1)
      | some pg =>
        let off := (srcva - va0).toNat
        let n := min (PGSIZE - off) len
        let rest := copyinLoop turns m (va0 + BitVec.ofNat 64 PGSIZE) (len - n)
        (pg.read off n ++ rest.1, rest.2)

/-- `copyin`: on failure the bytes before the missing page have been copied. -/
def copyin (m : UserMem) (srcva : Word) (len : ℕ) : List Byte × ℤ := copyinLoop len m srcva len

/-- The bytes of a word in memory, least significant first. -/
def Word.bytes (w : Word) : List Byte := (List.range 8).map fun k => w.extractLsb' (8 * k) 8

/-- The word stored in eight bytes, least significant first. -/
def Word.ofBytes (bs : List Byte) : Word :=
  (bs.take 8).foldr (fun b w => w <<< 8 ||| b.setWidth 64) 0

/-! ### Copies of bytes that are all there -/

open Segment

theorem toNat_pgRoundDown (a : Word) : (pgRoundDown a).toNat = a.toNat / PGSIZE * PGSIZE := by
  have hshift : pgRoundDown a = (a >>> 12) <<< 12 := by
    refine BitVec.eq_of_getLsbD_eq fun k hk => ?_
    have hmask : (~~~4095#64).getLsbD k = decide (12 ≤ k) := by
      revert k
      decide
    rw [pgRoundDown, BitVec.getLsbD_and, hmask, BitVec.getLsbD_shiftLeft,
      BitVec.getLsbD_ushiftRight]
    by_cases h : 12 ≤ k
    · simp [h, hk]
    · simp [h, Nat.not_le.1 h]
  have ha := a.isLt
  rw [hshift, BitVec.toNat_shiftLeft, BitVec.toNat_ushiftRight, Nat.shiftLeft_eq,
    Nat.shiftRight_eq_div_pow, Nat.mod_eq_of_lt]
  · rfl
  · omega

/-- The byte at a user address. -/
def UserMem.byte (m : UserMem) (va : Word) : Option Byte :=
  (walkaddr m (pgRoundDown va)).map fun pg => pg ⟨va.toNat % PGSIZE, Nat.mod_lt _ (by decide)⟩

variable {va : Word}

/-- An address in the page of `va`. -/
theorem pgRoundDown_add {k : ℕ} (h : va.toNat % PGSIZE + k < PGSIZE) :
    pgRoundDown (va + BitVec.ofNat 64 k) = pgRoundDown va ∧
      (va + BitVec.ofNat 64 k).toNat % PGSIZE = va.toNat % PGSIZE + k := by
  have hva := va.isLt
  have hPG : PGSIZE = 4096 := rfl
  rw [hPG] at h ⊢
  have hsum : (va + BitVec.ofNat 64 k).toNat = va.toNat + k := by
    rw [BitVec.toNat_add, BitVec.toNat_ofNat]
    omega
  refine ⟨BitVec.eq_of_toNat_eq ?_, ?_⟩
  · rw [toNat_pgRoundDown, toNat_pgRoundDown, hsum, hPG]
    omega
  · rw [hsum]
    omega

theorem toNat_sub_pgRoundDown (va : Word) : (va - pgRoundDown va).toNat = va.toNat % PGSIZE := by
  have hva := va.isLt
  have hPG : PGSIZE = 4096 := rfl
  rw [BitVec.toNat_sub, toNat_pgRoundDown, hPG]
  omega

variable {m : UserMem} {turns len : ℕ}

/-- If bytes are left after a turn, the page was gone through to its end. -/
theorem page_end {n : ℕ} (hn : n = min (PGSIZE - va.toNat % PGSIZE) len) (hmore : n < len) :
    pgRoundDown va + BitVec.ofNat 64 PGSIZE = va + BitVec.ofNat 64 n := by
  refine BitVec.eq_of_toNat_eq ?_
  have hPG : PGSIZE = 4096 := rfl
  simp only [BitVec.toNat_add, toNat_pgRoundDown, BitVec.toNat_ofNat]
  rw [hPG] at hn ⊢
  omega

/-- The loop of `copyin` at a page that is not there. -/
theorem copyinLoop_of_walkaddr_none (hlen : len ≠ 0)
    (hpg : walkaddr m (pgRoundDown va) = none) : copyinLoop (turns + 1) m va len = ([], -1) := by
  rw [copyinLoop, if_neg hlen]
  simp only [hpg]

/-- A turn of the loop of `copyin` copies to the end of the page, or all that is left. -/
theorem copyinLoop_turn (turns : ℕ) {n : ℕ} {pg : Page} (hlen : len ≠ 0)
    (hpg : walkaddr m (pgRoundDown va) = some pg) (hn : n = min (PGSIZE - va.toNat % PGSIZE) len) :
    (∀ k < n, m.byte (va + BitVec.ofNat 64 k) ≠ none) ∧
    copyinLoop (turns + 1) m va len =
      (table n (fun k => (m.byte (va + BitVec.ofNat 64 k)).getD 0) ++
        (copyinLoop turns m (va + BitVec.ofNat 64 n) (len - n)).1,
        (copyinLoop turns m (va + BitVec.ofNat 64 n) (len - n)).2) := by
  have hbyte : ∀ k (hk : k < n), ∃ h, m.byte (va + BitVec.ofNat 64 k) =
      some (pg ⟨va.toNat % PGSIZE + k, h⟩) := by
    intro k hk
    have hlt : va.toNat % PGSIZE + k < PGSIZE := by omega
    obtain ⟨hround, hoff⟩ := pgRoundDown_add hlt
    refine ⟨hlt, ?_⟩
    simp only [UserMem.byte, hround, hpg, Option.map_some, hoff]
  refine ⟨fun k hk => by rw [(hbyte k hk).2]; simp, ?_⟩
  have hread : pg.read (va.toNat % PGSIZE) n =
      table n fun k => (m.byte (va + BitVec.ofNat 64 k)).getD 0 := by
    refine table_congr fun k hk => ?_
    obtain ⟨hlt, hk⟩ := hbyte k hk
    rw [dif_pos hlt, hk, Option.getD_some]
  have hrest : copyinLoop turns m (pgRoundDown va + BitVec.ofNat 64 PGSIZE) (len - n) =
      copyinLoop turns m (va + BitVec.ofNat 64 n) (len - n) := by
    by_cases hmore : len - n = 0
    · rw [hmore]
      cases turns with
      | zero => simp only [copyinLoop]
      | succ turns => simp only [copyinLoop, if_true]
    · rw [page_end hn (by omega)]
  rw [copyinLoop, if_neg hlen]
  simp only [hpg, toNat_sub_pgRoundDown, ← hn, hread, hrest]

/-- `copyin` copies the bytes up to the first one that is not there. -/
theorem copyinLoop_spec (m : UserMem) (va : Word) (hturns : len ≤ turns) : ∃ c ≤ len,
    (∀ k < c, m.byte (va + BitVec.ofNat 64 k) ≠ none) ∧
    (c < len → m.byte (va + BitVec.ofNat 64 c) = none) ∧ copyinLoop turns m va len =
      (table c (fun k => (m.byte (va + BitVec.ofNat 64 k)).getD 0), if c = len then 0 else -1) := by
  induction turns generalizing va len with
  | zero =>
    obtain rfl : len = 0 := by omega
    exact ⟨0, le_rfl, nofun, nofun, rfl⟩
  | succ turns ih =>
    by_cases hlen : len = 0
    · subst hlen
      exact ⟨0, le_rfl, nofun, nofun, by rw [copyinLoop, if_pos rfl]; rfl⟩
    cases hpg : walkaddr m (pgRoundDown va) with
    | none =>
      refine ⟨0, Nat.zero_le _, nofun, fun _ => by simp [UserMem.byte, hpg], ?_⟩
      rw [copyinLoop_of_walkaddr_none hlen hpg, if_neg (Ne.symm hlen)]
      rfl
    | some pg =>
      obtain ⟨n, hn⟩ : ∃ n, n = min (PGSIZE - va.toNat % PGSIZE) len := ⟨_, rfl⟩
      have hmod : va.toNat % PGSIZE < PGSIZE := Nat.mod_lt _ (by decide)
      obtain ⟨hthere, hturn⟩ := copyinLoop_turn turns hlen hpg hn
      have hadd : ∀ k, va + BitVec.ofNat 64 n + BitVec.ofNat 64 k = va + BitVec.ofNat 64 (n + k) :=
        fun k => by rw [BitVec.ofNat_add, BitVec.add_assoc]
      have hleft : len - n ≤ turns := by omega
      obtain ⟨c, hc, hprev, hend, hrest⟩ := ih (va + BitVec.ofNat 64 n) hleft
      simp only [hadd] at hprev hend hrest
      refine ⟨n + c, by omega, fun k hk => ?_, fun hlt => hend (by omega), ?_⟩
      · by_cases hkn : k < n
        · exact hthere k hkn
        · rw [← Nat.add_sub_of_le (Nat.not_lt.1 hkn)]
          exact hprev (k - n) (by omega)
      · rw [hturn, hrest, table_append n c fun k => (m.byte (va + BitVec.ofNat 64 k)).getD 0]
        simp only [show n + c = len ↔ c = len - n by omega]

/-- `copyin` of bytes that are all there. -/
theorem copyinLoop_of_byte {data : ℕ → Byte} (hturns : len ≤ turns)
    (h : ∀ k < len, m.byte (va + BitVec.ofNat 64 k) = some (data k)) :
    copyinLoop turns m va len = ((List.range len).map data, 0) := by
  obtain ⟨c, hc, -, hend, hcopy⟩ := copyinLoop_spec m va hturns
  have hall : c = len := by
    by_contra hne
    have hlt : c < len := by omega
    cases (hend hlt).symm.trans (h c hlt)
  rw [hcopy, if_pos hall, hall, ← table]
  congr 1
  exact table_congr fun k hk => by rw [h k hk, Option.getD_some]

/-! ### The bytes that `copyout` writes -/

theorem walkaddr_update {va' : Word} {pg : Page} (h : va ≠ va') :
    walkaddr (Function.update m va' (some pg)) va = walkaddr m va := by
  simp only [walkaddr, Function.update_of_ne h]

variable {dst : Word}

theorem byte_write {pg : Page} {src : List Byte} (hpg : walkaddr m (pgRoundDown dst) = some pg)
    (hfit : dst.toNat % PGSIZE + src.length ≤ PGSIZE) (va : Word) :
    UserMem.byte (Function.update m (pgRoundDown dst)
        (some (pg.write (dst.toNat % PGSIZE) src))) va =
      if dst.toNat ≤ va.toNat ∧ va.toNat < dst.toNat + src.length then
        some (src.getD (va.toNat - dst.toNat) 0)
      else m.byte va := by
  have hPG : PGSIZE = 4096 := rfl
  have hlow : ¬ MAXVA ≤ pgRoundDown dst := fun hmax => by simp [walkaddr, hmax] at hpg
  have hdst := toNat_pgRoundDown dst
  have hva := toNat_pgRoundDown va
  unfold UserMem.byte
  by_cases hsame : pgRoundDown va = pgRoundDown dst
  · rw [hsame, hpg]
    rw [hsame, hdst] at hva
    simp only [walkaddr, if_neg hlow, Function.update_self, Option.map_some, Page.write]
    have hoff : va.toNat % PGSIZE = va.toNat % 4096 := rfl
    have hoff' : dst.toNat % PGSIZE = dst.toNat % 4096 := rfl
    rw [hPG] at hva
    split_ifs with h1 h2 h2
    · congr 2
      omega
    · omega
    · omega
    · rfl
  · rw [walkaddr_update hsame, if_neg]
    rintro ⟨hle, hlt⟩
    refine hsame (BitVec.eq_of_toNat_eq ?_)
    rw [hva, hdst]
    rw [hPG] at hfit ⊢
    omega

/-- `copyout` writes the bytes before the first page that is not there. -/
theorem copyoutLoop_spec (turns : ℕ) (m : UserMem) (dst : Word) (src : List Byte) :
    ∃ c ≤ src.length,
    (src.length ≤ turns → c < src.length → m.byte (dst + BitVec.ofNat 64 c) = none) ∧
    ∀ va : Word, (copyoutLoop turns m dst src).1.byte va =
      if dst.toNat ≤ va.toNat ∧ va.toNat < dst.toNat + c then
        some (src.getD (va.toNat - dst.toNat) 0)
      else m.byte va := by
  induction turns generalizing m dst src with
  | zero => exact ⟨0, Nat.zero_le _, fun h _ => by omega, fun va => (if_neg (by omega)).symm⟩
  | succ turns ih =>
    rw [copyoutLoop]
    split_ifs with hsrc
    · exact ⟨0, Nat.zero_le _, fun _ h => by simp [hsrc] at h, fun va => (if_neg (by omega)).symm⟩
    cases hpg : walkaddr m (pgRoundDown dst) with
    | none =>
      simp only [hpg]
      refine ⟨0, Nat.zero_le _, fun _ _ => ?_, fun va => (if_neg (by omega)).symm⟩
      rw [BitVec.add_zero, UserMem.byte, hpg, Option.map_none]
    | some pg =>
      simp only [hpg, toNat_sub_pgRoundDown]
      have hPG : PGSIZE = 4096 := rfl
      have hmod : dst.toNat % PGSIZE < PGSIZE := Nat.mod_lt _ (by decide)
      obtain ⟨n, hn⟩ : ∃ n, n = min (PGSIZE - dst.toNat % PGSIZE) src.length := ⟨_, rfl⟩
      have htake : (src.take n).length = n := by
        rw [List.length_take]
        omega
      have hwrite := byte_write hpg (show _ + (src.take n).length ≤ PGSIZE by omega)
      rw [htake] at hwrite
      rw [← hn]
      by_cases hmore : n < src.length
      · rw [page_end hn hmore]
        -- the page is below `MAXVA`, so that the next address does not wrap around
        have hnext : (dst + BitVec.ofNat 64 n).toNat = dst.toNat + n := by
          have hlow : (pgRoundDown dst).toNat < 2 ^ 38 := by
            unfold walkaddr at hpg
            split_ifs at hpg with hmax
            simpa [MAXVA, BitVec.le_def] using hmax
          rw [toNat_pgRoundDown, hPG] at hlow
          rw [BitVec.toNat_add, BitVec.toNat_ofNat]
          omega
        obtain ⟨c, hc, hend, hbyte⟩ := ih (Function.update m (pgRoundDown dst)
          (some (pg.write (dst.toNat % PGSIZE) (src.take n))))
          (dst + BitVec.ofNat 64 n) (src.drop n)
        rw [List.length_drop] at hc hend
        refine ⟨n + c, by omega, fun hturns hlt => ?_, fun va => ?_⟩
        · have hnone := hend (by omega) (by omega)
          rw [hwrite, BitVec.add_assoc, ← BitVec.ofNat_add] at hnone
          split_ifs at hnone
          exact hnone
        · rw [hbyte, hwrite, hnext]
          simp only [List.getD_eq_getElem?_getD, List.getElem?_drop, List.getElem?_take]
          by_cases hrest : dst.toNat + n ≤ va.toNat
          · rw [show n + (va.toNat - (dst.toNat + n)) = va.toNat - dst.toNat by omega]
            split_ifs <;> first | rfl | omega
          · split_ifs <;> first | rfl | omega
      · -- this was the last turn
        obtain rfl : n = src.length := by omega
        rw [List.take_length] at hwrite ⊢
        refine ⟨src.length, le_rfl, fun _ h => absurd h (lt_irrefl _), fun va => ?_⟩
        rw [List.drop_length, ← hwrite]
        cases turns <;> simp only [copyoutLoop, if_true]

/-- `copyout` changes no byte below its destination, and none behind what it copies. -/
theorem byte_copyout {src : List Byte}
    (h : va.toNat < dst.toNat ∨ dst.toNat + src.length ≤ va.toNat) :
    (copyout m dst src).1.byte va = m.byte va := by
  obtain ⟨c, hc, -, hbyte⟩ := copyoutLoop_spec src.length m dst src
  rw [copyout, hbyte, if_neg (by omega)]

/-- `copyout` maps no page. -/
theorem byte_copyout_eq_none (m : UserMem) (dst : Word) (src : List Byte) (va : Word) :
    (copyout m dst src).1.byte va = none ↔ m.byte va = none := by
  unfold copyout UserMem.byte
  rw [Option.map_eq_none_iff, Option.map_eq_none_iff]
  generalize src.length = turns
  induction turns generalizing m dst src with
  | zero => rfl
  | succ turns ih =>
    rw [copyoutLoop]
    split_ifs with hsrc
    · rfl
    cases hpg : walkaddr m (pgRoundDown dst) with
    | none => simp only [hpg]
    | some pg =>
      simp only [hpg, ih]
      by_cases hva : pgRoundDown va = pgRoundDown dst
      · rw [hva, hpg, walkaddr, Function.update_self]
        unfold walkaddr at hpg
        split_ifs at hpg ⊢
        simp
      · rw [walkaddr_update hva]

/-- `copyout` to a page that is not there changes nothing. -/
theorem copyout_of_none (src : List Byte)
    (h : walkaddr m (pgRoundDown dst) = none) : (copyout m dst src).1 = m := by
  unfold copyout
  cases src with
  | nil => rfl
  | cons b src => simp only [List.length_cons, copyoutLoop, h, reduceCtorEq, if_false]

end Xv6
