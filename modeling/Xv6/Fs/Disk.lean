import Xv6.Fs.Model

/-!
# The regions of the disk

The inode blocks, the bitmap and the data blocks do not overlap, so a write to one of them leaves
the others alone; within the inode blocks and the bitmap the same holds for single inodes and bits.
-/

namespace Xv6.Fs

open Bytes Block BitVec

/-! ### Inodes in a block -/

@[ext]
theorem Inode.ext' {ip jp : Inode} (htype : ip.type = jp.type) (hmajor : ip.major = jp.major)
    (hminor : ip.minor = jp.minor) (hnlink : ip.nlink = jp.nlink) (hsize : ip.size = jp.size)
    (haddrs : ∀ k, ip.addrs k = jp.addrs k) : ip = jp := by
  cases ip
  cases jp
  simp only at htype hmajor hminor hnlink hsize haddrs
  subst htype hmajor hminor hnlink hsize
  congr
  exact funext haddrs

theorem ofNat_peek_poke {b : ℕ → Byte} {o : ℕ} (v : BitVec 16) :
    BitVec.ofNat 16 (peek (poke b o 2 v.toNat) o 2) = v := by
  rw [peek_poke (by have := v.isLt; omega), ofNat_toNat, setWidth_eq]

theorem peek_pokes {m : ℕ} {b : ℕ → Byte} {o o' n : ℕ} {f : Fin m → UInt}
    (h : o' + n ≤ o ∨ o + 4 * m ≤ o') : peek (pokes b o f) o' n = peek b o' n := by
  refine peek_congr fun i hi hn => ?_
  rcases h with h | h
  · exact pokes_of_lt (by omega)
  · exact pokes_of_le (by omega)

theorem dinode_setDinode (blk : Block) (k : ℕ) (ip : Inode) :
    Block.dinode (setDinode blk k ip) k = ip := by
  have hlast : ∀ o n, o + n ≤ 64 * k + 12 → ∀ b : Block,
      peek (pokes b (64 * k + 12) ip.addrs) o n = peek b o n :=
    fun o n h b => peek_pokes (.inl h)
  refine Inode.ext' ?_ ?_ ?_ ?_ ?_ fun j => ?_
  · simp only [Block.dinode, setDinode]
    rw [hlast _ _ (by omega), peek_poke_of_disjoint (by omega), peek_poke_of_disjoint (by omega),
      peek_poke_of_disjoint (by omega), peek_poke_of_disjoint (by omega), ofNat_peek_poke]
  · simp only [Block.dinode, setDinode]
    rw [hlast _ _ (by omega), peek_poke_of_disjoint (by omega), peek_poke_of_disjoint (by omega),
      peek_poke_of_disjoint (by omega), ofNat_peek_poke]
  · simp only [Block.dinode, setDinode]
    rw [hlast _ _ (by omega), peek_poke_of_disjoint (by omega), peek_poke_of_disjoint (by omega),
      ofNat_peek_poke]
  · simp only [Block.dinode, setDinode]
    rw [hlast _ _ (by omega), peek_poke_of_disjoint (by omega), ofNat_peek_poke]
  · simp only [Block.dinode, setDinode]
    rw [word, hlast _ _ (by omega), ← word, word_poke]
  · simp only [Block.dinode, setDinode]
    exact word_pokes ip.addrs j

theorem setDinode_of_ne {blk : Block} {k i : ℕ} {ip : Inode} (h : i < 64 * k ∨ 64 * k + 64 ≤ i) :
    setDinode blk k ip i = blk i := by
  have hm : 4 * (NDIRECT + 1) = 52 := rfl
  simp only [setDinode]
  rcases h with h | h
  · rw [pokes_of_lt (by omega), poke_of_lt (by omega), poke_of_lt (by omega), poke_of_lt (by omega),
      poke_of_lt (by omega), poke_of_lt (by omega)]
  · rw [pokes_of_le (by omega), poke_of_le (by omega), poke_of_le (by omega), poke_of_le (by omega),
      poke_of_le (by omega), poke_of_le (by omega)]

theorem dinode_congr {blk blk' : Block} {k : ℕ}
    (h : ∀ i, 64 * k ≤ i → i < 64 * k + 64 → blk i = blk' i) :
    Block.dinode blk k = Block.dinode blk' k := by
  have hpeek : ∀ o n, 64 * k ≤ o → o + n ≤ 64 * k + 64 → peek blk o n = peek blk' o n :=
    fun o n ho hn => peek_congr fun i hi hin => h i (by omega) (by omega)
  refine Inode.ext' ?_ ?_ ?_ ?_ ?_ fun j => ?_
  · simp only [Block.dinode]; rw [hpeek _ _ (by omega) (by omega)]
  · simp only [Block.dinode]; rw [hpeek _ _ (by omega) (by omega)]
  · simp only [Block.dinode]; rw [hpeek _ _ (by omega) (by omega)]
  · simp only [Block.dinode]; rw [hpeek _ _ (by omega) (by omega)]
  · simp only [Block.dinode, word]; rw [hpeek _ _ (by omega) (by omega)]
  · have hj : j.val < 13 := j.isLt
    simp only [Block.dinode, word]; rw [hpeek _ _ (by omega) (by omega)]

theorem dinode_setDinode_of_ne {blk : Block} {k k' : ℕ} {ip : Inode} (h : k' ≠ k) :
    Block.dinode (setDinode blk k ip) k' = Block.dinode blk k' :=
  dinode_congr fun i hi hn => setDinode_of_ne (by omega)

/-! ### Regions -/

namespace Superblock

variable (sb : Superblock) {b c d i j : ℕ}

theorem nmeta_le_size : sb.nmeta ≤ sb.size := by
  have := sb.size_eq
  unfold nmeta
  omega

theorem bblock_lt_nmeta (hb : b < sb.size) : sb.bblock b < sb.nmeta := by
  have : b / BPB ≤ sb.size / BPB := Nat.div_le_div_right hb.le
  unfold bblock nmeta
  omega

theorem iblock_lt_bmapstart (hi : i < sb.ninodes) : sb.iblock i < sb.bmapstart := by
  have : i / IPB ≤ sb.ninodes / IPB := Nat.div_le_div_right hi.le
  have := sb.bmapstart_eq
  unfold iblock
  omega

theorem bmapstart_le_bblock (b : ℕ) : sb.bmapstart ≤ sb.bblock b := Nat.le_add_left ..

theorem bmapstart_lt_nmeta : sb.bmapstart < sb.nmeta := Nat.lt_add_of_pos_right (Nat.succ_pos _)

theorem iblock_ne_bblock (hi : i < sb.ninodes) : sb.iblock i ≠ sb.bblock b := by
  have := sb.iblock_lt_bmapstart hi
  have := sb.bmapstart_le_bblock b
  omega

variable {sb}

theorem IsData.ne_bblock (hd : sb.IsData d) (hb : b < sb.size) : d ≠ sb.bblock b := by
  have := sb.bblock_lt_nmeta hb
  have := hd.1
  omega

theorem IsData.ne_iblock (hd : sb.IsData d) (hi : i < sb.ninodes) : d ≠ sb.iblock i := by
  have := sb.iblock_lt_bmapstart hi
  have := sb.bmapstart_lt_nmeta
  have := hd.1
  omega

theorem IsData.ne_zero (hd : sb.IsData d) : d ≠ 0 := by
  have := sb.bmapstart_lt_nmeta
  have := hd.1
  omega

/-- A block number that fits into 32 bits is stored exactly. -/
theorem IsData.toNat_ofNat (hd : sb.IsData d) : (BitVec.ofNat 32 d).toNat = d := by
  have := hd.2
  have := sb.size_lt
  rw [BitVec.toNat_ofNat]
  omega

theorem IsData.ofNat_ne_zero (hd : sb.IsData d) : BitVec.ofNat 32 d ≠ 0 := by
  intro h
  have := congrArg BitVec.toNat h
  rw [hd.toNat_ofNat] at this
  exact hd.ne_zero this

end Superblock

variable {sb : Superblock} {s : Fs} {b c d i j : ℕ} {blk : Block}

@[simp] theorem setBlock_self : (s.setBlock b blk).block b = blk := Function.update_self ..

theorem setBlock_of_ne (h : d ≠ b) : (s.setBlock b blk).block d = s.block d :=
  Function.update_of_ne h ..

/-! ### The bitmap and the inode blocks -/

theorem used_setBlock_of_ne (h : sb.bblock c ≠ b) : (s.setBlock b blk).used sb c = s.used sb c := by
  rw [used, used, setBlock_of_ne h]

theorem bit_index (b c : ℕ) : sb.bblock c = sb.bblock b → (c % BPB = b % BPB ↔ c = b) := by
  unfold Superblock.bblock
  intro h
  have hdiv : c / BPB = b / BPB := by omega
  constructor
  · intro hmod
    rw [← Nat.div_add_mod c BPB, ← Nat.div_add_mod b BPB, hdiv, hmod]
  · rintro rfl
    rfl

theorem used_setBit (b c : ℕ) :
    (s.setBlock (sb.bblock b) (setBit (s.block (sb.bblock b)) (b % BPB))).used sb c =
      (decide (c = b) || s.used sb c) := by
  by_cases h : sb.bblock c = sb.bblock b
  · rw [used, used, h, setBlock_self, bit_setBit]
    simp only [bit_index b c h]
  · have hne : c ≠ b := by
      rintro rfl
      exact h rfl
    rw [used_setBlock_of_ne h]
    simp [hne]

theorem used_clearBit (b c : ℕ) :
    (s.setBlock (sb.bblock b) (clearBit (s.block (sb.bblock b)) (b % BPB))).used sb c =
      (decide (c ≠ b) && s.used sb c) := by
  by_cases h : sb.bblock c = sb.bblock b
  · rw [used, used, h, setBlock_self, bit_clearBit]
    simp only [ne_eq, bit_index b c h]
  · have hne : c ≠ b := by
      rintro rfl
      exact h rfl
    rw [used_setBlock_of_ne h]
    simp [hne]

theorem dinode_setBlock_of_ne (h : sb.iblock i ≠ b) :
    (s.setBlock b blk).dinode sb i = s.dinode sb i := by
  rw [dinode, dinode, setBlock_of_ne h]

@[simp] theorem dinode_iupdate_self : (s.iupdate sb i).dinode sb i = s.inode i := by
  rw [dinode, iupdate, setBlock_self, dinode_setDinode]

theorem dinode_iupdate_of_ne (h : j ≠ i) : (s.iupdate sb i).dinode sb j = s.dinode sb j := by
  by_cases hblk : sb.iblock j = sb.iblock i
  · rw [dinode, dinode, iupdate, hblk, setBlock_self, dinode_setDinode_of_ne]
    intro hmod
    unfold Superblock.iblock at hblk
    have hdiv : j / IPB = i / IPB := by omega
    exact h (by rw [← Nat.div_add_mod j IPB, ← Nat.div_add_mod i IPB, hdiv, hmod])
  · exact dinode_setBlock_of_ne hblk

end Xv6.Fs
