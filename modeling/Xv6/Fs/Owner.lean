import Xv6.Fs.Disk
import Xv6.Lib.Outcome
import Xv6.Lib.Ownership

/-!
# Who owns which block

Every block number in an allocated inode, or in its indirect block, names a data block whose bit is
set in the bitmap, and no block is named twice.  This is kept by `balloc`, by assigning the new
block to a place that is free, and by writing to a block that a place owns.
-/

namespace Xv6.Fs

open Function Bytes Outcome List Place

variable {sb : Superblock} {s s' : Fs} {i j b c d : ℕ} {p : Place} {q : ℕ × Place} {blk : Block}

/-! ### Places -/

theorem mem_places (p : Place) : p ∈ places := by
  unfold places
  cases p with
  | direct k => exact mem_append_left _ (mem_map_of_mem (mem_finRange k))
  | indirect j => exact mem_append_right _ (mem_map_of_mem (mem_finRange j))

/-- The place of the indirect block. -/
abbrev Place.ind : Place := .direct (Fin.last NDIRECT)

theorem own_eq_some : s.own sb (i, p) = some b ↔
    i < sb.ninodes ∧ (s.cur sb i).type ≠ 0 ∧ s.addr (s.cur sb i) p ≠ 0 ∧
      (s.addr (s.cur sb i) p).toNat = b := by
  unfold own
  constructor
  · intro h
    split_ifs at h with hq
    exact ⟨hq.1, hq.2.1, hq.2.2, Option.some.inj h⟩
  · rintro ⟨hi, ht, ha, rfl⟩
    rw [if_pos ⟨hi, ht, ha⟩]

theorem owned_eq_false : s.owned sb b = false ↔ ∀ q, s.own sb q ≠ some b := by
  unfold owned
  rw [any_eq_false]
  constructor
  · rintro h ⟨i, p⟩ hq
    have hi := (own_eq_some.1 hq).1
    refine h i (mem_range.2 hi) (any_eq_true.2 ⟨p, mem_places p, ?_⟩)
    simpa using hq
  · intro h i _ hany
    obtain ⟨p, -, hp⟩ := any_eq_true.1 hany
    exact h (i, p) (by simpa using hp)

theorem addr_congr {ip : Inode}
    (h : ip.addrs (Fin.last NDIRECT) ≠ 0 →
      s'.block (ip.addrs (Fin.last NDIRECT)).toNat = s.block (ip.addrs (Fin.last NDIRECT)).toNat) :
    s'.addr ip p = s.addr ip p := by
  cases p with
  | direct k => rfl
  | indirect j =>
    simp only [addr]
    split_ifs with ha
    · rfl
    · rw [h ha]

/-- What an inode owns depends on the inode and on its indirect block. -/
theorem own_congr (hcur : j < sb.ninodes → s'.cur sb j = s.cur sb j)
    (hind : ∀ b, s.own sb (j, .ind) = some b → s'.block b = s.block b) :
    s'.own sb (j, p) = s.own sb (j, p) := by
  by_cases hj : j < sb.ninodes ∧ (s.cur sb j).type ≠ 0
  · have haddr : s'.addr (s.cur sb j) p = s.addr (s.cur sb j) p :=
      addr_congr fun ha => hind _ (own_eq_some.2 ⟨hj.1, hj.2, ha, rfl⟩)
    simp only [own, hcur hj.1, haddr]
  · have hnone : ∀ t : Fs, (j < sb.ninodes → t.cur sb j = s.cur sb j) → t.own sb (j, p) = none := by
      intro t ht
      refine if_neg fun hq => hj ⟨hq.1, ?_⟩
      rw [← ht hq.1]
      exact hq.2.1
    rw [hnone s' hcur, hnone s fun _ => rfl]

theorem cur_congr (hv : s'.valid j = s.valid j) (hi : s'.inode j = s.inode j)
    (hd : s'.dinode sb j = s.dinode sb j) : s'.cur sb j = s.cur sb j := by
  rw [cur, cur, hv, hi, hd]

theorem cur_of_valid (h : s.valid i = true) : s.cur sb i = s.inode i := if_pos h

variable (sb) in
/-- The file system is in order. -/
structure Inv (s : Fs) : Prop where
  /-- The bitmap marks the blocks that are not data blocks. -/
  marked : ∀ b, b < sb.nmeta → s.used sb b = true
  sound : Ownership.Sound (s.own sb) fun b => sb.IsData b ∧ s.used sb b = true
  /-- What is in memory is also on the disk, except for blocks that `bmap` has just allocated. -/
  cached : ∀ i, s.valid i = true → i < sb.ninodes ∧ (s.inode i).type ≠ 0 ∧
    (s.dinode sb i).type = (s.inode i).type ∧
    ∀ k, (s.dinode sb i).addrs k = (s.inode i).addrs k ∨ (s.dinode sb i).addrs k = 0
  refs : ∀ i, 0 < s.ref i → i < sb.ninodes
  fresh : ∀ e ∈ s.allocs, e.2 = false

/-! ### `balloc` and `bfree` -/

/-- What `balloc` does. -/
structure Granted (sb : Superblock) (s s' : Fs) (b : ℕ) : Prop where
  free : s.used sb b = false
  isData : sb.IsData b
  used : ∀ c, c < sb.size → s'.used sb c = (decide (c = b) || s.used sb c)
  zero : s'.block b = fun _ => 0
  block : ∀ d, sb.IsData d → d ≠ b → s'.block d = s.block d
  dinode : ∀ j, j < sb.ninodes → s'.dinode sb j = s.dinode sb j
  inode : s'.inode = s.inode
  valid : s'.valid = s.valid
  ref : s'.ref = s.ref
  allocs : s'.allocs = (b, s.owned sb b) :: s.allocs

theorem granted_of_balloc (hmeta : ∀ b, b < sb.nmeta → s.used sb b = true)
    (h : s.balloc sb = .ok (b, s')) : Granted sb s s' b := by
  unfold balloc at h
  split at h
  · cases h
  rename_i c hfind
  cases h
  have hlt : b < sb.size := mem_range.1 (mem_of_find?_eq_some hfind)
  have hfree : s.used sb b = false := by simpa using find?_some hfind
  have hdata : sb.IsData b := by
    refine ⟨?_, hlt⟩
    by_contra hlow
    rw [hmeta b (by omega)] at hfree
    cases hfree
  refine
    { free := hfree
      isData := hdata
      used := fun c hc => ?_
      zero := setBlock_self
      block := fun d hd hdb => ?_
      dinode := fun j hj => ?_
      inode := rfl
      valid := rfl
      ref := rfl
      allocs := rfl }
  · exact (used_setBlock_of_ne (hdata.ne_bblock hc).symm).trans (used_setBit b c)
  · exact (setBlock_of_ne hdb).trans (setBlock_of_ne (hd.ne_bblock hlt))
  · exact (dinode_setBlock_of_ne (hdata.ne_iblock hj).symm).trans
      (dinode_setBlock_of_ne (sb.iblock_ne_bblock hj))

theorem balloc_error {e : Panic} (h : s.balloc sb = .error e) : e = .outOfBlocks := by
  unfold balloc at h
  split at h
  · cases h
    rfl
  · cases h

/-- What `bfree` does. -/
structure Freed (sb : Superblock) (s s' : Fs) (b : ℕ) : Prop where
  used : ∀ c, s'.used sb c = (decide (c ≠ b) && s.used sb c)
  block : ∀ d, sb.IsData d → s'.block d = s.block d
  dinode : ∀ j, j < sb.ninodes → s'.dinode sb j = s.dinode sb j
  inode : s'.inode = s.inode
  valid : s'.valid = s.valid
  ref : s'.ref = s.ref
  allocs : s'.allocs = s.allocs

theorem freed_of_bfree (hb : sb.IsData b) (hu : s.used sb b = true) :
    ∃ s', s.bfree sb b = .ok s' ∧ Freed sb s s' b := by
  refine ⟨_, if_pos hu, ?_⟩
  exact
    { used := used_clearBit b
      block := fun d hd => setBlock_of_ne (hd.ne_bblock hb.2)
      dinode := fun j hj => dinode_setBlock_of_ne (sb.iblock_ne_bblock hj)
      inode := rfl
      valid := rfl
      ref := rfl
      allocs := rfl }

namespace Inv

theorem own_ne_of_free (h : s.Inv sb) (hb : s.used sb b = false) : s.own sb q ≠ some b := by
  intro hq
  have := (h.sound.good q b hq).2
  rw [hb] at this
  cases this

/-- Nothing is owned by another place after `balloc`, and the new block by none. -/
theorem own_granted (h : s.Inv sb) (hg : Granted sb s s' b) : s'.own sb = s.own sb := by
  funext ⟨j, p⟩
  refine own_congr (fun hj => ?_) fun c hc => hg.block c (h.sound.good _ c hc).1 ?_
  · exact cur_congr (by rw [hg.valid]) (by rw [hg.inode]) (hg.dinode j hj)
  · rintro rfl
    exact h.own_ne_of_free hg.free hc

theorem granted (h : s.Inv sb) (hg : Granted sb s s' b) : s'.Inv sb where
  marked c hc := by
    have := sb.nmeta_le_size
    rw [hg.used c (by omega), h.marked c hc, Bool.or_true]
  sound := by
    rw [h.own_granted hg]
    refine h.sound.mono (fun _ _ hq => hq) fun q c _ hc => ⟨hc.1, ?_⟩
    rw [hg.used c hc.1.2, hc.2, Bool.or_true]
  cached i hi := by
    rw [hg.valid] at hi
    have hc := h.cached i hi
    rw [hg.inode, hg.dinode i hc.1]
    exact hc
  refs i hi := by
    rw [hg.ref] at hi
    exact h.refs i hi
  fresh e he := by
    rw [hg.allocs, mem_cons] at he
    rcases he with rfl | he
    · exact owned_eq_false.2 fun q => h.own_ne_of_free hg.free
    · exact h.fresh e he

/-! ### Writes to inodes and data blocks -/

/-- A step that changes neither the bitmap nor the inodes on the disk. -/
theorem of_same (h : s.Inv sb) (hused : ∀ c, c < sb.size → s'.used sb c = s.used sb c)
    (hd : ∀ j, j < sb.ninodes → s'.dinode sb j = s.dinode sb j) (hvalid : s'.valid = s.valid)
    (href : s'.ref = s.ref) (hallocs : s'.allocs = s.allocs)
    (hsound : Ownership.Sound (s'.own sb) fun b => sb.IsData b ∧ s.used sb b = true)
    (hinode : ∀ j, s.valid j = true → (s'.inode j).type = (s.inode j).type ∧
      ∀ k, (s.dinode sb j).addrs k = (s'.inode j).addrs k ∨ (s.dinode sb j).addrs k = 0) :
    s'.Inv sb where
  marked c hc := by
    have := sb.nmeta_le_size
    rw [hused c (by omega)]
    exact h.marked c hc
  sound := by
    refine hsound.mono (fun _ _ hq => hq) fun q c _ hc => ⟨hc.1, ?_⟩
    rw [hused c hc.1.2]
    exact hc.2
  cached j hj := by
    rw [hvalid] at hj
    obtain ⟨hlt, hne, htype, -⟩ := h.cached j hj
    obtain ⟨htype', haddrs⟩ := hinode j hj
    rw [hd j hlt, htype']
    exact ⟨hlt, hne, htype, haddrs⟩
  refs j hj := by
    rw [href] at hj
    exact h.refs j hj
  fresh e he := by
    rw [hallocs] at he
    exact h.fresh e he

theorem own_eq_of_addr (htype : (s'.cur sb j).type = (s.cur sb j).type)
    (haddr : s'.addr (s'.cur sb j) p = s.addr (s.cur sb j) p) :
    s'.own sb (j, p) = s.own sb (j, p) := by
  simp only [own, htype, haddr]

theorem own_ind (h : s.Inv sb) (hv : s.valid i = true)
    (ha : (s.inode i).addrs (Fin.last NDIRECT) ≠ 0) :
    s.own sb (i, .ind) = some ((s.inode i).addrs (Fin.last NDIRECT)).toNat := by
  obtain ⟨hlt, htype, -⟩ := h.cached i hv
  refine own_eq_some.2 ⟨hlt, ?_, ?_, ?_⟩
  · rwa [cur_of_valid hv]
  · rw [cur_of_valid hv]; exact ha
  · rw [cur_of_valid hv]; rfl

/-- A new block is assigned to an entry of `addrs` that was 0.  The new indirect block must be
zeroed. -/
theorem own_setAddr (h : s.Inv sb) (hv : s.valid i = true) {k : Fin (NDIRECT + 1)}
    (hk : (s.inode i).addrs k = 0) (hb : sb.IsData b)
    (hz : k = Fin.last NDIRECT → s.block b = fun _ => 0) :
    (s.setAddr i k (BitVec.ofNat 32 b)).own sb =
      update (s.own sb) (i, .direct k) (some b) := by
  obtain ⟨hlt, htype, -⟩ := h.cached i hv
  set s' := s.setAddr i k (BitVec.ofNat 32 b) with hs'
  have hcur : s'.cur sb i =
      { s.inode i with addrs := update (s.inode i).addrs k (BitVec.ofNat 32 b) } := by
    rw [cur_of_valid (s := s') hv]
    simp [hs', setAddr, setInode]
  have hcur0 : s.cur sb i = s.inode i := cur_of_valid hv
  funext ⟨j, p⟩
  by_cases hj : j = i
  swap
  · have hne : (j, p) ≠ (i, direct k) := by simp [hj]
    rw [update_of_ne hne]
    refine own_congr (fun _ => cur_congr rfl ?_ rfl) fun _ _ => rfl
    simp [hs', setAddr, setInode, update_of_ne hj]
  subst hj
  have htype' : (s'.cur sb j).type = (s.cur sb j).type := by rw [hcur, hcur0]
  cases p with
  | direct k' =>
    by_cases hkk : k' = k
    · subst hkk
      rw [update_self]
      refine own_eq_some.2 ⟨hlt, ?_, ?_, ?_⟩
      · rwa [htype', hcur0]
      · rw [hcur]
        simpa [addr] using hb.ofNat_ne_zero
      · rw [hcur]
        simpa [addr] using hb.toNat_ofNat
    · have hne : (j, direct k') ≠ (j, direct k) := by simp [hkk]
      rw [update_of_ne hne]
      refine own_eq_of_addr htype' ?_
      rw [hcur, hcur0]
      simp [addr, update_of_ne hkk]
  | indirect w =>
    have hne : (j, indirect w) ≠ (j, direct k) := by simp
    rw [update_of_ne hne]
    refine own_eq_of_addr htype' ?_
    rw [hcur, hcur0]
    simp only [addr]
    by_cases hlast : k = Fin.last NDIRECT
    · -- the entries of the new indirect block are 0
      subst hlast
      rw [if_pos hk, update_self, hb.toNat_ofNat]
      split_ifs
      · rfl
      · have hblock : s'.block b = fun _ => 0 := hz rfl
        rw [hblock]
        rfl
    · rw [update_of_ne (Ne.symm hlast)]
      rfl

theorem setAddr (h : s.Inv sb) (hv : s.valid i = true) {k : Fin (NDIRECT + 1)}
    (hk : (s.inode i).addrs k = 0) (hb : sb.IsData b) (hu : s.used sb b = true)
    (hfree : ∀ q, s.own sb q ≠ some b) (hz : k = Fin.last NDIRECT → s.block b = fun _ => 0) :
    (s.setAddr i k (BitVec.ofNat 32 b)).Inv sb := by
  refine h.of_same (fun _ _ => rfl) (fun _ _ => rfl) rfl rfl rfl ?_ fun j hj => ?_
  · rw [h.own_setAddr hv hk hb hz]
    exact h.sound.grant hfree (fun _ hc => hc) ⟨hb, hu⟩ _
  · obtain ⟨-, -, -, haddrs⟩ := h.cached j hj
    by_cases hji : j = i
    · subst hji
      refine ⟨by simp [Fs.setAddr, setInode], fun k' => ?_⟩
      by_cases hkk : k' = k
      · subst hkk
        refine .inr ((haddrs k').elim (fun he => he.trans hk) id)
      · simpa [Fs.setAddr, setInode, update_of_ne hkk] using haddrs k'
    · simpa [Fs.setAddr, setInode, update_of_ne hji] using haddrs

/-- A write to a data block leaves the bitmap and the inodes alone. -/
theorem dinode_setBlock (hb : sb.IsData b) (hj : j < sb.ninodes) :
    (s.setBlock b blk).dinode sb j = s.dinode sb j :=
  dinode_setBlock_of_ne (hb.ne_iblock hj).symm

theorem used_setBlock (hb : sb.IsData b) (hc : c < sb.size) :
    (s.setBlock b blk).used sb c = s.used sb c :=
  used_setBlock_of_ne (hb.ne_bblock hc).symm

theorem cur_setBlock (hb : sb.IsData b) (hj : j < sb.ninodes) :
    (s.setBlock b blk).cur sb j = s.cur sb j :=
  cur_congr rfl rfl (dinode_setBlock hb hj)

/-- A new block is assigned to an entry of the indirect block that was 0. -/
theorem own_setWord (h : s.Inv sb) {a : ℕ} {w : Fin NINDIRECT}
    (ha : s.own sb (i, .ind) = some a) (hb : sb.IsData b) :
    (s.setWord a w (BitVec.ofNat 32 b)).own sb =
      update (s.own sb) (i, .indirect w) (some b) := by
  have hdata := (h.sound.good _ a ha).1
  obtain ⟨hlt, htype, hne, haddr⟩ := own_eq_some.1 ha
  have hne : (s.cur sb i).addrs (Fin.last NDIRECT) ≠ 0 := hne
  have haddr : ((s.cur sb i).addrs (Fin.last NDIRECT)).toNat = a := haddr
  set s' := s.setWord a w (BitVec.ofNat 32 b) with hs'
  have hcur : ∀ j, j < sb.ninodes → s'.cur sb j = s.cur sb j := fun j hj => cur_setBlock hdata hj
  funext ⟨j, p⟩
  by_cases hj : j = i
  swap
  · have hne' : (j, p) ≠ (i, indirect w) := by simp [hj]
    rw [update_of_ne hne']
    refine own_congr (hcur j) fun c hc => setBlock_of_ne ?_
    rintro rfl
    exact hj (Prod.mk.inj (h.sound.exclusive _ _ _ hc ha)).1
  subst hj
  have hword : ∀ w' : Fin NINDIRECT, word (s'.block a) (4 * w') =
      if w' = w then BitVec.ofNat 32 b else word (s.block a) (4 * w') := by
    intro w'
    rw [hs', Fs.setWord, setBlock_self]
    split_ifs with hw
    · rw [hw, word_poke]
    · have : w'.val ≠ w.val := fun heq => hw (Fin.ext heq)
      exact word_poke_of_disjoint (by omega)
  cases p with
  | direct k =>
    have hne' : (j, direct k) ≠ (j, indirect w) := by simp
    rw [update_of_ne hne']
    refine own_eq_of_addr (by rw [hcur j hlt]) ?_
    rw [hcur j hlt]
    rfl
  | indirect w' =>
    have haddr' : s'.addr (s.cur sb j) (.indirect w') =
        if w' = w then BitVec.ofNat 32 b else s.addr (s.cur sb j) (.indirect w') := by
      simp only [addr, if_neg hne, haddr]
      exact hword w'
    by_cases hw : w' = w
    · subst hw
      rw [update_self]
      rw [if_pos rfl] at haddr'
      refine own_eq_some.2 ⟨hlt, ?_, ?_, ?_⟩
      · rwa [hcur j hlt]
      · rw [hcur j hlt, haddr']
        exact hb.ofNat_ne_zero
      · rw [hcur j hlt, haddr']
        exact hb.toNat_ofNat
    · have hne' : (j, indirect w') ≠ (j, indirect w) := by simp [hw]
      rw [update_of_ne hne']
      rw [if_neg hw] at haddr'
      exact own_eq_of_addr (by rw [hcur j hlt]) (by rw [hcur j hlt, haddr'])

theorem setWord (h : s.Inv sb) {a : ℕ} {w : Fin NINDIRECT}
    (ha : s.own sb (i, .ind) = some a) (hb : sb.IsData b) (hu : s.used sb b = true)
    (hfree : ∀ q, s.own sb q ≠ some b) : (s.setWord a w (BitVec.ofNat 32 b)).Inv sb := by
  have hdata := (h.sound.good _ a ha).1
  refine h.of_same (fun c hc => used_setBlock hdata hc) (fun j hj => dinode_setBlock hdata hj) rfl
    rfl rfl ?_ fun j hj => ⟨rfl, (h.cached j hj).2.2.2⟩
  rw [h.own_setWord ha hb]
  exact h.sound.grant hfree (fun _ hc => hc) ⟨hb, hu⟩ _

/-- A write to a block of the contents of a file changes no block number. -/
theorem own_setBlock (h : s.Inv sb) (hb : s.own sb (i, p) = some b) (hp : p ≠ .ind) :
    (s.setBlock b blk).own sb = s.own sb := by
  have hdata := (h.sound.good _ b hb).1
  funext ⟨j, p'⟩
  refine own_congr (fun hj => cur_setBlock hdata hj) fun c hc => setBlock_of_ne ?_
  rintro rfl
  exact hp (Prod.mk.inj (h.sound.exclusive _ _ _ hc hb)).2.symm

theorem setBlock (h : s.Inv sb) (hb : s.own sb (i, p) = some b) (hp : p ≠ .ind) :
    (s.setBlock b blk).Inv sb := by
  have hdata := (h.sound.good _ b hb).1
  refine h.of_same (fun c hc => used_setBlock hdata hc) (fun j hj => dinode_setBlock hdata hj) rfl
    rfl rfl ?_ fun j hj => ⟨rfl, (h.cached j hj).2.2.2⟩
  rw [h.own_setBlock hb hp]
  exact h.sound

end Inv

end Xv6.Fs
