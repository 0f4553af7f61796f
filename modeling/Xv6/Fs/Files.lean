import Xv6.Fs.Contents
import Xv6.Fs.Blocks

/-!
# Inodes as byte arrays

What `readi` and `writei` do to the contents of the inodes when they return.  The source of a
`writei` may be missing anywhere: it copies block by block up to the first byte that is missing.
-/

namespace Xv6.Fs

open Function Transition
open Outcome Segment

variable {sb : Superblock} {s t : Fs} {i : ℕ} {off n : UInt} {r : ℤ} {src : Src}

variable (sb) in
/-- The file system is in order, and no file is longer than a file can be. -/
def Ready (s : Fs) : Prop := s.Inv sb ∧ ∀ i, (s.contents sb i).length ≤ MAXFILE * BSIZE

theorem contents_of_valid (h : s.Inv sb) (hv : s.valid i = true) :
    s.contents sb i = table (s.inode i).size.toNat (s.byteAt sb i) := by
  rw [contents, if_pos (h.cached i hv).1, cur_of_valid hv]

theorem length_contents_of_valid (h : s.Inv sb) (hv : s.valid i = true) :
    (s.contents sb i).length = (s.inode i).size.toNat := by
  rw [contents_of_valid h hv, length_table]

/-- `ilock` loads the inode, and no contents change. -/
theorem ilock_ok (h : s.Ready sb) (hi : i < sb.ninodes) (hs : s.ilock sb i = .ok t) :
    t.Ready sb ∧ t.valid i = true ∧ t.contents sb = s.contents sb := by
  have hinv := safe_ilock h.1 hi
  rw [hs] at hinv
  suffices hload : t.valid i = true ∧ t.contents sb = s.contents sb by
    exact ⟨⟨hinv, fun j => by rw [hload.2]; exact h.2 j⟩, hload⟩
  unfold ilock at hs
  split_ifs at hs with hv htype
  · cases hs
    exact ⟨hv, rfl⟩
  cases hs
  have hcur := @cur_load sb s i hv
  refine ⟨update_self .., ?_⟩
  funext j
  have hbytes := byteAt_congr fun p _ => content_congr (own_congr (fun _ => hcur j) fun _ _ => rfl)
    fun _ _ => rfl
  unfold contents
  rw [hcur j, hbytes]

/-- `readi` with a buffer of the kernel returns bytes of the contents, and no contents change. -/
theorem readi_spec {dst : Dst} (h : s.Ready sb) (hv : s.valid i = true)
    (hs : s.readi sb i (.kernel []) off n = .ok ((r, dst), t)) :
    let bytes := (s.contents sb i).extract off.toNat
      (min (off + n).toNat (s.contents sb i).length)
    r = bytes.length ∧ dst = .kernel bytes ∧ t.Ready sb ∧ t.contents sb = s.contents sb := by
  have hlen := length_contents_of_valid h.1 hv
  have hmax := h.2 i
  obtain ⟨len, hdef⟩ : ∃ len, len = min (off + n).toNat (s.inode i).size.toNat - off.toNat :=
    ⟨_, rfl⟩
  have hbytes : (s.contents sb i).extract off.toNat (min (off + n).toNat (s.contents sb i).length) =
      table len fun k => s.byteAt sb i (off.toNat + k) := by
    rw [hlen, contents_of_valid h.1 hv, extract_table, hdef]
  rw [hlen] at hmax
  suffices hread : r = len ∧ dst = .kernel (table len fun k => s.byteAt sb i (off.toNat + k)) ∧
      Edited sb s t i (s.inode i).size (s.byteAt sb i) by
    obtain ⟨hr, hdst, hedit⟩ := hread
    have hcontents : t.contents sb = s.contents sb := by
      rw [hedit.contents_eq hv, ← contents_of_valid h.1 hv, update_eq_self]
    intro bytes
    refine ⟨?_, ?_, ⟨hedit.inv, fun j => ?_⟩, hcontents⟩
    · rw [hr, show bytes = _ from hbytes, length_table]
    · rw [hdst, show bytes = _ from hbytes]
    · rw [hcontents]
      exact h.2 j
  by_cases hbad : off > (s.inode i).size ∨ off + n < off
  · -- nothing is read
    have hzero : len = 0 := by
      rcases hbad with hbad | hbad
      · have : (s.inode i).size.toNat < off.toNat := hbad
        omega
      · have : (off + n).toNat < off.toNat := hbad
        omega
    rw [readi, if_pos hbad] at hs
    cases hs
    rw [hzero]
    exact ⟨rfl, rfl, .refl h.1 i⟩
  · have hoff : off.toNat ≤ (s.inode i).size.toNat := Nat.not_lt.1 fun hlt => hbad (.inl hlt)
    have hwrap : off.toNat ≤ (off + n).toNat := Nat.not_lt.1 fun hlt => hbad (.inr hlt)
    have hsum : (off + n).toNat = off.toNat + n.toNat := by
      rw [BitVec.toNat_add] at hwrap ⊢
      have := off.isLt
      have := n.isLt
      omega
    -- `n` is cut at the end of the file
    have hcut : (if off + n > (s.inode i).size then (s.inode i).size - off else n).toNat = len := by
      split_ifs with hgt
      · have hgt : (s.inode i).size.toNat < (off + n).toNat := hgt
        rw [BitVec.toNat_sub_of_le hoff]
        omega
      · have hgt : ¬ (s.inode i).size.toNat < (off + n).toNat := hgt
        omega
    rw [readi, if_neg hbad] at hs
    simp only [hcut] at hs
    exact readLoop_spec h.1 hv (Nat.zero_le len) (Nat.sub_le len 0) (by omega) hs

/-- The end of `writei`: the size is set, and the inode is written to the disk. -/
theorem Inv.edited_iupdate (h : s.Inv sb) (hv : s.valid i = true) :
    Edited sb s (s.iupdate sb i) i (s.inode i).size (s.byteAt sb i) where
  inv := h.iupdate hv
  size := rfl
  bytes o := by rw [byteAt_congr fun p _ => h.content_iupdate hv (i, p)]
  others j _ := byteAt_congr fun p _ => h.content_iupdate hv (j, p)
  inode _ _ := rfl
  valid := rfl
  ref := rfl
  dinode _ _ hj := dinode_iupdate_of_ne hj

theorem Inv.edited_setSize (h : s.Inv sb) (hv : s.valid i = true) (n : UInt) :
    Edited sb s (s.setInode i { s.inode i with size := n }) i n (s.byteAt sb i) := by
  obtain ⟨hinv, hown⟩ := h.setSize hv n
  have hbytes : ∀ j, (s.setInode i { s.inode i with size := n }).byteAt sb j = s.byteAt sb j :=
    fun j => byteAt_congr fun p _ => content_congr (by rw [hown]) fun _ _ => rfl
  exact
    { inv := hinv
      size := by simp [setInode]
      bytes := fun o => by rw [hbytes]
      others := fun j _ => hbytes j
      inode := fun j hj => by simp [setInode, update_of_ne hj]
      valid := rfl
      ref := rfl
      dinode := fun _ _ _ => rfl }

/-- The size grows if what was written goes beyond the end. -/
theorem Inv.edited_grow (h : s.Inv sb) (hv : s.valid i = true) (stop : UInt) :
    ∃ sz : UInt, sz.toNat = max (s.inode i).size.toNat stop.toNat ∧
      Edited sb s (if stop > (s.inode i).size then s.setInode i { s.inode i with size := stop }
        else s)
        i sz (s.byteAt sb i) := by
  split_ifs with hgt
  · have hgt : (s.inode i).size.toNat < stop.toNat := hgt
    exact ⟨stop, by omega, h.edited_setSize hv stop⟩
  · have hgt : ¬ (s.inode i).size.toNat < stop.toNat := hgt
    exact ⟨(s.inode i).size, by omega, .refl h i⟩

/-! ### The source of a `writei` -/

/-- Byte `k` of the source, if it is there. -/
def Src.byte : Src → ℕ → Option Byte
  | .user m va, k => m.byte (va + BitVec.ofNat 64 k)
  | .kernel data, k => some (data k)

/-- The bytes of the source. -/
def Src.data (src : Src) (k : ℕ) : Byte := (src.byte k).getD 0

/-- `either_copyin` copies the bytes up to the first one that is not there. -/
theorem eitherCopyin_cases (src : Src) (tot len : ℕ) :
    (∀ k < len, src.byte (tot + k) ≠ none) ∧
        eitherCopyin tot len src = (table len fun k => src.data (tot + k), 0) ∨
    ∃ q < len, src.byte (tot + q) = none ∧ (∀ k < q, src.byte (tot + k) ≠ none) ∧
      eitherCopyin tot len src = (table q fun k => src.data (tot + k), -1) := by
  cases src with
  | kernel data => exact .inl ⟨fun _ _ => Option.some_ne_none _, rfl⟩
  | user m va =>
    have hadd : ∀ k, va + BitVec.ofNat 64 tot + BitVec.ofNat 64 k =
        va + BitVec.ofNat 64 (tot + k) := fun k => by rw [BitVec.ofNat_add, BitVec.add_assoc]
    obtain ⟨c, hc, hthere, hend, hcopy⟩ :=
      copyinLoop_spec m (va + BitVec.ofNat 64 tot) (le_refl len)
    simp only [hadd] at hthere hend hcopy
    rcases hc.eq_or_lt with rfl | hlt
    · rw [if_pos rfl] at hcopy
      exact .inl ⟨hthere, hcopy⟩
    · rw [if_neg hlt.ne] at hcopy
      exact .inr ⟨c, hlt, hend hlt, hthere, hcopy⟩

/-- How the loop of `writei` ends: `tot'` bytes are counted and `q` have been copied. -/
structure Ended (src : Src) (n tot off tot' off' q : ℕ) : Prop where
  le : tot ≤ tot'
  counted : tot' ≤ q
  off_eq : off' = off + (tot' - tot)
  there : ∀ k, tot ≤ k → k < q → src.byte k ≠ none
  /-- All bytes are counted, or the byte that is missing is in the block at `off'`. -/
  why : tot' = n ∧ q = n ∨
    q < n ∧ src.byte q = none ∧ off' = max off ((off + (q - tot)) / BSIZE * BSIZE)

theorem Ended.total_le {n tot off tot' off' q : ℕ} (h : Ended src n tot off tot' off' q) :
    tot' ≤ n := by
  have := h.counted
  rcases h.why with ⟨rfl, -⟩ | ⟨hq, -⟩
  · exact le_rfl
  · omega

theorem ended_done (h : s.Inv sb) (n off : ℕ) : ∃ q, Ended src n n off n off q ∧
    Edited sb s s i (s.inode i).size fun o =>
      if off ≤ o ∧ o < off + (q - n) then src.data (n + (o - off)) else s.byteAt sb i o := by
  refine ⟨n, ⟨le_rfl, le_rfl, by omega, fun k _ _ => by omega, .inl ⟨rfl, rfl⟩⟩,
    (Edited.refl h i).congr fun o => ?_⟩
  rw [if_neg (by omega)]

/-- What the loop of `writei` does, for a source that may be missing anywhere. -/
theorem writeLoop_cases {n turns tot off tot' off' : ℕ} (h : s.Inv sb) (hv : s.valid i = true)
    (htot : tot ≤ n) (hturns : n - tot ≤ turns) (hmax : off + (n - tot) ≤ MAXFILE * BSIZE)
    (hw : writeLoop sb i n src turns s tot off = .ok (t, tot', off')) :
    ∃ q, Ended src n tot off tot' off' q ∧ Edited sb s t i (s.inode i).size fun o =>
      if off ≤ o ∧ o < off + (q - tot) then src.data (tot + (o - off)) else s.byteAt sb i o := by
  induction turns generalizing s tot off with
  | zero =>
    cases hw
    obtain rfl : tot' = n := by omega
    exact ended_done h _ _
  | succ turns ih =>
    rw [writeLoop] at hw
    split_ifs at hw with hlt
    swap
    · cases hw
      obtain rfl : tot' = n := by omega
      exact ended_done h _ _
    obtain ⟨⟨c, u⟩, hbmap, hw⟩ := bind_eq_ok.1 hw
    obtain ⟨hbn, hmap⟩ := mapped_of_bmap (b := off + (n - tot)) h hv (by omega) hmax hbmap
    dsimp only at hw
    obtain ⟨m, hm⟩ : ∃ m, m = min (n - tot) (BSIZE - off % BSIZE) := ⟨_, rfl⟩
    rw [← hm] at hw
    have hB : BSIZE = 1024 := rfl
    have hmod : off % BSIZE < BSIZE := Nat.mod_lt _ (by decide)
    -- `p` bytes of the block are written
    have hfill : ∀ p ≤ m, Edited sb s
        (u.setBlock c
          (Block.fill (u.block c) (off % BSIZE) (table p fun k => src.data (tot + k)))) i
        (s.inode i).size fun o =>
          if off ≤ o ∧ o < off + p then src.data (tot + (o - off)) else s.byteAt sb i o := by
      intro p hp
      have hedit := hmap.inv.edited_fill (b := off + p) hmap.own (show p = _ by omega)
        fun k => src.data (tot + k)
      rw [hmap.edited.size] at hedit
      refine (hmap.edited.trans hedit).congr fun o => ?_
      rw [hmap.edited.bytes]
    rcases eitherCopyin_cases src tot m with ⟨hthere, hcopy⟩ | ⟨p, hp, hnone, hthere, hcopy⟩
    · rw [hcopy, if_neg (show ¬ (0 : ℤ) = -1 by decide)] at hw
      have hedit := hfill m le_rfl
      obtain ⟨q, hend, hrest⟩ := ih hedit.inv (hedit.is_valid hv) (by omega) (by omega)
        (by omega) hw
      have hle := hend.le
      have hcounted := hend.counted
      refine ⟨q, ⟨by omega, hcounted, ?_, fun k hk hkq => ?_, ?_⟩, ?_⟩
      · rw [hend.off_eq]
        omega
      · by_cases hkm : k < tot + m
        · have := hthere (k - tot) (by omega)
          rwa [Nat.add_sub_cancel' hk] at this
        · exact hend.there k (by omega) hkq
      · refine hend.why.imp_right fun hstop => ⟨hstop.1, hstop.2.1, ?_⟩
        -- the turn ended at the end of a block
        have hoff := hstop.2.2
        rw [hB] at hoff hm ⊢
        omega
      · rw [hedit.size] at hrest
        refine (hedit.trans hrest).congr fun o => ?_
        rw [hedit.bytes]
        split_ifs <;> first | rfl | omega | skip
        all_goals
          congr 1
          omega
    · rw [hcopy, if_pos rfl] at hw
      cases hw
      refine ⟨tot' + p, ⟨le_rfl, by omega, by omega, fun k hk hkq => ?_,
        .inr ⟨by omega, hnone, ?_⟩⟩, ?_⟩
      · have := hthere (k - tot') (by omega)
        rwa [Nat.add_sub_cancel' hk] at this
      · rw [hB] at hm ⊢
        omega
      · rw [Nat.add_sub_cancel_left]
        exact hfill p hp.le

/-- What `writei` does, for a source that may be missing anywhere: `r` bytes are counted and `q`
have been copied. -/
theorem writei_cases {off n : UInt} {r : ℤ} (h : s.Ready sb) (hv : s.valid i = true)
    (hr : 0 ≤ r) (hw : s.writei sb i src off n = .ok (r, t)) :
    off.toNat ≤ (s.inode i).size.toNat ∧ off.toNat + n.toNat ≤ MAXFILE * BSIZE ∧
    ∃ (tot q : ℕ) (sz : UInt), r = tot ∧
      Ended src n.toNat 0 off.toNat tot (off.toNat + tot) q ∧
      sz.toNat = max (s.inode i).size.toNat (off.toNat + tot) ∧
      Edited sb s t i sz fun o =>
        if off.toNat ≤ o ∧ o < off.toNat + q then src.data (o - off.toNat)
        else s.byteAt sb i o := by
  unfold writei at hw
  split_ifs at hw with hbad hlong
  · cases hw
    omega
  · cases hw
    omega
  rw [not_or] at hbad
  have hoff : off.toNat ≤ (s.inode i).size.toNat := Nat.not_lt.1 hbad.1
  have hwrap : off.toNat ≤ (off + n).toNat := Nat.not_lt.1 hbad.2
  have hsmall : MAXFILE * BSIZE < 2 ^ 32 := by decide
  have hsum : (off + n).toNat = off.toNat + n.toNat := by
    have := off.isLt
    have := n.isLt
    rw [BitVec.toNat_add] at hwrap hlong ⊢
    omega
  obtain ⟨⟨u, tot, off'⟩, hloop, hend⟩ := map_eq_ok.1 hw
  have hn := Nat.sub_zero n.toNat
  obtain ⟨q, hended, hedit⟩ := writeLoop_cases h.1 hv (Nat.zero_le n.toNat) hn.le (by omega) hloop
  obtain rfl : off' = off.toNat + tot := hended.off_eq
  have htot := hended.total_le
  dsimp only at hend
  obtain ⟨stop, hstop⟩ : ∃ stop, stop = BitVec.ofNat 32 (off.toNat + tot) := ⟨_, rfl⟩
  have hstopNat : stop.toNat = off.toNat + tot := by
    rw [hstop, BitVec.toNat_ofNat, Nat.mod_eq_of_lt (by omega)]
  rw [← hstop] at hend
  obtain ⟨hr', rfl⟩ := Prod.mk.inj hend
  obtain ⟨sz, hsz, hgrow⟩ := hedit.inv.edited_grow (hedit.is_valid hv) stop
  have hdisk := hgrow.inv.edited_iupdate (hgrow.is_valid (hedit.is_valid hv))
  rw [hgrow.size] at hdisk
  refine ⟨hoff, by omega, tot, q, sz, hr'.symm, hended, ?_, ?_⟩
  · rw [hsz, hedit.size, hstopNat]
  · refine ((hedit.trans hgrow).trans hdisk).congr fun o => ?_
    rw [hgrow.bytes, hedit.bytes]
    simp only [Nat.sub_zero, Nat.zero_add]

/-- A `writei` that fails changes nothing. -/
theorem writei_refused (hr : r < 0) (hw : s.writei sb i src off n = .ok (r, t)) :
    r = -1 ∧ t = s := by
  unfold writei at hw
  split_ifs at hw
  · cases hw
    exact ⟨rfl, rfl⟩
  · cases hw
    exact ⟨rfl, rfl⟩
  · obtain ⟨u, -, hu⟩ := map_eq_ok.1 hw
    cases hu
    omega

/-- The contents after a `writei` that has counted `tot` bytes and copied `q`, if those that are not
counted are not in the file. -/
theorem Edited.overwritten {off tot q : ℕ} {sz : UInt} {f : ℕ → Byte} (h : s.Ready sb)
    (hv : s.valid i = true) (hoff : off ≤ (s.inode i).size.toNat)
    (hmax : off + tot ≤ MAXFILE * BSIZE) (hq : tot ≤ q)
    (hpart : q ≤ tot ∨ (s.inode i).size.toNat ≤ off + tot)
    (hsz : sz.toNat = max (s.inode i).size.toNat (off + tot))
    (hedit : Edited sb s t i sz fun o =>
      if off ≤ o ∧ o < off + q then f (o - off) else s.byteAt sb i o) :
    t.Ready sb ∧ t.contents sb =
      update (s.contents sb) i (overwrite (s.contents sb i) off (table tot f)) := by
  have hcontents : t.contents sb =
      update (s.contents sb) i (overwrite (s.contents sb i) off (table tot f)) := by
    rw [hedit.contents_eq hv, contents_of_valid h.1 hv, overwrite_table hoff, hsz]
    refine congrArg _ (table_congr fun o ho => ?_)
    by_cases hin : off ≤ o ∧ o < off + tot
    · rw [if_pos hin, if_pos (by omega)]
    · rw [if_neg hin, if_neg (by omega)]
  refine ⟨⟨hedit.inv, fun j => ?_⟩, hcontents⟩
  rw [hcontents]
  by_cases hj : j = i
  · subst hj
    have hle := h.2 j
    have hlen := length_contents_of_valid h.1 hv
    rw [update_self, length_overwrite (by omega), length_table]
    omega
  · rw [update_of_ne hj]
    exact h.2 j

end Xv6.Fs
