import Xv6.Fs.Trunc

/-!
# Block ownership along sequences of calls

Every call keeps the invariant of `Xv6.Fs.Owner`, whether it succeeds, fails, or panics for want of
free blocks.  In particular `bfree` is only called for blocks in use.
-/

namespace Xv6.Fs

open Function Transition Panic
open Bytes Outcome

variable {sb : Superblock} {s s' t : Fs} {i j b c : ℕ} {p : Place}

/-! ### Single calls -/

/-- A call ends in a state with property `P`, or in a panic other than `freeing free block`. -/
abbrev Safe {α : Type*} (P : α → Prop) (x : Except Panic α) : Prop :=
  Outcome.Safe (· = freeingFree) P x

/-- The invariant holds, and the same inodes are in memory. -/
def Kept (sb : Superblock) (s t : Fs) : Prop := t.Inv sb ∧ t.valid = s.valid

theorem Kept.trans {u : Fs} (h : Kept sb s t) (h' : Kept sb t u) : Kept sb s u :=
  ⟨h'.1, h'.2.trans h.2⟩

theorem Kept.is_valid (h : Kept sb s t) (hv : s.valid i = true) : t.valid i = true := by
  rw [h.2]
  exact hv

theorem safe_bmap (h : s.Inv sb) (hv : s.valid i = true) (bn : ℕ) :
    Safe (fun r => Kept sb s r.2 ∧ ∃ p, p ≠ .ind ∧ r.2.own sb (i, p) = some r.1)
      (s.bmap sb i bn) := by
  by_cases hbn : bn < MAXFILE
  · have hspec := allocates_bmap h hv hbn
    cases hr : s.bmap sb i bn with
    | error e =>
      rw [hr] at hspec
      have he : e = .outOfBlocks := hspec
      show e ≠ _
      rw [he]
      decide
    | ok r =>
      rw [hr] at hspec
      have hmap : Mapped sb s r.2 i (place bn hbn) r.1 := hspec
      exact ⟨⟨hmap.inv, hmap.valid⟩, place bn hbn, place_ne_ind hbn, hmap.own⟩
  · rw [bmap_outOfRange (by omega)]
    show outOfRange ≠ _
    decide

theorem safe_readLoop (n turns : ℕ) (h : s.Inv sb) (hv : s.valid i = true) (dst : Dst)
    (tot off : ℕ) : Safe (fun r => Kept sb s r.2) (readLoop sb i n turns s dst tot off) := by
  induction turns generalizing s dst tot off with
  | zero => exact ⟨h, rfl⟩
  | succ turns ih =>
    rw [readLoop]
    split_ifs
    · refine (safe_bmap h hv _).bind fun r ⟨hkept, _⟩ => ?_
      simp only
      split_ifs
      · exact hkept
      · exact (ih hkept.1 (hkept.is_valid hv) _ _ _).mono fun u hu => hkept.trans hu
    · exact ⟨h, rfl⟩

theorem safe_readi (h : s.Inv sb) (hv : s.valid i = true) (dst : Dst) (off n : UInt) :
    Safe (fun r => Kept sb s r.2) (s.readi sb i dst off n) := by
  unfold readi
  simp only
  split_ifs
  · exact ⟨h, rfl⟩
  · exact safe_readLoop _ _ h hv dst 0 _
  · exact safe_readLoop _ _ h hv dst 0 _

theorem safe_writeLoop (n turns : ℕ) (h : s.Inv sb) (hv : s.valid i = true) (src : Src)
    (tot off : ℕ) : Safe (fun r => Kept sb s r.1) (writeLoop sb i n src turns s tot off) := by
  induction turns generalizing s tot off with
  | zero => exact ⟨h, rfl⟩
  | succ turns ih =>
    rw [writeLoop]
    split_ifs
    · refine (safe_bmap h hv _).bind fun r ⟨hkept, p, hp, hown⟩ => ?_
      -- the block that is written to belongs to the contents of the file
      have hwrite : ∀ blk, Kept sb s (r.2.setBlock r.1 blk) := fun blk =>
        hkept.trans ⟨hkept.1.setBlock hown hp, rfl⟩
      simp only
      split_ifs
      · exact hwrite _
      · exact (ih (hwrite _).1 ((hwrite _).is_valid hv) _ _).mono fun u hu => (hwrite _).trans hu
    · exact ⟨h, rfl⟩

theorem safe_writei (h : s.Inv sb) (hv : s.valid i = true) (src : Src) (off n : UInt) :
    Safe (fun r => Kept sb s r.2) (s.writei sb i src off n) := by
  unfold writei
  split_ifs
  · exact ⟨h, rfl⟩
  · exact ⟨h, rfl⟩
  · refine (safe_writeLoop _ _ h hv src 0 _).map fun r hkept => ?_
    have hv' := hkept.is_valid hv
    simp only
    split_ifs
    · exact hkept.trans ⟨(hkept.1.setSize hv' _).1.iupdate hv', rfl⟩
    · exact hkept.trans ⟨hkept.1.iupdate hv', rfl⟩

/-! ### The inode table -/

theorem Inv.setRef (h : s.Inv sb) {ref : ℕ → ℕ} (href : ∀ j, 0 < ref j → j < sb.ninodes) :
    ({ s with ref := ref } : Fs).Inv sb where
  marked := h.marked
  sound := h.sound
  cached := h.cached
  refs := href
  fresh := h.fresh

/-- The inode in memory is dropped: on the disk it has the same blocks, or fewer. -/
theorem Inv.drop (h : s.Inv sb) (i : ℕ) :
    ({ s with valid := update s.valid i false } : Fs).Inv sb := by
  set t : Fs := { s with valid := update s.valid i false } with ht
  have hle : ∀ q b, t.own sb q = some b → s.own sb q = some b := by
    rintro ⟨j, p⟩ b hb
    by_cases hj : j = i ∧ s.valid i = true
    · obtain ⟨rfl, hv⟩ := hj
      obtain ⟨hlt, hne, htype, haddrs⟩ := h.cached j hv
      have hcur : t.cur sb j = s.dinode sb j := if_neg (by simp [ht])
      obtain ⟨-, -, ha, hab⟩ := own_eq_some.1 hb
      rw [hcur] at ha hab
      have haddr : s.addr (s.dinode sb j) p ≠ 0 →
          s.addr (s.inode j) p = s.addr (s.dinode sb j) p := by
        intro hne
        cases p with
        | direct k => exact ((haddrs k).resolve_right hne).symm
        | indirect w =>
          have hlast : (s.dinode sb j).addrs (Fin.last NDIRECT) ≠ 0 := fun h0 => hne (if_pos h0)
          simp only [addr, (haddrs (Fin.last NDIRECT)).resolve_right hlast]
      refine own_eq_some.2 ⟨hlt, ?_, ?_, ?_⟩
      · rwa [cur_of_valid hv]
      · rw [cur_of_valid hv, haddr ha]
        exact ha
      · rw [cur_of_valid hv, haddr ha]
        exact hab
    · have hcur : t.cur sb j = s.cur sb j := by
        refine cur_congr ?_ rfl rfl
        by_cases hji : j = i
        · rw [hji]
          simp only [ht, update_self]
          exact (Bool.eq_false_iff.2 fun hv => hj ⟨hji, hv⟩).symm
        · simp [ht, update_of_ne hji]
      rw [← own_congr (s := s) (fun _ => hcur) fun _ _ => rfl]
      exact hb
  refine
    { marked := h.marked
      sound := h.sound.mono hle fun _ _ _ hg => hg
      cached := fun j hj => ?_
      refs := h.refs
      fresh := h.fresh }
  by_cases hji : j = i
  · subst hji
    simp [ht] at hj
  · simp only [ht, update_of_ne hji] at hj
    exact h.cached j hj

theorem safe_iget (h : s.Inv sb) (hi : i < sb.ninodes) :
    Safe (fun t => t.Inv sb) (s.iget sb i) := by
  have href : ∀ n j, 0 < update s.ref i n j → j < sb.ninodes := by
    intro n j hj
    by_cases hji : j = i
    · rw [hji]; exact hi
    · rw [update_of_ne hji] at hj
      exact h.refs j hj
  unfold iget
  split_ifs
  · exact h.setRef (href _)
  · exact (h.drop i).setRef (href _)
  · show noInodes ≠ _
    decide

/-- `ilock` changes no inode: it reads it from the disk. -/
theorem cur_load (hv : ¬ s.valid i = true) (j : ℕ) :
    cur sb { s.setInode i (s.dinode sb i) with valid := update s.valid i true } j =
      s.cur sb j := by
  by_cases hj : j = i
  · subst hj
    rw [cur_of_valid (by simp), cur, if_neg hv]
    simp [setInode]
  · refine cur_congr ?_ ?_ rfl
    · simp [update_of_ne hj]
    · simp [setInode, update_of_ne hj]

theorem safe_ilock (h : s.Inv sb) (hi : i < sb.ninodes) :
    Safe (fun t => t.Inv sb) (s.ilock sb i) := by
  unfold ilock
  split_ifs with hv htype
  · exact h
  · show noType ≠ _
    decide
  · set t : Fs := { s.setInode i (s.dinode sb i) with valid := update s.valid i true } with ht
    have hcur : ∀ j, t.cur sb j = s.cur sb j := cur_load hv
    have hown : t.own sb = s.own sb := by
      funext ⟨j, p⟩
      exact own_congr (fun _ => hcur j) fun _ _ => rfl
    refine
      { marked := h.marked
        sound := by rw [hown]; exact h.sound
        cached := fun j hj => ?_
        refs := h.refs
        fresh := h.fresh }
    by_cases hji : j = i
    · subst hji
      have hinode : t.inode j = s.dinode sb j := by simp [ht, setInode]
      rw [hinode]
      exact ⟨hi, htype, rfl, fun k => .inl rfl⟩
    · simp only [ht, update_of_ne hji] at hj
      have hinode : t.inode j = s.inode j := by simp [ht, setInode, update_of_ne hji]
      rw [hinode]
      exact h.cached j hj

theorem Inv.freeInode (h : s.Inv sb) (hv : s.valid i = true) (hnone : ∀ p, s.own sb (i, p) = none) :
    ({ (s.setInode i { s.inode i with type := 0 }).iupdate sb i with
      valid := update s.valid i false } : Fs).Inv sb := by
  have hi := (h.cached i hv).1
  set u := (s.setInode i { s.inode i with type := 0 }).iupdate sb i with hu
  set t : Fs := { u with valid := update s.valid i false } with ht
  have hdinode : ∀ j, j ≠ i → t.dinode sb j = s.dinode sb j := fun j hj => dinode_iupdate_of_ne hj
  have hblock : ∀ d, sb.IsData d → t.block d = s.block d := fun d hd => block_iupdate hi hd
  have hused : ∀ c, t.used sb c = s.used sb c := fun c => used_iupdate hi c
  have hvalid : ∀ j, j ≠ i → t.valid j = s.valid j := fun j hj => by
    simp [ht, update_of_ne hj]
  have hinode : ∀ j, j ≠ i → t.inode j = s.inode j := fun j hj => by
    simp [ht, hu, Fs.iupdate, Fs.setBlock, setInode, update_of_ne hj]
  have hown : t.own sb = s.own sb := by
    ext ⟨j, p⟩ : 1
    by_cases hj : j = i
    · subst hj
      have htype : (t.cur sb j).type = 0 := by
        have hcur : t.cur sb j = t.dinode sb j := if_neg (by simp [ht])
        have hd : t.dinode sb j = (s.setInode j { s.inode j with type := 0 }).inode j :=
          dinode_iupdate_self
        rw [hcur, hd]
        simp [setInode]
      rw [hnone]
      exact if_neg fun hq => hq.2.1 htype
    · exact own_congr (fun _ => cur_congr (hvalid j hj) (hinode j hj) (hdinode j hj)) fun c hc =>
        hblock c (h.sound.good _ c hc).1
  refine
    { marked := fun c hc => by rw [hused]; exact h.marked c hc
      sound := ?_
      cached := fun j hj => ?_
      refs := h.refs
      fresh := h.fresh }
  · rw [hown]
    exact h.sound.mono (fun _ _ hq => hq) fun q c _ hc => ⟨hc.1, by rw [hused]; exact hc.2⟩
  · have hji : j ≠ i := by
      rintro rfl
      simp [ht] at hj
    rw [hvalid j hji] at hj
    rw [hinode j hji, hdinode j hji]
    exact h.cached j hj

theorem safe_iput (h : s.Inv sb) : Safe (fun t => t.Inv sb) (s.iput sb i) := by
  have href : ∀ t : Fs, t.Inv sb →
      ({ t with ref := update t.ref i (t.ref i - 1) } : Fs).Inv sb := by
    intro t ht
    refine ht.setRef fun j hj => ht.refs j ?_
    by_cases hji : j = i
    · subst hji
      rw [update_self] at hj
      omega
    · rwa [update_of_ne hji] at hj
  unfold iput
  split_ifs with hfree
  · obtain ⟨s', hs', hempty⟩ := h.itrunc hfree.2.1
    have hv : s'.valid i = true := by rw [hempty.valid]; exact hfree.2.1
    rw [hs']
    exact href _ (hempty.inv.freeInode hv hempty.own_self)
  · exact href s h

/-! ### Sequences of calls -/

/-- Every call keeps the invariant and does not free a free block. -/
theorem safe_exec (h : s.Inv sb) {a : Act} (ha : s.Enabled sb a) :
    Safe (fun r => r.2.Inv sb) (s.exec sb a) := by
  cases a with
  | iget i => exact (safe_iget h ha).map fun _ ht => ht
  | ilock i => exact (safe_ilock h (h.refs i ha)).map fun _ ht => ht
  | iput i => exact (safe_iput h).map fun _ ht => ht
  | bmap i bn => exact (safe_bmap h ha.2 bn).map fun _ ht => ht.1.1
  | itrunc i =>
    obtain ⟨s', hs', hempty⟩ := h.itrunc ha.2
    rw [exec, hs']
    exact hempty.inv
  | readi i dst off n => exact (safe_readi h ha.2 dst off n).map fun _ ht => ht.1
  | writei i src off n => exact (safe_writei h ha.2 src off n).map fun _ ht => ht.1

theorem Inv.step (h : s.Inv sb) {a : Act} (hs : s.step sb a = some s') : s'.Inv sb := by
  unfold Fs.step at hs
  split_ifs at hs with ha
  have hsafe := safe_exec h ha
  cases hr : s.exec sb a with
  | error e =>
    rw [hr] at hs
    cases hs
  | ok r =>
    rw [hr] at hs hsafe
    cases hs
    exact hsafe

/-- The file system when the kernel starts: no inode is in memory. -/
def boot (block : ℕ → Block) : Fs where
  block := block
  inode := fun _ =>
    { type := 0, major := 0, minor := 0, nlink := 0, size := 0, addrs := fun _ => 0 }
  valid := fun _ => false
  ref := fun _ => 0
  allocs := []

theorem inv_boot {block : ℕ → Block} (hm : ∀ b, b < sb.nmeta → (boot block).used sb b = true)
    (hs : Ownership.Sound ((boot block).own sb) fun b =>
      sb.IsData b ∧ (boot block).used sb b = true) : (boot block).Inv sb where
  marked := hm
  sound := hs
  cached := fun _ hi => nomatch hi
  refs := fun _ hi => absurd hi (Nat.lt_irrefl 0)
  fresh := nofun

/-- **Block ownership.** In every sequence of calls from a file system in order: the blocks that
the entries of allocated inodes and of their indirect blocks name are data blocks marked in the
bitmap; no block is named twice; `balloc` has only returned blocks that no inode owned, also within
the calls, and returns a block of zeroes; and no call panics because it frees a free block. -/
theorem block_ownership {s₀ : Fs} (h₀ : s₀.Inv sb) {tr : List Act}
    (h : Reach (step sb) Always s₀ tr s) :
    (∀ q b, s.own sb q = some b → sb.IsData b ∧ s.used sb b = true) ∧
    (∀ q r b, s.own sb q = some b → s.own sb r = some b → q = r) ∧ (∀ e ∈ s.allocs, e.2 = false) ∧
    (∀ b t, s.balloc sb = .ok (b, t) → (∀ q, s.own sb q ≠ some b) ∧ ∀ k, t.block b k = 0) ∧
    ∀ a, s.Enabled sb a → s.exec sb a ≠ .error .freeingFree := by
  have hinv : s.Inv sb := h.state_invariant h₀ fun _ _ _ hi _ hs => hi.step hs
  refine ⟨hinv.sound.good, hinv.sound.exclusive, hinv.fresh, fun b t hb => ?_, fun a ha he => ?_⟩
  · have hg := granted_of_balloc hinv.marked hb
    exact ⟨fun q => hinv.own_ne_of_free hg.free, fun k => by rw [hg.zero]⟩
  · have hsafe := safe_exec hinv ha
    rw [he] at hsafe
    exact hsafe rfl

/-- A small disk: 30 log blocks, two inodes, five data blocks. -/
def smallDisk : Superblock where
  size := 39
  nblocks := 5
  ninodes := 2
  nlog := 30
  inodestart := 32
  bmapstart := 33
  inodestart_eq := rfl
  bmapstart_eq := rfl
  size_eq := rfl
  size_lt := by decide

/-- The image of `smallDisk` with one empty file, inode 1. -/
def smallImage (b : ℕ) : Block :=
  if b = 33 then (List.range 34).foldl setBit fun _ => 0
  else if b = 32 then
    Block.setDinode (fun _ => 0) 1
      { type := 2, major := 0, minor := 0, nlink := 1, size := 0, addrs := fun _ => 0 }
  else fun _ => 0

theorem inv_smallImage : (boot smallImage).Inv smallDisk := by
  refine inv_boot (by decide) ?_
  have hnone : ∀ i < 2, ∀ k, ((boot smallImage).cur smallDisk i).addrs k = 0 := by decide
  have hown : ∀ q, (boot smallImage).own smallDisk q = none := by
    rintro ⟨i, p⟩
    refine if_neg fun hq => hq.2.2 ?_
    have hi := hq.1
    cases p with
    | direct k => exact hnone i hi k
    | indirect w => exact if_pos (hnone i hi _)
  exact
    { good := fun q b hq => by rw [hown] at hq; cases hq
      exclusive := fun q r b hq => by rw [hown] at hq; cases hq }

/-- A file is given a direct and an indirect block. -/
def smallCalls : List Act :=
  [.iget 1, .ilock 1, .writei 1 (.kernel fun _ => 7) 0 2, .bmap 1 12]

theorem block_ownership_smallDisk :
    ∃ s, Reach (step smallDisk) Always (boot smallImage)
        smallCalls.reverse s ∧
      s.own smallDisk (1, place 0 (by decide)) = some 34 ∧
      s.own smallDisk (1, place 12 (by decide)) = some 36 ∧
      (∀ q r b, s.own smallDisk q = some b → s.own smallDisk r = some b → q = r) ∧
      ∀ a, s.Enabled smallDisk a → s.exec smallDisk a ≠ .error .freeingFree := by
  obtain ⟨s, hs, hown⟩ : ∃ s ∈ run (step smallDisk) (boot smallImage) smallCalls,
      s.own smallDisk (1, place 0 (by decide)) = some 34 ∧
      s.own smallDisk (1, place 12 (by decide)) = some 36 := by decide
  have hreach := reach_always hs
  obtain ⟨-, hexcl, -, -, hsafe⟩ := block_ownership inv_smallImage hreach
  exact ⟨s, hreach, hown.1, hown.2, hexcl, hsafe⟩

end Xv6.Fs
