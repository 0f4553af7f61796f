import Xv6.Fs.Owner

/-!
# `bmap`

The place of block `bn` of a file, what a place holds, and what `bmap` does: afterwards the place
owns the block that is returned, and the contents of all files are as before, since a block that
`balloc` returns is zeroed.  `bmap` fails only if no block is free.
-/

namespace Xv6.Fs

open Function Bytes Outcome

/-- The place of block `bn` of a file. -/
def place (bn : ℕ) (h : bn < MAXFILE) : Place :=
  if hd : bn < NDIRECT then .direct ⟨bn, Nat.lt_succ_of_lt hd⟩
  else .indirect ⟨bn - NDIRECT, by have : MAXFILE = NDIRECT + NINDIRECT := rfl; omega⟩

variable {bn : ℕ}

theorem place_ne_ind (h : bn < MAXFILE) : place bn h ≠ .ind := by
  unfold place
  split_ifs with hd
  · intro heq
    have := congrArg Fin.val (Place.direct.inj heq)
    simp only [Fin.val_last] at this
    omega
  · simp

theorem place_inj {bn' : ℕ} {h : bn < MAXFILE} {h' : bn' < MAXFILE}
    (heq : place bn h = place bn' h') : bn = bn' := by
  unfold place at heq
  split_ifs at heq with hd hd'
  · simpa using heq
  · have := congrArg Fin.val (Place.indirect.inj heq)
    simp only at this
    omega

variable {sb : Superblock} {s s' s'' : Fs} {i j b c d : ℕ} {p : Place} {q : ℕ × Place}

variable (sb) in
/-- What a place holds: zeroes if it has no block. -/
def content (s : Fs) (q : ℕ × Place) : Block :=
  match s.own sb q with
  | none => fun _ => 0
  | some b => s.block b

theorem content_congr (hown : s'.own sb q = s.own sb q)
    (hblock : ∀ b, s.own sb q = some b → s'.block b = s.block b) :
    s'.content sb q = s.content sb q := by
  unfold content
  rw [hown]
  cases hq : s.own sb q with
  | none => rfl
  | some b => exact hblock b hq

theorem content_of_zero (hown : s.own sb q = none) (hown' : s'.own sb q = some b)
    (hz : s'.block b = fun _ => 0) : s'.content sb q = s.content sb q := by
  simp only [content, hown, hown', hz]

/-! ### What `bmap` does -/

/-- Place `p` of inode `i` owns block `b`, and nothing else has changed that can be seen. -/
structure Mapped (sb : Superblock) (s s' : Fs) (i : ℕ) (p : Place) (b : ℕ) : Prop where
  inv : s'.Inv sb
  own : s'.own sb (i, p) = some b
  /-- Only an entry of the indirect block needs the indirect block. -/
  others : ∀ q, q ≠ (i, p) → (q = (i, .ind) → ∀ w, p ≠ .indirect w) → s'.own sb q = s.own sb q
  content : ∀ q, q.2 ≠ .ind → s'.content sb q = s.content sb q
  inode : ∀ j, j ≠ i → s'.inode j = s.inode j
  inode_self : ∃ addrs, s'.inode i = { s.inode i with addrs := addrs }
  valid : s'.valid = s.valid
  ref : s'.ref = s.ref
  dinode : ∀ j, j < sb.ninodes → s'.dinode sb j = s.dinode sb j

variable {w : Fin NINDIRECT}

namespace Mapped

theorem refl (h : s.Inv sb) (hown : s.own sb (i, p) = some b) : Mapped sb s s i p b where
  inv := h
  own := hown
  others _ _ _ := rfl
  content _ _ := rfl
  inode _ _ := rfl
  inode_self := ⟨(s.inode i).addrs, rfl⟩
  valid := rfl
  ref := rfl
  dinode _ _ := rfl

theorem trans (h : Mapped sb s s' i .ind c)
    (h' : Mapped sb s' s'' i (.indirect w) b) : Mapped sb s s'' i (.indirect w) b where
  inv := h'.inv
  own := h'.own
  others q hq hq' :=
    (h'.others q hq hq').trans (h.others q (fun heq => hq' heq w rfl) fun _ _ => by simp)
  content q hq := (h'.content q hq).trans (h.content q hq)
  inode j hj := (h'.inode j hj).trans (h.inode j hj)
  inode_self := by
    obtain ⟨a, ha⟩ := h.inode_self
    obtain ⟨a', ha'⟩ := h'.inode_self
    exact ⟨a', by rw [ha', ha]⟩
  valid := h'.valid.trans h.valid
  ref := h'.ref.trans h.ref
  dinode j hj := (h'.dinode j hj).trans (h.dinode j hj)

end Mapped

/-- The contents are the same after `balloc`. -/
theorem Inv.content_granted (h : s.Inv sb) (hg : Granted sb s s' b) (q : ℕ × Place) :
    s'.content sb q = s.content sb q := by
  refine content_congr (by rw [h.own_granted hg]) fun c hc => hg.block c (h.sound.good q c hc).1 ?_
  rintro rfl
  exact h.own_ne_of_free hg.free hc

theorem Granted.used_self (hg : Granted sb s s' b) : s'.used sb b = true := by
  rw [hg.used b hg.isData.2]
  simp

theorem Inv.own_ne_granted (h : s.Inv sb) (hg : Granted sb s s' b) (q : ℕ × Place) :
    s'.own sb q ≠ some b := by
  rw [h.own_granted hg]
  exact h.own_ne_of_free hg.free

variable {k : Fin (NDIRECT + 1)}

/-- `ip->addrs[k] = balloc(ip->dev)`. -/
theorem mapped_setAddr (h : s.Inv sb) (hv : s.valid i = true) (hk : (s.inode i).addrs k = 0)
    (hg : Granted sb s s' b) :
    Mapped sb s (s'.setAddr i k (BitVec.ofNat 32 b)) i (.direct k) b := by
  have h' := h.granted hg
  have hv' : s'.valid i = true := by rw [hg.valid]; exact hv
  have hk' : (s'.inode i).addrs k = 0 := by rw [hg.inode]; exact hk
  have hown := h'.own_setAddr hv' hk' hg.isData fun _ => hg.zero
  have hnone : s.own sb (i, .direct k) = none := by
    refine if_neg fun hq => hq.2.2 ?_
    rw [cur_of_valid hv]
    exact hk
  refine
    { inv := h'.setAddr hv' hk' hg.isData hg.used_self (h.own_ne_granted hg) fun _ => hg.zero
      own := by rw [hown, update_self]
      others := fun q hq _ => by rw [hown, update_of_ne hq, h.own_granted hg]
      content := fun q hq => ?_
      inode := fun j hj => ?_
      inode_self := ⟨update (s.inode i).addrs k (BitVec.ofNat 32 b), ?_⟩
      valid := hg.valid
      ref := hg.ref
      dinode := hg.dinode }
  · by_cases hqi : q = (i, .direct k)
    · subst hqi
      exact content_of_zero hnone (by rw [hown, update_self]) hg.zero
    · rw [← h.content_granted hg q]
      exact content_congr (by rw [hown, update_of_ne hqi]) fun _ _ => rfl
  · simp [setAddr, setInode, update_of_ne hj, hg.inode]
  · simp [setAddr, setInode, hg.inode]

variable {a : ℕ}

theorem own_of_word (ha : s.own sb (i, .ind) = some a) :
    s.own sb (i, .indirect w) =
      if word (s.block a) (4 * w) = 0 then none else some (word (s.block a) (4 * w)).toNat := by
  obtain ⟨hlt, htype, hne, haddr⟩ := own_eq_some.1 ha
  have hne : (s.cur sb i).addrs (Fin.last NDIRECT) ≠ 0 := hne
  have haddr : ((s.cur sb i).addrs (Fin.last NDIRECT)).toNat = a := haddr
  have hword : s.addr (s.cur sb i) (.indirect w) = word (s.block a) (4 * w) := by
    simp only [addr, if_neg hne, haddr]
  split_ifs with hw
  · exact if_neg fun hq => hq.2.2 (hword.trans hw)
  · exact own_eq_some.2 ⟨hlt, htype, by rwa [hword], by rw [hword]⟩

/-- `a[w] = balloc(ip->dev)` in the indirect block. -/
theorem mapped_setWord (h : s.Inv sb) (ha : s.own sb (i, .ind) = some a)
    (hw : word (s.block a) (4 * w) = 0) (hg : Granted sb s s' b) :
    Mapped sb s (s'.setWord a w (BitVec.ofNat 32 b)) i (.indirect w) b := by
  have h' := h.granted hg
  have ha' : s'.own sb (i, .ind) = some a := by rw [h.own_granted hg]; exact ha
  have hdata := (h.sound.good _ a ha).1
  have hown := h'.own_setWord (w := w) ha' hg.isData
  have hnone : s.own sb (i, .indirect w) = none := by rw [own_of_word ha, if_pos hw]
  have hab : b ≠ a := by
    rintro rfl
    exact h.own_ne_of_free hg.free ha
  refine
    { inv := h'.setWord ha' hg.isData hg.used_self (h.own_ne_granted hg)
      own := by rw [hown, update_self]
      others := fun q hq _ => by rw [hown, update_of_ne hq, h.own_granted hg]
      content := fun q hq => ?_
      inode := fun j hj => by rw [← hg.inode]; rfl
      inode_self := ⟨(s.inode i).addrs, by rw [← hg.inode]; rfl⟩
      valid := hg.valid
      ref := hg.ref
      dinode := fun j hj => (Inv.dinode_setBlock hdata hj).trans (hg.dinode j hj) }
  · by_cases hqi : q = (i, .indirect w)
    · subst hqi
      refine content_of_zero hnone (by rw [hown, update_self]) ?_
      rw [setWord, setBlock_of_ne hab]
      exact hg.zero
    · rw [← h.content_granted hg q]
      refine content_congr (by rw [hown, update_of_ne hqi]) fun c hc => setBlock_of_ne ?_
      rintro rfl
      exact hq (by rw [h'.sound.exclusive _ _ _ hc ha'])

/-! ### All of `bmap` -/

theorem own_of_addrs (h : s.Inv sb) (hv : s.valid i = true) (hk : (s.inode i).addrs k ≠ 0) :
    s.own sb (i, .direct k) = some ((s.inode i).addrs k).toNat := by
  obtain ⟨hlt, htype, -⟩ := h.cached i hv
  refine own_eq_some.2 ⟨hlt, ?_, ?_, ?_⟩
  · rwa [cur_of_valid hv]
  · rw [cur_of_valid hv]; exact hk
  · rw [cur_of_valid hv]; rfl

/-- The result of a function that gives place `p` of inode `i` a block, unless none is free. -/
def Allocates (sb : Superblock) (s : Fs) (i : ℕ) (p : Place) : Except Panic (ℕ × Fs) → Prop
  | .ok r => Mapped sb s r.2 i p r.1
  | .error e => e = .outOfBlocks

theorem allocates_orAlloc (h : s.Inv sb) {x : UInt} {store : Fs → UInt → Fs}
    (hzero : x = 0 → ∀ s' b, Granted sb s s' b →
      Mapped sb s (store s' (BitVec.ofNat 32 b)) i p b)
    (hne : x ≠ 0 → s.own sb (i, p) = some x.toNat) :
    Allocates sb s i p (s.orAlloc sb x store) := by
  by_cases hx : x = 0
  · rw [orAlloc, if_pos hx]
    cases hb : s.balloc sb with
    | error e => exact balloc_error hb
    | ok r => exact hzero hx r.2 r.1 (granted_of_balloc h.marked hb)
  · rw [orAlloc, if_neg hx]
    exact .refl h (hne hx)

/-- The entries of `addrs`. -/
theorem allocates_addrs (h : s.Inv sb) (hv : s.valid i = true) (k : Fin (NDIRECT + 1)) :
    Allocates sb s i (.direct k)
      (s.orAlloc sb ((s.inode i).addrs k) fun s b => s.setAddr i k b) :=
  allocates_orAlloc h (fun hk _ _ hg => mapped_setAddr h hv hk hg) fun hk => own_of_addrs h hv hk

theorem allocates_word (h : s.Inv sb) (ha : s.own sb (i, .ind) = some a) (w : Fin NINDIRECT) :
    Allocates sb s i (.indirect w)
      (s.orAlloc sb (word (s.block a) (4 * w)) fun s b => s.setWord a w b) := by
  refine allocates_orAlloc h (fun hw _ _ hg => mapped_setWord h ha hw hg) fun hw => ?_
  rw [own_of_word ha, if_neg hw]

/-- **`bmap`** gives the place of the block a block, or finds no free block. -/
theorem allocates_bmap (h : s.Inv sb) (hv : s.valid i = true) (hbn : bn < MAXFILE) :
    Allocates sb s i (place bn hbn) (s.bmap sb i bn) := by
  unfold bmap place
  by_cases hd : bn < NDIRECT
  · simp only [dif_pos hd]
    exact allocates_addrs h hv ⟨bn, Nat.lt_succ_of_lt hd⟩
  have hw : bn - NDIRECT < NINDIRECT := by
    have : MAXFILE = NDIRECT + NINDIRECT := rfl
    omega
  simp only [dif_neg hd, if_pos hw]
  -- first the indirect block, then its entry
  have hind : Allocates sb s i .ind _ := allocates_addrs h hv (Fin.last NDIRECT)
  cases hr : s.orAlloc sb ((s.inode i).addrs (Fin.last NDIRECT)) fun s b =>
      s.setAddr i (Fin.last NDIRECT) b with
  | error e =>
    rw [hr] at hind
    exact hind
  | ok r =>
    rw [hr] at hind
    have hmap : Mapped sb s r.2 i .ind r.1 := hind
    have hword := allocates_word hmap.inv hmap.own ⟨bn - NDIRECT, hw⟩
    rw [ok_bind]
    cases hr' : r.2.orAlloc sb (word (r.2.block r.1) (4 * (bn - NDIRECT))) fun s b =>
        s.setWord r.1 (bn - NDIRECT) b with
    | error e =>
      rw [hr'] at hword
      exact hword
    | ok r' =>
      rw [hr'] at hword
      exact hmap.trans hword

theorem bmap_outOfRange (h : MAXFILE ≤ bn) : s.bmap sb i bn = .error .outOfRange := by
  have : MAXFILE = NDIRECT + NINDIRECT := rfl
  rw [bmap, dif_neg (by omega), if_neg (by omega)]

end Xv6.Fs
