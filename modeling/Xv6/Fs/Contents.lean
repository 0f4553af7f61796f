import Xv6.Fs.Trunc
import Mathlib.Data.List.GetD

/-!
# The bytes of a file

The contents of an inode are spread over its direct blocks and the blocks that its indirect block
names.  The loops of `readi` and `writei` go through them block by block; this module says what a
turn and a whole loop do to the bytes.
-/

namespace Xv6.Fs

open Bytes Outcome Segment Function Block

variable {sb : Superblock} {s s' t u : Fs} {i j a b c m : ℕ} {p : Place} {f g : ℕ → Byte}
  {n n' : UInt}

section

variable (sb)

/-- Byte `o` of inode `i`. -/
def byteAt (s : Fs) (i o : ℕ) : Byte :=
  if h : o / BSIZE < MAXFILE then s.content sb (i, place (o / BSIZE) h) (o % BSIZE) else 0

/-- The bytes of inode `i`. -/
def contents (s : Fs) (i : ℕ) : List Byte :=
  if i < sb.ninodes then table (s.cur sb i).size.toNat (s.byteAt sb i) else []

end

/-! ### What changes -/

/-- Inode `i` has size `n` and bytes `f`, and the other inodes are as before. -/
structure Edited (sb : Superblock) (s t : Fs) (i : ℕ) (n : UInt) (f : ℕ → Byte) : Prop where
  inv : t.Inv sb
  size : (t.inode i).size = n
  bytes : ∀ o, t.byteAt sb i o = f o
  others : ∀ j, j ≠ i → t.byteAt sb j = s.byteAt sb j
  inode : ∀ j, j ≠ i → t.inode j = s.inode j
  valid : t.valid = s.valid
  ref : t.ref = s.ref
  dinode : ∀ j, j < sb.ninodes → j ≠ i → t.dinode sb j = s.dinode sb j

namespace Edited

theorem refl (h : s.Inv sb) (i : ℕ) : Edited sb s s i (s.inode i).size (s.byteAt sb i) where
  inv := h
  size := rfl
  bytes _ := rfl
  others _ _ := rfl
  inode _ _ := rfl
  valid := rfl
  ref := rfl
  dinode _ _ _ := rfl

theorem trans (h : Edited sb s t i n f) (h' : Edited sb t u i n' g) : Edited sb s u i n' g where
  inv := h'.inv
  size := h'.size
  bytes := h'.bytes
  others j hj := (h'.others j hj).trans (h.others j hj)
  inode j hj := (h'.inode j hj).trans (h.inode j hj)
  valid := h'.valid.trans h.valid
  ref := h'.ref.trans h.ref
  dinode j hj hji := (h'.dinode j hj hji).trans (h.dinode j hj hji)

theorem congr (h : Edited sb s t i n f) (hfg : ∀ o, f o = g o) : Edited sb s t i n g :=
  { h with bytes := fun o => (h.bytes o).trans (hfg o) }

theorem is_valid (h : Edited sb s t i n f) (hv : s.valid i = true) : t.valid i = true := by
  rw [h.valid]
  exact hv

theorem contents_eq (h : Edited sb s t i n f) (hv : s.valid i = true) :
    t.contents sb = update (s.contents sb) i (table n.toNat f) := by
  funext j
  by_cases hj : j = i
  · subst hj
    have hv' := h.is_valid hv
    rw [update_self, contents, if_pos (h.inv.cached j hv').1, cur_of_valid hv', h.size]
    exact table_congr fun k _ => h.bytes k
  · rw [update_of_ne hj]
    unfold contents
    split_ifs with hlt
    · have hcur : t.cur sb j = s.cur sb j :=
        cur_congr (by rw [h.valid]) (h.inode j hj) (h.dinode j hlt hj)
      rw [hcur, h.others j hj]
    · rfl

end Edited

theorem byteAt_congr (h : ∀ p, p ≠ .ind → t.content sb (j, p) = s.content sb (j, p)) :
    t.byteAt sb j = s.byteAt sb j := by
  funext o
  unfold byteAt
  split_ifs with ho
  · rw [h _ (place_ne_ind ho)]
  · rfl

/-- `bmap` does not change the bytes. -/
theorem Mapped.edited (h : Mapped sb s t i p b) :
    Edited sb s t i (s.inode i).size (s.byteAt sb i) where
  inv := h.inv
  size := by
    obtain ⟨addrs, ha⟩ := h.inode_self
    rw [ha]
  bytes o := by rw [byteAt_congr fun p hp => h.content (i, p) hp]
  others j _ := byteAt_congr fun p hp => h.content (j, p) hp
  inode := h.inode
  valid := h.valid
  ref := h.ref
  dinode j hj _ := h.dinode j hj

theorem Inv.content_setBlock (h : s.Inv sb) (hb : s.own sb (i, p) = some b) (hp : p ≠ .ind)
    (blk : Block) (q : ℕ × Place) :
    (s.setBlock b blk).content sb q = if q = (i, p) then blk else s.content sb q := by
  have hown : (s.setBlock b blk).own sb = s.own sb := h.own_setBlock hb hp
  split_ifs with hq
  · subst hq
    simp only [content, hown, hb, setBlock_self]
  · refine content_congr (by rw [hown]) fun c hc => setBlock_of_ne ?_
    rintro rfl
    exact hq (h.sound.exclusive _ _ _ hc hb)

/-! ### One turn of a loop -/

section

/-- The bytes of the turn that starts at byte `a`. -/
theorem byteAt_turn {hbn : a / BSIZE < MAXFILE} {k : ℕ}
    (hown : s.own sb (i, place (a / BSIZE) hbn) = some c)
    (hk : k < min (b - a) (BSIZE - a % BSIZE)) :
    s.block c (a % BSIZE + k) = s.byteAt sb i (a + k) := by
  obtain ⟨hdiv, hmod⟩ := div_mod_of_turn (Nat.le_add_right a k) (Nat.add_lt_add_left hk a)
  unfold byteAt
  rw [Nat.add_sub_cancel_left] at hmod
  simp only [hdiv, hmod, dif_pos hbn, content, hown]

theorem Inv.edited_fill {hbn : a / BSIZE < MAXFILE} (h : s.Inv sb)
    (hown : s.own sb (i, place (a / BSIZE) hbn) = some c)
    (hm : m = min (b - a) (BSIZE - a % BSIZE)) (f : ℕ → Byte) :
    Edited sb s (s.setBlock c (fill (s.block c) (a % BSIZE) (table m f))) i (s.inode i).size
      fun o => if a ≤ o ∧ o < a + m then f (o - a) else s.byteAt sb i o := by
  have hp := place_ne_ind hbn
  have hcontent := h.content_setBlock hown hp (fill (s.block c) (a % BSIZE) (table m f))
  refine
    { inv := h.setBlock hown hp
      size := rfl
      bytes := fun o => ?_
      others := fun j hj => byteAt_congr fun p _ => ?_
      inode := fun _ _ => rfl
      valid := rfl
      ref := rfl
      dinode := fun j hj _ => Inv.dinode_setBlock (h.sound.good _ c hown).1 hj }
  · by_cases hturn : a ≤ o ∧ o < a + m
    · obtain ⟨hdiv, hmod⟩ := div_mod_of_turn hturn.1 (hm ▸ hturn.2)
      rw [if_pos hturn]
      unfold byteAt
      simp only [hdiv, hmod, dif_pos hbn, hcontent, if_true, fill, length_table]
      rw [if_pos (by omega), List.getD_eq_getElem _ _ (by rw [length_table]; omega), getElem_table]
      congr 1
      omega
    · rw [if_neg hturn]
      unfold byteAt
      split_ifs with ho
      · rw [hcontent]
        split_ifs with hq
        · -- the same block, outside of the turn
          have hdiv := place_inj (Prod.mk.inj hq).2
          have hsame : s.content sb (i, place (o / BSIZE) ho) = s.block c := by
            rw [hq]
            simp only [content, hown]
          have ha := Nat.div_add_mod a BSIZE
          have ho := Nat.div_add_mod o BSIZE
          rw [hdiv] at ho
          rw [hsame, fill, length_table, if_neg (by omega)]
        · rfl
      · rfl
  · rw [hcontent, if_neg fun hq => hj (Prod.mk.inj hq).1]

/-- `bmap` in a turn. -/
theorem mapped_of_bmap (h : s.Inv sb) (hv : s.valid i = true) (hlt : a < b)
    (hmax : b ≤ MAXFILE * BSIZE) (hs : s.bmap sb i (a / BSIZE) = .ok (c, t)) :
    ∃ hbn, Mapped sb s t i (place (a / BSIZE) hbn) c := by
  have hbn : a / BSIZE < MAXFILE := Nat.div_lt_of_lt_mul (by rw [Nat.mul_comm]; omega)
  have hspec := allocates_bmap h hv hbn
  rw [hs] at hspec
  exact ⟨hbn, hspec⟩

end

/-! ### The loop of `readi` -/

/-- The bytes from `off` on are copied. -/
theorem readLoop_spec {n turns tot off : ℕ} {bs : List Byte} {r : ℤ} {dst : Dst} (h : s.Inv sb)
    (hv : s.valid i = true) (htot : tot ≤ n) (hturns : n - tot ≤ turns)
    (hmax : off + (n - tot) ≤ MAXFILE * BSIZE)
    (hs : readLoop sb i n turns s (.kernel bs) tot off = .ok ((r, dst), t)) :
    r = n ∧ dst = .kernel (bs ++ table (n - tot) fun k => s.byteAt sb i (off + k)) ∧
      Edited sb s t i (s.inode i).size (s.byteAt sb i) := by
  induction turns generalizing s tot off bs with
  | zero =>
    obtain rfl : tot = n := by omega
    cases hs
    exact ⟨rfl, by simp [table], .refl h i⟩
  | succ turns ih =>
    rw [readLoop] at hs
    split_ifs at hs with hlt
    swap
    · obtain rfl : tot = n := by omega
      cases hs
      exact ⟨rfl, by simp [table], .refl h i⟩
    obtain ⟨⟨c, u⟩, hbmap, hs⟩ := bind_eq_ok.1 hs
    obtain ⟨hbn, hmap⟩ := mapped_of_bmap (b := off + (n - tot)) h hv (by omega) hmax hbmap
    have hmod : off % BSIZE < BSIZE := Nat.mod_lt _ (by decide)
    obtain ⟨m, hm⟩ : ∃ m, m = min (n - tot) (BSIZE - off % BSIZE) := ⟨_, rfl⟩
    have hbytes : Block.bytes (u.block c) (off % BSIZE) m =
        table m fun k => s.byteAt sb i (off + k) := by
      refine table_congr fun k hk => ?_
      rw [byteAt_turn (b := off + (n - tot)) hmap.own (by omega), hmap.edited.bytes]
    have hrest : (table m fun k => s.byteAt sb i (off + k)) ++
        table (n - (tot + m)) (fun k => u.byteAt sb i (off + m + k)) =
          table (n - tot) fun k => s.byteAt sb i (off + k) := by
      have hsum : n - tot = m + (n - (tot + m)) := by omega
      rw [hsum, ← table_append]
      simp only [hmap.edited.bytes, Nat.add_assoc]
    simp only [← hm, hbytes, eitherCopyout] at hs
    rw [if_neg (by decide)] at hs
    obtain ⟨hr, hdst, hedit⟩ := ih hmap.inv (hmap.edited.is_valid hv) (by omega) (by omega)
      (by omega) hs
    rw [List.append_assoc, hrest] at hdst
    refine ⟨hr, hdst, ?_⟩
    rw [← hmap.edited.size]
    exact hmap.edited.trans (hedit.congr hmap.edited.bytes)

end Xv6.Fs
