import Xv6.Fs.Bmap

/-!
# `itrunc`, `iupdate` and `iput`

`itrunc` frees the blocks of an inode, first the direct ones, then those in the indirect block, and
last the indirect block.  The blocks are all different and all in use, so `bfree` never panics.
While it runs, the inode on the disk still names the blocks; `iupdate` at the end sets this right.
-/

namespace Xv6.Fs

open Function Bytes Outcome List

variable {sb : Superblock} {s t u : Fs} {i j b c : ℕ} {p : Place}

/-! ### Freeing many blocks -/

/-- The blocks in `bs` are free, and the block numbers of inode `i` are `addrs`. -/
structure Truncated (sb : Superblock) (s t : Fs) (i : ℕ) (bs : ℕ → Prop)
    (addrs : Fin (NDIRECT + 1) → UInt) : Prop where
  used : ∀ c, t.used sb c = true ↔ s.used sb c = true ∧ ¬ bs c
  block : ∀ d, sb.IsData d → t.block d = s.block d
  dinode : ∀ j, j < sb.ninodes → t.dinode sb j = s.dinode sb j
  inode : t.inode = update s.inode i { s.inode i with addrs := addrs }
  valid : t.valid = s.valid
  ref : t.ref = s.ref
  allocs : t.allocs = s.allocs

namespace Truncated

variable {bs cs : ℕ → Prop} {f g : Fin (NDIRECT + 1) → UInt}

theorem refl (s : Fs) (i : ℕ) : Truncated sb s s i (fun _ => False) (s.inode i).addrs where
  used c := by simp
  block _ _ := rfl
  dinode _ _ := rfl
  inode := (update_eq_self i s.inode).symm
  valid := rfl
  ref := rfl
  allocs := rfl

theorem addrs (h : Truncated sb s t i bs f) : (t.inode i).addrs = f := by
  rw [h.inode, update_self]

theorem trans (h : Truncated sb s t i bs f) (h' : Truncated sb t u i cs g) :
    Truncated sb s u i (fun c => bs c ∨ cs c) g where
  used c := by rw [h'.used, h.used, not_or, and_assoc]
  block d hd := (h'.block d hd).trans (h.block d hd)
  dinode j hj := (h'.dinode j hj).trans (h.dinode j hj)
  inode := by rw [h'.inode, h.inode, update_self, update_idem]
  valid := h'.valid.trans h.valid
  ref := h'.ref.trans h.ref
  allocs := h'.allocs.trans h.allocs

theorem congr (h : Truncated sb s t i bs f) (hbs : ∀ c, bs c ↔ cs c) (hf : f = g) :
    Truncated sb s t i cs g := by
  have : bs = cs := funext fun c => propext (hbs c)
  rw [← this, ← hf]
  exact h

/-- `bfree`. -/
theorem of_freed (h : Freed sb s t b) : Truncated sb s t i (· = b) (s.inode i).addrs where
  used c := by
    rw [h.used, Bool.and_eq_true, decide_eq_true_iff, and_comm]
  block := h.block
  dinode := h.dinode
  inode := by rw [h.inode]; exact (update_eq_self i s.inode).symm
  valid := h.valid
  ref := h.ref
  allocs := h.allocs

/-- `ip->addrs[k] = 0`. -/
theorem of_setAddr (s : Fs) (i : ℕ) (k : Fin (NDIRECT + 1)) :
    Truncated sb s (s.setAddr i k 0) i (fun _ => False) (update (s.inode i).addrs k 0) where
  used c := by rw [not_false_iff, and_true]; rfl
  block _ _ := rfl
  dinode _ _ := rfl
  inode := rfl
  valid := rfl
  ref := rfl
  allocs := rfl

end Truncated

/-- The first loop: the entries of `ks` are different data blocks in use. -/
theorem truncDirect_ok (ks : List (Fin (NDIRECT + 1))) (hnd : ks.Nodup)
    (hdata : ∀ k ∈ ks, (s.inode i).addrs k ≠ 0 →
      sb.IsData ((s.inode i).addrs k).toNat ∧ s.used sb ((s.inode i).addrs k).toNat = true)
    (hinj : ∀ k ∈ ks, ∀ k' ∈ ks, (s.inode i).addrs k ≠ 0 →
      (s.inode i).addrs k = (s.inode i).addrs k' → k = k') :
    ∃ t, s.truncDirect sb i ks = .ok t ∧
      Truncated sb s t i (fun c => ∃ k ∈ ks, (s.inode i).addrs k ≠ 0 ∧
        ((s.inode i).addrs k).toNat = c) fun k => if k ∈ ks then 0 else (s.inode i).addrs k := by
  induction ks generalizing s with
  | nil => exact ⟨s, rfl, (Truncated.refl s i).congr (by simp) (by simp)⟩
  | cons k ks ih =>
    obtain ⟨hk, hnd⟩ := nodup_cons.1 hnd
    by_cases hzero : (s.inode i).addrs k = 0
    · obtain ⟨t, ht, htr⟩ := ih hnd (fun k' hk' => hdata k' (mem_cons_of_mem k hk'))
        fun k1 h1 k2 h2 => hinj k1 (mem_cons_of_mem k h1) k2 (mem_cons_of_mem k h2)
      refine ⟨t, by rw [truncDirect, if_pos hzero, ht], htr.congr (fun c => ?_) ?_⟩
      · simp [hzero]
      · funext k'
        by_cases hk' : k' = k
        · simp [hk', hzero]
        · simp [hk']
    · obtain ⟨hd, hu⟩ := hdata k mem_cons_self hzero
      obtain ⟨t1, ht1, hfreed⟩ := freed_of_bfree hd hu
      have h1 : Truncated sb s (t1.setAddr i k 0) i (fun c => ((s.inode i).addrs k).toNat = c)
          (update (s.inode i).addrs k 0) := by
        refine ((Truncated.of_freed hfreed).trans (Truncated.of_setAddr t1 i k)).congr
          (fun c => ?_) ?_
        · rw [or_false, eq_comm]
        · rw [hfreed.inode]
      have haddrs := h1.addrs
      -- the other entries are as before
      have hsame : ∀ k' ∈ ks, ((t1.setAddr i k 0).inode i).addrs k' = (s.inode i).addrs k' := by
        intro k' hk'
        have hne : k' ≠ k := by
          rintro rfl
          exact hk hk'
        rw [haddrs, update_of_ne hne]
      have hdata' : ∀ k' ∈ ks, ((t1.setAddr i k 0).inode i).addrs k' ≠ 0 →
          sb.IsData (((t1.setAddr i k 0).inode i).addrs k').toNat ∧
            (t1.setAddr i k 0).used sb (((t1.setAddr i k 0).inode i).addrs k').toNat = true := by
        intro k' hk' hne
        rw [hsame k' hk'] at hne ⊢
        obtain ⟨hd', hu'⟩ := hdata k' (mem_cons_of_mem k hk') hne
        refine ⟨hd', (h1.used _).2 ⟨hu', fun heq => hk ?_⟩⟩
        rwa [hinj k' (mem_cons_of_mem k hk') k mem_cons_self hne
          (BitVec.eq_of_toNat_eq heq.symm)] at hk'
      obtain ⟨t, ht, htr⟩ := ih hnd hdata' fun k' hk' k'' hk'' hne heq => by
        rw [hsame k' hk'] at hne heq
        rw [hsame k'' hk''] at heq
        exact hinj k' (mem_cons_of_mem k hk') k'' (mem_cons_of_mem k hk'') hne heq
      refine ⟨t, ?_, (h1.trans htr).congr (fun c => ?_) ?_⟩
      · rw [truncDirect, if_neg hzero, ht1, ok_bind, ht]
      · constructor
        · rintro (hc | ⟨k', hk', hne, hc⟩)
          · exact ⟨k, mem_cons_self, hzero, hc⟩
          · rw [hsame k' hk'] at hne hc
            exact ⟨k', mem_cons_of_mem k hk', hne, hc⟩
        · rintro ⟨k', hk', hne, hc⟩
          rcases mem_cons.1 hk' with rfl | hk'
          · exact .inl hc
          · exact .inr ⟨k', hk', by rwa [hsame k' hk'], by rwa [hsame k' hk']⟩
      · funext k'
        rw [haddrs]
        by_cases hk' : k' = k
        · rw [hk', if_neg hk, update_self, if_pos mem_cons_self]
        · simp only [update_of_ne hk', mem_cons, hk', false_or]

/-- The second loop: the words of block `a` are different data blocks in use. -/
theorem truncIndirect_ok {a : ℕ} (ha : sb.IsData a) (js : List ℕ) (hnd : js.Nodup)
    (hdata : ∀ w ∈ js, word (s.block a) (4 * w) ≠ 0 →
      sb.IsData (word (s.block a) (4 * w)).toNat ∧
        s.used sb (word (s.block a) (4 * w)).toNat = true)
    (hinj : ∀ w ∈ js, ∀ w' ∈ js, word (s.block a) (4 * w) ≠ 0 →
      word (s.block a) (4 * w) = word (s.block a) (4 * w') → w = w') :
    ∃ t, s.truncIndirect sb a js = .ok t ∧
      Truncated sb s t i (fun c => ∃ w ∈ js, word (s.block a) (4 * w) ≠ 0 ∧
        (word (s.block a) (4 * w)).toNat = c) (s.inode i).addrs := by
  induction js generalizing s with
  | nil => exact ⟨s, rfl, (Truncated.refl s i).congr (by simp) rfl⟩
  | cons w js ih =>
    obtain ⟨hw, hnd⟩ := nodup_cons.1 hnd
    by_cases hzero : word (s.block a) (4 * w) = 0
    · obtain ⟨t, ht, htr⟩ := ih hnd (fun w' hw' => hdata w' (mem_cons_of_mem w hw'))
        fun w1 h1 w2 h2 => hinj w1 (mem_cons_of_mem w h1) w2 (mem_cons_of_mem w h2)
      refine ⟨t, by rw [truncIndirect, if_pos hzero, ht], htr.congr (fun c => ?_) rfl⟩
      simp [hzero]
    · obtain ⟨hd, hu⟩ := hdata w mem_cons_self hzero
      obtain ⟨t1, ht1, hfreed⟩ := freed_of_bfree hd hu
      have hblock := hfreed.block a ha
      have hdata' : ∀ w' ∈ js, word (t1.block a) (4 * w') ≠ 0 →
          sb.IsData (word (t1.block a) (4 * w')).toNat ∧
            t1.used sb (word (t1.block a) (4 * w')).toNat = true := by
        intro w' hw' hne
        rw [hblock] at hne ⊢
        obtain ⟨hd', hu'⟩ := hdata w' (mem_cons_of_mem w hw') hne
        refine ⟨hd', ?_⟩
        rw [hfreed.used, hu', Bool.and_true]
        refine decide_eq_true fun heq => hw ?_
        rwa [hinj w' (mem_cons_of_mem w hw') w mem_cons_self hne
          (BitVec.eq_of_toNat_eq heq)] at hw'
      obtain ⟨t, ht, htr⟩ := ih hnd hdata' fun w1 h1 w2 h2 => by
        rw [hblock]
        exact hinj w1 (mem_cons_of_mem w h1) w2 (mem_cons_of_mem w h2)
      refine ⟨t, ?_, ((Truncated.of_freed hfreed).trans htr).congr (fun c => ?_) ?_⟩
      · rw [truncIndirect, if_neg hzero, ht1, ok_bind, ht]
      · rw [hblock]
        constructor
        · rintro (rfl | ⟨w', hw', hne, hc⟩)
          · exact ⟨w, mem_cons_self, hzero, rfl⟩
          · exact ⟨w', mem_cons_of_mem w hw', hne, hc⟩
        · rintro ⟨w', hw', hne, hc⟩
          rcases mem_cons.1 hw' with rfl | hw'
          · exact .inl hc.symm
          · exact .inr ⟨w', hw', hne, hc⟩
      · rw [hfreed.inode]

/-- The entries that the first loop of `itrunc` goes through. -/
theorem mem_directs (k : Fin (NDIRECT + 1)) :
    k ∈ (finRange NDIRECT).map Fin.castSucc ↔ k ≠ Fin.last NDIRECT := by
  rw [mem_map]
  constructor
  · rintro ⟨k', -, rfl⟩
    exact (Fin.castSucc_lt_last k').ne
  · intro hk
    exact ⟨k.castPred hk, mem_finRange _, Fin.castSucc_castPred k hk⟩

namespace Inv

theorem truncDirect (h : s.Inv sb) (hv : s.valid i = true) :
    ∃ t, s.truncDirect sb i ((finRange NDIRECT).map Fin.castSucc) = .ok t ∧
      Truncated sb s t i (fun c => ∃ k, k ≠ Fin.last NDIRECT ∧ s.own sb (i, .direct k) = some c)
        fun k => if k = Fin.last NDIRECT then (s.inode i).addrs k else 0 := by
  have hown : ∀ k, (s.inode i).addrs k ≠ 0 →
      s.own sb (i, .direct k) = some ((s.inode i).addrs k).toNat := fun k hk => own_of_addrs h hv hk
  obtain ⟨t, ht, htr⟩ := truncDirect_ok (s := s) (i := i) _
    ((nodup_finRange NDIRECT).map (Fin.castSucc_injective NDIRECT))
    (fun k _ hk => h.sound.good _ _ (hown k hk)) fun k _ k' _ hk heq => by
      have := h.sound.exclusive _ _ _ (hown k hk) (by rw [heq]; exact hown k' (heq ▸ hk))
      simpa using this
  refine ⟨t, ht, htr.congr (fun c => ?_) ?_⟩
  · constructor
    · rintro ⟨k, hk, hne, rfl⟩
      exact ⟨k, (mem_directs k).1 hk, hown k hne⟩
    · rintro ⟨k, hk, hc⟩
      obtain ⟨-, -, hne, hc⟩ := own_eq_some.1 hc
      rw [cur_of_valid hv] at hne hc
      exact ⟨k, (mem_directs k).2 hk, hne, hc⟩
  · funext k
    simp only [mem_directs, ne_eq, ite_not]

/-- Freeing the blocks of other places does not free block `b`. -/
theorem used_truncated (h : s.Inv sb) {bs : ℕ → Prop} {f : Fin (NDIRECT + 1) → UInt}
    (htr : Truncated sb s t i bs f) (hb : s.own sb (i, p) = some b)
    (hbs : ∀ c, bs c → ∃ p', p' ≠ p ∧ s.own sb (i, p') = some c) : t.used sb b = true := by
  refine (htr.used b).2 ⟨(h.sound.good _ b hb).2, fun hin => ?_⟩
  obtain ⟨p', hne, hp'⟩ := hbs b hin
  exact hne (Prod.mk.inj (h.sound.exclusive _ _ _ hp' hb)).2

theorem truncIndirect (h : s.Inv sb) {a : ℕ} (ha : s.own sb (i, .ind) = some a)
    {bs : ℕ → Prop} {f : Fin (NDIRECT + 1) → UInt} (htr : Truncated sb s t i bs f)
    (hbs : ∀ c, bs c → ∃ k, s.own sb (i, .direct k) = some c) :
    ∃ u, t.truncIndirect sb a (range NINDIRECT) = .ok u ∧
      Truncated sb t u i (fun c => ∃ w, s.own sb (i, .indirect w) = some c) f := by
  have hadata := (h.sound.good _ _ ha).1
  have hblock : t.block a = s.block a := htr.block a hadata
  have hword : ∀ w (hw : w < NINDIRECT), word (s.block a) (4 * w) ≠ 0 →
      s.own sb (i, .indirect ⟨w, hw⟩) = some (word (s.block a) (4 * w)).toNat := by
    intro w hw hne
    have := own_of_word (w := ⟨w, hw⟩) ha
    rwa [if_neg hne] at this
  obtain ⟨u, hu, hur⟩ := truncIndirect_ok (i := i) (s := t) hadata (range NINDIRECT)
    nodup_range (fun w hw hne => by
      rw [hblock] at hne ⊢
      have hown := hword w (mem_range.1 hw) hne
      refine ⟨(h.sound.good _ _ hown).1, h.used_truncated htr hown fun c hc => ?_⟩
      obtain ⟨k, hk⟩ := hbs c hc
      exact ⟨.direct k, by simp, hk⟩)
    fun w hw w' hw' hne heq => by
      rw [hblock] at hne heq
      have := h.sound.exclusive _ _ _ (hword w (mem_range.1 hw) hne)
        (by rw [heq]; exact hword w' (mem_range.1 hw') (heq ▸ hne))
      simpa using this
  refine ⟨u, hu, hur.congr (fun c => ?_) htr.addrs⟩
  rw [hblock]
  constructor
  · rintro ⟨w, hw, hne, rfl⟩
    exact ⟨_, hword w (mem_range.1 hw) hne⟩
  · rintro ⟨w, hc⟩
    rw [own_of_word ha] at hc
    split_ifs at hc with hne
    exact ⟨w, mem_range.2 w.isLt, hne, Option.some.inj hc⟩

/-- All of `itrunc` up to `iupdate`: the blocks of the inode are free, and its entries are 0. -/
theorem itrunc_ok (h : s.Inv sb) (hv : s.valid i = true) :
    ∃ t, s.itrunc sb i = .ok ((t.setInode i { t.inode i with size := 0 }).iupdate sb i) ∧
      Truncated sb s t i (fun c => ∃ p, s.own sb (i, p) = some c) fun _ => 0 := by
  obtain ⟨t1, ht1, h1⟩ := h.truncDirect hv
  have hlast : (t1.inode i).addrs (Fin.last NDIRECT) = (s.inode i).addrs (Fin.last NDIRECT) := by
    rw [h1.addrs]
    exact if_pos rfl
  rw [itrunc, ht1, ok_bind]
  by_cases ha : (s.inode i).addrs (Fin.last NDIRECT) = 0
  · refine ⟨t1, by simp only [hlast, if_pos ha]; rfl, h1.congr (fun c => ?_) ?_⟩
    · constructor
      · rintro ⟨k, -, hk⟩
        exact ⟨.direct k, hk⟩
      · rintro ⟨p, hp⟩
        obtain ⟨-, -, hne, -⟩ := own_eq_some.1 hp
        rw [cur_of_valid hv] at hne
        cases p with
        | direct k =>
          refine ⟨k, ?_, hp⟩
          rintro rfl
          exact hne ha
        | indirect w => exact absurd (if_pos ha) hne
    · funext k
      split_ifs with hk
      · rw [hk, ha]
      · rfl
  · have hind := h.own_ind hv ha
    set a := ((s.inode i).addrs (Fin.last NDIRECT)).toNat with hadef
    obtain ⟨t2, ht2, h2⟩ := h.truncIndirect hind h1 fun c ⟨k, _, hk⟩ => ⟨k, hk⟩
    have h₁₂ := h1.trans h2
    have hused : t2.used sb a = true := by
      refine h.used_truncated h₁₂ hind ?_
      rintro c (⟨k, hk, hc⟩ | ⟨w, hc⟩)
      · exact ⟨.direct k, by simpa using hk, hc⟩
      · exact ⟨.indirect w, by simp, hc⟩
    obtain ⟨t3, ht3, hfreed⟩ := freed_of_bfree (h.sound.good _ _ hind).1 hused
    refine ⟨t3.setAddr i (Fin.last NDIRECT) 0, ?_,
      (h₁₂.trans ((Truncated.of_freed hfreed).trans
        (Truncated.of_setAddr t3 i (Fin.last NDIRECT)))).congr (fun c => ?_) ?_⟩
    · simp only [hlast, if_neg ha]
      rw [← hadef, ht2, ok_bind, ht3]
      rfl
    · constructor
      · rintro ((⟨k, -, hk⟩ | ⟨w, hw⟩) | rfl | hfalse)
        · exact ⟨.direct k, hk⟩
        · exact ⟨.indirect w, hw⟩
        · exact ⟨.ind, hind⟩
        · exact hfalse.elim
      · rintro ⟨p, hp⟩
        cases p with
        | direct k =>
          by_cases hk : k = Fin.last NDIRECT
          · subst hk
            exact .inr (.inl (Option.some.inj (hp.symm.trans hind)))
          · exact .inl (.inl ⟨k, hk, hp⟩)
        | indirect w => exact .inl (.inr ⟨w, hp⟩)
    · rw [hfreed.inode, h2.addrs]
      funext k
      by_cases hk : k = Fin.last NDIRECT
      · rw [hk, update_self]
      · rw [update_of_ne hk, if_neg hk]

end Inv

/-! ### `iupdate` and `itrunc` -/

theorem used_iupdate (hi : i < sb.ninodes) (c : ℕ) : (s.iupdate sb i).used sb c = s.used sb c :=
  used_setBlock_of_ne (sb.iblock_ne_bblock hi).symm

theorem block_iupdate (hi : i < sb.ninodes) {d : ℕ} (hd : sb.IsData d) :
    (s.iupdate sb i).block d = s.block d :=
  setBlock_of_ne (hd.ne_iblock hi)

theorem cur_iupdate (hv : s.valid i = true) (j : ℕ) : (s.iupdate sb i).cur sb j = s.cur sb j := by
  by_cases hj : j = i
  · subst hj
    rw [cur_of_valid (s := s.iupdate sb j) hv, cur_of_valid hv]
    rfl
  · exact cur_congr rfl rfl (dinode_iupdate_of_ne hj)

namespace Inv

section

variable (h : s.Inv sb) (hv : s.valid i = true)

include h hv

theorem own_iupdate : (s.iupdate sb i).own sb = s.own sb := by
  have hi := (h.cached i hv).1
  funext ⟨j, p⟩
  exact own_congr (fun _ => cur_iupdate hv j) fun c hc =>
    block_iupdate hi (h.sound.good _ c hc).1

theorem content_iupdate (q : ℕ × Place) : (s.iupdate sb i).content sb q = s.content sb q := by
  have hi := (h.cached i hv).1
  exact content_congr (by rw [h.own_iupdate hv]) fun c hc =>
    block_iupdate hi (h.sound.good q c hc).1

theorem iupdate : (s.iupdate sb i).Inv sb := by
  have hi := (h.cached i hv).1
  refine
    { marked := fun c hc => by rw [used_iupdate hi]; exact h.marked c hc
      sound := ?_
      cached := fun j hj => ?_
      refs := h.refs
      fresh := h.fresh }
  · rw [h.own_iupdate hv]
    refine h.sound.mono (fun _ _ hq => hq) fun q c _ hc => ⟨hc.1, ?_⟩
    rw [used_iupdate hi]
    exact hc.2
  · obtain ⟨hlt, hne, htype, haddrs⟩ := h.cached j hj
    by_cases hji : j = i
    · subst hji
      rw [dinode_iupdate_self]
      exact ⟨hlt, hne, rfl, fun k => .inl rfl⟩
    · rw [dinode_iupdate_of_ne hji]
      exact ⟨hlt, hne, htype, haddrs⟩

theorem setSize (n : UInt) : (s.setInode i { s.inode i with size := n }).Inv sb ∧
      (s.setInode i { s.inode i with size := n }).own sb = s.own sb := by
  have hown : (s.setInode i { s.inode i with size := n }).own sb = s.own sb := by
    funext ⟨j, p⟩
    by_cases hj : j = i
    · subst hj
      refine own_eq_of_addr ?_ ?_
      · rw [cur_of_valid (s := s.setInode j { s.inode j with size := n }) hv, cur_of_valid hv]
        simp [setInode]
      · rw [cur_of_valid (s := s.setInode j { s.inode j with size := n }) hv, cur_of_valid hv]
        simp only [setInode, update_self]
        cases p <;> rfl
    · refine own_congr (fun _ => cur_congr rfl ?_ rfl) fun _ _ => rfl
      simp [setInode, update_of_ne hj]
  refine ⟨h.of_same (fun _ _ => rfl) (fun _ _ => rfl) rfl rfl rfl ?_ fun j hj => ?_, hown⟩
  · rw [hown]
    exact h.sound
  · obtain ⟨-, -, -, haddrs⟩ := h.cached j hj
    by_cases hji : j = i
    · subst hji
      simpa [setInode] using haddrs
    · simpa [setInode, update_of_ne hji] using haddrs

end

end Inv

/-- Inode `i` is empty, and the others are as before. -/
structure Emptied (sb : Superblock) (s s' : Fs) (i : ℕ) : Prop where
  inv : s'.Inv sb
  own_self : ∀ p, s'.own sb (i, p) = none
  own : ∀ q : ℕ × Place, q.1 ≠ i → s'.own sb q = s.own sb q
  content : ∀ q : ℕ × Place, q.1 ≠ i → s'.content sb q = s.content sb q
  inode : s'.inode = update s.inode i { s.inode i with size := 0, addrs := fun _ => 0 }
  valid : s'.valid = s.valid
  ref : s'.ref = s.ref
  dinode : ∀ j, j < sb.ninodes → j ≠ i → s'.dinode sb j = s.dinode sb j

/-- **`itrunc`** frees the blocks of the inode. -/
theorem Inv.itrunc (h : s.Inv sb) (hv : s.valid i = true) :
    ∃ s', s.itrunc sb i = .ok s' ∧ Emptied sb s s' i := by
  obtain ⟨t, ht, htr⟩ := h.itrunc_ok hv
  obtain ⟨hi, htype, -⟩ := h.cached i hv
  refine ⟨_, ht, ?_⟩
  set ip : Inode := { s.inode i with size := 0, addrs := fun _ => 0 } with hip
  have hinode : (t.setInode i { t.inode i with size := 0 }).inode =
      update s.inode i ip := by
    simp only [setInode, htr.inode, update_self, update_idem, hip]
  set s' := (t.setInode i { t.inode i with size := 0 }).iupdate sb i with hs'
  have hinode' : s'.inode = update s.inode i ip := hinode
  have hvalid : s'.valid = s.valid := htr.valid
  have hused : ∀ c, s'.used sb c = true ↔
      s.used sb c = true ∧ ¬ ∃ p, s.own sb (i, p) = some c := by
    intro c
    rw [hs', used_iupdate hi]
    exact htr.used c
  have hblock : ∀ d, sb.IsData d → s'.block d = s.block d := fun d hd =>
    (block_iupdate hi hd).trans (htr.block d hd)
  have hdinode : ∀ j, j < sb.ninodes → j ≠ i → s'.dinode sb j = s.dinode sb j := fun j hj hji =>
    (dinode_iupdate_of_ne hji).trans (htr.dinode j hj)
  have hdself : s'.dinode sb i = ip := by
    rw [hs', dinode_iupdate_self, hinode, update_self]
  have hcur : s'.cur sb i = ip := by
    rw [cur_of_valid (by rw [hvalid]; exact hv), hinode', update_self]
  have hnone : ∀ p, s'.own sb (i, p) = none := by
    intro p
    refine if_neg fun hq => hq.2.2 ?_
    rw [hcur]
    cases p with
    | direct k => rfl
    | indirect w => simp [addr, hip]
  have hown : ∀ q : ℕ × Place, q.1 ≠ i → s'.own sb q = s.own sb q := by
    rintro ⟨j, p⟩ hj
    refine own_congr (fun hlt => cur_congr (by rw [hvalid]) ?_ (hdinode j hlt hj)) fun c hc =>
      hblock c (h.sound.good _ c hc).1
    rw [hinode', update_of_ne hj]
  have hle : ∀ q c, s'.own sb q = some c → q.1 ≠ i ∧ s.own sb q = some c := by
    rintro ⟨j, p⟩ c hc
    by_cases hj : j = i
    · subst hj
      rw [hnone] at hc
      cases hc
    · exact ⟨hj, by rw [← hown (j, p) hj]; exact hc⟩
  refine
    { inv :=
        { marked := fun c hc => (hused c).2 ⟨h.marked c hc, ?_⟩
          sound := h.sound.mono (fun q c hc => (hle q c hc).2) fun q c hc hgood =>
            ⟨hgood.1, (hused c).2 ⟨hgood.2, ?_⟩⟩
          cached := fun j hj => ?_
          refs := fun j hj => h.refs j (by rwa [← htr.ref])
          fresh := fun e he => h.fresh e (by rwa [← htr.allocs]) }
      own_self := hnone
      own := hown
      content := fun q hq => content_congr (hown q hq) fun c hc => hblock c (h.sound.good q c hc).1
      inode := hinode'
      valid := hvalid
      ref := htr.ref
      dinode := hdinode }
  · rintro ⟨p, hp⟩
    have := (h.sound.good _ c hp).1.1
    omega
  · -- nobody else owns a block of inode `i`
    rintro ⟨p, hp⟩
    obtain ⟨hne, hq⟩ := hle q c hc
    exact hne (by rw [h.sound.exclusive _ _ _ hq hp])
  · rw [hvalid] at hj
    obtain ⟨hlt, hne, htype', haddrs⟩ := h.cached j hj
    by_cases hji : j = i
    · subst hji
      rw [hdself, hinode', update_self]
      exact ⟨hlt, hne, rfl, fun k => .inl rfl⟩
    · rw [hdinode j hlt hji, hinode', update_of_ne hji]
      exact ⟨hlt, hne, htype', haddrs⟩

end Xv6.Fs
