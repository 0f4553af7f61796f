import Xv6.Sysfile.Model

/-!
# What a call holds while it works

`Work s held lk` describes a state within a call that holds references to the inodes `held` and the
locks of the inodes `lk`: reference counts are those of the working directories, of the open files
and of the call, and an inode without links is in use and will be freed by the last `iput`.  There
is one lemma for each function that a call uses.
-/

namespace Xv6.Sysfile

open Function Outcome List

variable {ninodes : ℕ} {s s' t : Sysfile} {i j dp ip : ℕ} {held lk : List ℕ} {n : Name}

/-! ### Who uses an inode -/

/-- The file is open on inode `i`. -/
def OnInode (x : Ftable.File) (i : ℕ) : Prop := (x.type = .inode ∨ x.type = .device) ∧ x.ip = i

instance (x : Ftable.File) (i : ℕ) : Decidable (OnInode x i) := by
  unfold OnInode
  infer_instance

/-- Working directories and open files on inode `i`. -/
def users (s : Sysfile) (i : ℕ) : ℕ :=
  (Finset.univ.filter fun p => s.files.Alive p ∧ s.cwd p = i).card +
    (Finset.univ.filter fun f => OnInode (s.files.file f) i).card

/-- The state apart from the inodes is as it was. -/
structure Frame (s s' : Sysfile) : Prop where
  ops : s'.ops = s.ops
  cwd : s'.cwd = s.cwd
  files : s'.files = s.files

theorem Frame.refl (s : Sysfile) : Frame s s := ⟨rfl, rfl, rfl⟩

theorem Frame.trans (h : Frame s s') (h' : Frame s' t) : Frame s t :=
  ⟨h'.ops.trans h.ops, h'.cwd.trans h.cwd, h'.files.trans h.files⟩

theorem Frame.users (h : Frame s s') (i : ℕ) : s'.users i = s.users i := by
  unfold Sysfile.users
  rw [h.cwd, h.files]

/-- The call has changed nothing but which inodes are in memory. -/
structure Unchanged (s s' : Sysfile) : Prop where
  node : s'.node = s.node
  frame : Frame s s'

theorem Unchanged.trans (h : Unchanged s s') (h' : Unchanged s' t) : Unchanged s t :=
  ⟨h'.node.trans h.node, h.frame.trans h'.frame⟩

structure Work (s : Sysfile) (held lk : List ℕ) : Prop where
  refs : ∀ i, s.ref i = s.users i + held.count i
  locked : ∀ i, s.locked i = true ↔ i ∈ lk
  sub : ∀ i ∈ lk, i ∈ held
  loaded : ∀ i ∈ lk, s.valid i = true
  /-- An inode without links is in use, and `iput` will see that it has no links. -/
  linked : ∀ i, (s.node i).type ≠ .free → (s.node i).nlink = 0 → 0 < s.ref i ∧ s.valid i = true
  typed : ∀ i, 0 < s.ref i → s.valid i = true → (s.node i).type ≠ .free

namespace Work

section

variable (h : Work s held lk)

include h

theorem perm {held' : List ℕ} (hp : held.Perm held') : Work s held' lk :=
  { h with
    refs := fun i => by rw [h.refs, hp.count_eq]
    sub := fun i hi => hp.mem_iff.1 (h.sub i hi) }

theorem permLocks {lk' : List ℕ} (hp : lk.Perm lk') : Work s held lk' :=
  { h with
    locked := fun i => (h.locked i).trans hp.mem_iff
    sub := fun i hi => h.sub i (hp.mem_iff.2 hi)
    loaded := fun i hi => h.loaded i (hp.mem_iff.2 hi) }

theorem ref_pos (hi : i ∈ held) : 0 < s.ref i := by
  rw [h.refs]
  have := count_pos_iff.2 hi
  omega

theorem type_of_locked (hi : i ∈ lk) : (s.node i).type ≠ .free :=
  h.typed i (h.ref_pos (h.sub i hi)) (h.loaded i hi)

theorem addRef (hu : Unchanged s s')
    (hlocked : s'.locked = s.locked) (href : s'.ref = update s.ref i (s.ref i + 1))
    (hvalid : 0 < s.ref i ∧ s'.valid = s.valid ∨
      s.ref i = 0 ∧ s'.valid = update s.valid i false) : Work s' (i :: held) lk := by
  have hself : s'.ref i = s.ref i + 1 := by rw [href, update_self]
  have hother : ∀ j, j ≠ i → s'.ref j = s.ref j ∧ s'.valid j = s.valid j := by
    intro j hj
    refine ⟨by rw [href, update_of_ne hj], ?_⟩
    rcases hvalid with ⟨-, hv⟩ | ⟨-, hv⟩
    · rw [hv]
    · rw [hv, update_of_ne hj]
  -- an inode that was in use has not been reset
  have hkept : ∀ j, 0 < s.ref j → s'.valid j = s.valid j := by
    intro j hj
    by_cases hji : j = i
    · subst hji
      rcases hvalid with ⟨-, hv⟩ | ⟨hz, -⟩
      · rw [hv]
      · omega
    · exact (hother j hji).2
  refine ⟨fun j => ?_, by rw [hlocked]; exact h.locked, fun j hj => mem_cons_of_mem i (h.sub j hj),
    fun j hj => ?_, fun j ht hl => ?_, fun j hr hv => ?_⟩
  · rw [hu.frame.users]
    by_cases hj : j = i
    · subst hj
      rw [hself, h.refs, count_cons_self]
      omega
    · rw [(hother j hj).1, h.refs, count_cons_of_ne (Ne.symm hj)]
  · rw [hkept j (h.ref_pos (h.sub j hj))]
    exact h.loaded j hj
  · rw [hu.node] at ht hl
    obtain ⟨hr, hv⟩ := h.linked j ht hl
    refine ⟨?_, (hkept j hr).trans hv⟩
    by_cases hj : j = i
    · subst hj
      omega
    · rwa [(hother j hj).1]
  · rw [hu.node]
    by_cases hj : j = i
    · subst hj
      rcases hvalid with ⟨hpos, hv'⟩ | ⟨-, hv'⟩
      · exact h.typed j hpos (hv' ▸ hv)
      · rw [hv', update_self] at hv
        cases hv
    · rw [(hother j hj).1] at hr
      rw [(hother j hj).2] at hv
      exact h.typed j hr hv

end

end Work

/-! ### References and locks -/

theorem Work.iget (h : Work s held lk) (hs : s.iget ninodes i = .ok s') :
    Work s' (i :: held) lk ∧ Unchanged s s' := by
  unfold Sysfile.iget at hs
  split_ifs at hs with hpos hroom
  · cases hs
    have hu : Unchanged s (s.setRef i (s.ref i + 1)) := ⟨rfl, rfl, rfl, rfl⟩
    exact ⟨h.addRef hu rfl rfl (.inl ⟨hpos, rfl⟩), hu⟩
  · cases hs
    have hz : s.ref i = 0 := by omega
    have hu : Unchanged s { s.setRef i 1 with valid := update s.valid i false } :=
      ⟨rfl, rfl, rfl, rfl⟩
    refine ⟨h.addRef hu rfl ?_ (.inr ⟨hz, rfl⟩), hu⟩
    rw [hz]
    rfl

variable {p : ProcId}

theorem users_pos_of_cwd (hp : s.files.Alive p) : 0 < s.users (s.cwd p) := by
  have : 0 < (Finset.univ.filter fun q => s.files.Alive q ∧ s.cwd q = s.cwd p).card :=
    Finset.card_pos.2 ⟨p, Finset.mem_filter.2 ⟨Finset.mem_univ p, hp, rfl⟩⟩
  unfold users
  omega

theorem Work.idup (h : Work s held lk) (hp : s.files.Alive p) :
    Work (s.idup (s.cwd p)) (s.cwd p :: held) lk := by
  refine h.addRef ⟨rfl, rfl, rfl, rfl⟩ rfl rfl (.inl ⟨?_, rfl⟩)
  rw [h.refs]
  have := users_pos_of_cwd hp
  omega

theorem Work.ilock (h : Work s held lk) (hi : i ∈ held) (hs : s.ilock i = .ok s') :
    Work s' held (i :: lk) ∧ i ∉ lk ∧ Unchanged s s' := by
  unfold Sysfile.ilock at hs
  split_ifs at hs with href hlock hfree
  cases hs
  have hnot : i ∉ lk := fun hmem => hlock ((h.locked i).2 hmem)
  have htype : (s.node i).type ≠ .free := by
    intro ht
    by_cases hv : s.valid i = true
    · exact h.typed i (h.ref_pos hi) hv ht
    · exact hfree ⟨hv, ht⟩
  have hvalid : ∀ j, update s.valid i true j = true ↔ j = i ∨ s.valid j = true := by
    intro j
    by_cases hj : j = i
    · subst hj
      simp
    · simp [hj]
  refine ⟨⟨h.refs, fun j => ?_, fun j hj => ?_, fun j hj => ?_, fun j ht hl => ?_,
    fun j hr hv => ?_⟩,
    hnot, rfl, rfl, rfl, rfl⟩
  · show update s.locked i true j = true ↔ _
    by_cases hj : j = i
    · subst hj
      simp
    · rw [update_of_ne hj, mem_cons, h.locked]
      simp [hj]
  · rcases mem_cons.1 hj with rfl | hj
    · exact hi
    · exact h.sub j hj
  · rcases mem_cons.1 hj with rfl | hj
    · exact (hvalid j).2 (.inl rfl)
    · exact (hvalid j).2 (.inr (h.loaded j hj))
  · obtain ⟨hr, hv⟩ := h.linked j ht hl
    exact ⟨hr, (hvalid j).2 (.inr hv)⟩
  · rcases (hvalid j).1 hv with rfl | hv
    · exact htype
    · exact h.typed j hr hv

theorem Work.iunlock (h : Work s held (i :: lk)) (hnot : i ∉ lk) (hs : s.iunlock i = .ok s') :
    Work s' held lk ∧ Unchanged s s' := by
  unfold Sysfile.iunlock at hs
  split_ifs at hs with hbad
  cases hs
  refine ⟨⟨h.refs, fun j => ?_, fun j hj => h.sub j (mem_cons_of_mem i hj),
    fun j hj => h.loaded j (mem_cons_of_mem i hj), h.linked, h.typed⟩, rfl, rfl, rfl, rfl⟩
  show update s.locked i false j = true ↔ _
  by_cases hj : j = i
  · subst hj
    simp [hnot]
  · rw [update_of_ne hj, h.locked, mem_cons]
    simp [hj]

/-- An inode whose last reference is given up and that has no links is freed. -/
def freed (x : Node) : Node := { x with type := .free, slots := [], bytes := [] }

theorem Work.iput (h : Work s (i :: held) lk) (hlk : i ∈ lk → i ∈ held) (hs : s.iput i = .ok s') :
    Work s' held lk ∧ Frame s s' ∧
      (s'.node = s.node ∨ s.users i = 0 ∧ i ∉ held ∧ (s.node i).type ≠ .free ∧
        (s.node i).nlink = 0 ∧ s'.node = update s.node i (freed (s.node i))) := by
  have hrefs := h.refs i
  rw [count_cons_self] at hrefs
  have hcount : ∀ j, update s.ref i (s.ref i - 1) j = s.users j + held.count j := by
    intro j
    by_cases hj : j = i
    · subst hj
      rw [update_self]
      omega
    · rw [update_of_ne hj, h.refs, count_cons_of_ne (Ne.symm hj)]
  have hsub : ∀ j ∈ lk, j ∈ held := by
    intro j hj
    rcases mem_cons.1 (h.sub j hj) with rfl | hmem
    · exact hlk hj
    · exact hmem
  unfold Sysfile.iput at hs
  split_ifs at hs with hlast hlock
  · cases hs
    obtain ⟨hone, hval, hlink⟩ := hlast
    have hnot : i ∉ held := fun hmem => by
      have := count_pos_iff.2 hmem
      omega
    have htype := h.typed i (by omega) hval
    refine ⟨⟨hcount, h.locked, hsub, fun j hj => ?_, fun j ht hl => ?_, fun j hr hv => ?_⟩,
      ⟨rfl, rfl, rfl⟩, .inr ⟨by omega, hnot, htype, hlink, rfl⟩⟩
    · show update s.valid i false j = true
      have hji : j ≠ i := by
        rintro rfl
        exact hlock ((h.locked j).2 hj)
      rw [update_of_ne hji]
      exact h.loaded j hj
    · have hji : j ≠ i := by
        rintro rfl
        simp [setNode] at ht
      simp only [setNode, update_of_ne hji] at ht hl ⊢
      exact h.linked j ht hl
    · have hji : j ≠ i := by
        rintro rfl
        simp at hv
      simp only [setNode, update_of_ne hji] at hr hv ⊢
      exact h.typed j hr hv
  · cases hs
    refine ⟨⟨hcount, h.locked, hsub, h.loaded, fun j ht hl => ?_, fun j hr hv => ?_⟩,
      ⟨rfl, rfl, rfl⟩, .inl rfl⟩
    · obtain ⟨hr, hv⟩ := h.linked j ht hl
      refine ⟨?_, hv⟩
      show 0 < update s.ref i (s.ref i - 1) j
      by_cases hj : j = i
      · -- otherwise the inode would have been freed
        subst hj
        rw [update_self]
        by_contra hz
        exact hlast ⟨by omega, hv, hl⟩
      · rwa [update_of_ne hj]
    · refine h.typed j ?_ hv
      have hr' : 0 < update s.ref i (s.ref i - 1) j := hr
      by_cases hj : j = i
      · subst hj
        omega
      · rwa [update_of_ne hj] at hr'

theorem Work.iunlockput (h : Work s (i :: held) (i :: lk)) (hnot : i ∉ lk)
    (hs : s.iunlockput i = .ok s') :
    Work s' held lk ∧ Frame s s' ∧
      (s'.node = s.node ∨ s.users i = 0 ∧ i ∉ held ∧ (s.node i).type ≠ .free ∧
        (s.node i).nlink = 0 ∧ s'.node = update s.node i (freed (s.node i))) := by
  obtain ⟨t, ht, hs⟩ := bind_eq_ok.1 hs
  obtain ⟨h1, hu⟩ := h.iunlock hnot ht
  obtain ⟨h2, hframe, hcase⟩ := h1.iput (fun hi => absurd hi hnot) hs
  rw [hu.node, hu.frame.users] at hcase
  exact ⟨h2, hu.frame.trans hframe, hcase⟩

/-- An inode without links is in use, also without a reference that is given up. -/
def Anchored (s : Sysfile) (held : List ℕ) : Prop :=
  ∀ i, (s.node i).type ≠ .free → (s.node i).nlink = 0 → 0 < s.users i ∨ i ∈ held

theorem Work.anchored (h : Work s held lk) : Anchored s held := by
  intro i ht hl
  have hr := (h.linked i ht hl).1
  rw [h.refs] at hr
  by_cases hi : i ∈ held
  · exact .inr hi
  · rw [count_eq_zero_of_not_mem hi] at hr
    exact .inl hr

theorem Anchored.congr (h : Anchored s held) (hu : Unchanged s s') : Anchored s' held := by
  intro i ht hl
  rw [hu.frame.users]
  rw [hu.node] at ht hl
  exact h i ht hl

/-- An inode that somebody else uses, or that has links, is not freed. -/
theorem Anchored.not_freed (h : Anchored s held) {P : Prop}
    (hcase : P ∨ s.users i = 0 ∧ i ∉ held ∧ (s.node i).type ≠ .free ∧ (s.node i).nlink = 0 ∧
      s'.node = update s.node i (freed (s.node i))) : P := by
  refine hcase.resolve_right fun ⟨hu, hmem, ht, hl, _⟩ => ?_
  rcases h i ht hl with hpos | hin
  · omega
  · exact hmem hin

theorem Work.iput_kept (h : Work s (i :: held) lk) (ha : Anchored s held) (hlk : i ∈ lk → i ∈ held)
    (hs : s.iput i = .ok s') : Work s' held lk ∧ Unchanged s s' := by
  obtain ⟨h', hframe, hcase⟩ := h.iput hlk hs
  exact ⟨h', ha.not_freed hcase, hframe⟩

theorem Work.iunlockput_kept (h : Work s (i :: held) (i :: lk)) (ha : Anchored s held)
    (hnot : i ∉ lk)
    (hs : s.iunlockput i = .ok s') : Work s' held lk ∧ Unchanged s s' := by
  obtain ⟨h', hframe, hcase⟩ := h.iunlockput hnot hs
  exact ⟨h', ha.not_freed hcase, hframe⟩

theorem Work.setNode (h : Work s held lk) (hi : i ∈ lk) {x : Node} (hx : x.type ≠ .free) :
    Work (s.setNode i x) held lk := by
  refine ⟨h.refs, h.locked, h.sub, h.loaded, fun j ht hl => ?_, fun j hr hv => ?_⟩
  · by_cases hj : j = i
    · subst hj
      exact ⟨h.ref_pos (h.sub j hi), h.loaded j hi⟩
    · simp only [Sysfile.setNode, update_of_ne hj] at ht hl
      exact h.linked j ht hl
  · by_cases hj : j = i
    · subst hj
      simpa [Sysfile.setNode] using hx
    · simp only [Sysfile.setNode, update_of_ne hj]
      exact h.typed j hr hv

theorem Work.beginOp (h : Work s held lk) : Work s.beginOp held lk :=
  ⟨h.refs, h.locked, h.sub, h.loaded, h.linked, h.typed⟩

theorem Work.endOp (h : Work s held lk) : Work s.endOp held lk :=
  ⟨h.refs, h.locked, h.sub, h.loaded, h.linked, h.typed⟩

/-! ### Directories and paths -/

/-- What `dirlookup` returns. -/
theorem Work.dirlookup (h : Work s held lk) {r : Option (ℕ × ℕ)}
    (hs : s.dirlookup ninodes dp n = .ok (r, s')) :
    (s.node dp).type = .dir ∧ Unchanged s s' ∧
      (r = none ∧ (s.node dp).slots.index n = none ∧ s' = s ∨
        ∃ i k, r = some (i, k) ∧ (s.node dp).slots.index n = some k ∧
          i = ((s.node dp).slots.getD k .zero).inum ∧ Work s' (i :: held) lk) := by
  unfold Sysfile.dirlookup at hs
  split_ifs at hs with htype
  refine ⟨not_not.1 htype, ?_⟩
  split at hs
  next hnone =>
    cases hs
    exact ⟨⟨rfl, .refl s⟩, .inl ⟨rfl, hnone, rfl⟩⟩
  next k hk =>
    obtain ⟨t, ht, hs⟩ := bind_eq_ok.1 hs
    cases hs
    obtain ⟨h', hu⟩ := h.iget ht
    exact ⟨hu, .inr ⟨_, k, rfl, hk, rfl, h'⟩⟩

variable {r : Option (ℕ × Name)}

/-- The loop of `namex` trades a reference for the one that it returns. -/
theorem Work.namexLoop {parent : Bool} {ns : List Name} (h : Work s (ip :: held) lk)
    (ha : Anchored s held) (hlk : ∀ i ∈ lk, i ∈ held)
    (hs : namexLoop ninodes parent ns ip s = .ok (r, s')) :
    Unchanged s s' ∧
      (r = none ∧ Work s' held lk ∨
        ∃ i n, r = some (i, n) ∧ Work s' (i :: held) lk ∧
          (parent = true → (s.node i).type = .dir)) := by
  induction ns generalizing s ip with
  | nil =>
    unfold Sysfile.namexLoop at hs
    split_ifs at hs with hparent
    · obtain ⟨t, ht, hs⟩ := bind_eq_ok.1 hs
      cases hs
      obtain ⟨h', hu⟩ := h.iput_kept ha (hlk ip) ht
      exact ⟨hu, .inl ⟨rfl, h'⟩⟩
    · cases hs
      exact ⟨⟨rfl, .refl _⟩, .inr ⟨ip, _, rfl, h, fun hp => absurd hp hparent⟩⟩
  | cons n rest ih =>
    unfold Sysfile.namexLoop at hs
    obtain ⟨s1, hs1, hs⟩ := bind_eq_ok.1 hs
    obtain ⟨h1, hnot, hu1⟩ := h.ilock mem_cons_self hs1
    have ha1 := ha.congr hu1
    by_cases htype : (s1.node ip).type = .dir
    swap
    · rw [if_pos htype] at hs
      obtain ⟨t, ht, hs⟩ := bind_eq_ok.1 hs
      cases hs
      obtain ⟨h', hu⟩ := h1.iunlockput_kept ha1 hnot ht
      exact ⟨hu1.trans hu, .inl ⟨rfl, h'⟩⟩
    rw [if_neg (not_not.2 htype)] at hs
    by_cases hlast : parent = true ∧ rest = []
    · rw [if_pos hlast] at hs
      obtain ⟨t, ht, hs⟩ := bind_eq_ok.1 hs
      cases hs
      obtain ⟨h', hu⟩ := h1.iunlock hnot ht
      refine ⟨hu1.trans hu, .inr ⟨ip, n, rfl, h', fun _ => ?_⟩⟩
      rw [← hu1.node]
      exact htype
    · rw [if_neg hlast] at hs
      obtain ⟨⟨r1, s2⟩, hs2, hrest⟩ := bind_eq_ok.1 hs
      obtain ⟨-, hu2, hcase⟩ := h1.dirlookup hs2
      rcases hcase with ⟨rfl, -, rfl⟩ | ⟨next, k, rfl, -, -, h2⟩
      · dsimp only at hrest
        obtain ⟨t, ht, hend⟩ := bind_eq_ok.1 hrest
        cases hend
        obtain ⟨h', hu⟩ := h1.iunlockput_kept ha1 hnot ht
        exact ⟨hu1.trans hu, .inl ⟨rfl, h'⟩⟩
      · dsimp only at hrest
        obtain ⟨s3, hs3, hloop⟩ := bind_eq_ok.1 hrest
        have hanch : Anchored s2 (next :: held) := fun i ht hl =>
          (ha1.congr hu2 i ht hl).imp_right (mem_cons_of_mem next)
        obtain ⟨h3, hu3⟩ := (h2.perm (List.Perm.swap ip next held)).iunlockput_kept hanch hnot hs3
        have hu := (hu1.trans hu2).trans hu3
        obtain ⟨hu', hcase⟩ := ih h3 (ha.congr hu) hloop
        rw [hu.node] at hcase
        exact ⟨hu.trans hu', hcase⟩

variable {path : List Byte}

section

variable (h : Work s held lk) (hp : s.files.Alive p)

include h hp

/-- `namex` changes no inode, and returns one reference. -/
theorem Work.namex {parent : Bool}
    (hs : s.namex ninodes p path parent = .ok (r, s')) :
    Unchanged s s' ∧
      (r = none ∧ Work s' held lk ∨
        ∃ i n, r = some (i, n) ∧ Work s' (i :: held) lk ∧
          (parent = true → (s.node i).type = .dir)) := by
  unfold Sysfile.namex at hs
  obtain ⟨⟨ip, t⟩, ht, hs⟩ := bind_eq_ok.1 hs
  have hstart : Work t (ip :: held) lk ∧ Unchanged s t := by
    unfold namexStart at ht
    split_ifs at ht
    · obtain ⟨t', ht', heq⟩ := map_eq_ok.1 ht
      cases heq
      exact h.iget ht'
    · cases ht
      exact ⟨h.idup hp, rfl, rfl, rfl, rfl⟩
  obtain ⟨h1, hu1⟩ := hstart
  obtain ⟨hu, hcase⟩ := h1.namexLoop (h.anchored.congr hu1) h.sub hs
  rw [hu1.node] at hcase
  exact ⟨hu1.trans hu, hcase⟩

theorem Work.nameiparent (hs : s.nameiparent ninodes p path = .ok (r, s')) :
    Unchanged s s' ∧
      (r = none ∧ Work s' held lk ∨
        ∃ i n, r = some (i, n) ∧ Work s' (i :: held) lk ∧ (s.node i).type = .dir) := by
  obtain ⟨hu, hcase⟩ := h.namex hp hs
  refine ⟨hu, hcase.imp_right ?_⟩
  rintro ⟨i, n, rfl, h', hdir⟩
  exact ⟨i, n, rfl, h', hdir rfl⟩

theorem Work.namei {r : Option ℕ}
    (hs : s.namei ninodes p path = .ok (r, s')) :
    Unchanged s s' ∧ (r = none ∧ Work s' held lk ∨ ∃ i, r = some i ∧ Work s' (i :: held) lk) := by
  obtain ⟨⟨r', t⟩, ht, heq⟩ := map_eq_ok.1 hs
  cases heq
  obtain ⟨hu, hcase⟩ := h.namex hp ht
  refine ⟨hu, ?_⟩
  rcases hcase with ⟨rfl, h'⟩ | ⟨i, n, rfl, h', -⟩
  · exact .inl ⟨rfl, h'⟩
  · exact .inr ⟨i, rfl, h'⟩

end

end Xv6.Sysfile
