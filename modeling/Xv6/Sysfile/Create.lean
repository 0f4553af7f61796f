import Xv6.Sysfile.Work

/-!
# New entries and new inodes

`dirlink`, `ialloc` and `create`: what they do to the inodes, and which references and locks the
call holds afterwards.
-/

namespace Xv6.Sysfile

open Function Outcome List Slots

variable {ninodes : ℕ} {s s' t : Sysfile} {i j dp ip : ℕ} {held lk : List ℕ} {n : Name}

/-! ### Entries -/

theorem setNode_frame (i : ℕ) (x : Node) : Frame s (s.setNode i x) := ⟨rfl, rfl, rfl⟩

/-- `dirlink` adds an entry, unless the name is present. -/
theorem Work.dirlink (h : Work s held lk) (hdp : dp ∈ lk) {inum : ℕ} {b : Bool}
    (hs : s.dirlink ninodes dp n inum = .ok (b, s')) :
    Work s' held lk ∧ Frame s s' ∧
      (b = false ∧ s'.node = s.node ∨
        b = true ∧ (s.node dp).slots.index n = none ∧
          s'.node = update s.node dp
            { s.node dp with slots := (s.node dp).slots.link n inum }) := by
  unfold Sysfile.dirlink at hs
  obtain ⟨⟨r, t⟩, ht, hrest⟩ := bind_eq_ok.1 hs
  obtain ⟨-, hu, hcase⟩ := h.dirlookup ht
  rcases hcase with ⟨rfl, hnone, rfl⟩ | ⟨i, k, rfl, -, -, h1⟩
  · dsimp only at hrest
    split_ifs at hrest with hfull
    cases hrest
    exact ⟨h.setNode hdp (h.type_of_locked hdp), ⟨rfl, rfl, rfl⟩, .inr ⟨rfl, hnone, rfl⟩⟩
  · dsimp only at hrest
    obtain ⟨t', ht', hend⟩ := bind_eq_ok.1 hrest
    cases hend
    obtain ⟨h', hu'⟩ := h1.iput_kept (h.anchored.congr hu) (h.sub i) ht'
    exact ⟨h', (hu.trans hu').frame, .inl ⟨rfl, (hu.trans hu').node⟩⟩

theorem Work.mustLink (h : Work s held lk) (hdp : dp ∈ lk) {inum : ℕ}
    (hs : s.mustLink ninodes dp n inum = .ok s') :
    Work s' held lk ∧ Frame s s' ∧ (s.node dp).slots.index n = none ∧
      s'.node = update s.node dp
        { s.node dp with slots := (s.node dp).slots.link n inum } := by
  unfold Sysfile.mustLink at hs
  obtain ⟨⟨b, t⟩, ht, hrest⟩ := bind_eq_ok.1 hs
  obtain ⟨h', hframe, hcase⟩ := h.dirlink hdp ht
  rcases hcase with ⟨rfl, -⟩ | ⟨rfl, hnone, hnode⟩
  · cases hrest
  · cases hrest
    exact ⟨h', hframe, hnone, hnode⟩

/-! ### Inodes -/

theorem iget_setNode (x : Node) :
    (s.setNode i x).iget ninodes j = (s.iget ninodes j).map fun t => t.setNode i x := by
  unfold Sysfile.iget
  split_ifs <;> first | rfl | contradiction

variable {type : NodeType}

/-- `ialloc` and `ilock` of the new inode. -/
theorem Work.ialloc (h : Work s held lk) (htype : type ≠ .free)
    (hs : s.ialloc ninodes type = .ok (ip, t)) (ht : t.ilock ip = .ok s') :
    Work s' (ip :: held) (ip :: lk) ∧ Frame s s' ∧ ip ∉ lk ∧ 0 < ip ∧ ip < ninodes ∧
      (s.node ip).type = .free ∧ s'.node = update s.node ip ⟨type, 0, 0, 0, [], []⟩ := by
  unfold Sysfile.ialloc at hs
  split at hs
  · cases hs
  next i hfind =>
    obtain ⟨t', ht', heq⟩ := map_eq_ok.1 hs
    cases heq
    have hprop := find?_some hfind
    simp only [decide_eq_true_eq] at hprop
    have hlt := mem_range.1 (mem_of_find?_eq_some hfind)
    have hnot : ip ∉ lk := fun hmem => h.type_of_locked hmem hprop.2
    -- the new type is on the disk before there is a reference
    rw [iget_setNode] at ht'
    obtain ⟨u, hu, rfl⟩ := map_eq_ok.1 ht'
    obtain ⟨h1, hnode1, hframe1⟩ := h.iget hu
    unfold Sysfile.ilock at ht
    split_ifs at ht with href hlock hfree
    cases ht
    refine ⟨⟨h1.refs, fun j => ?_, fun j hj => ?_, fun j hj => ?_, fun j htj hl => ?_,
      fun j hr hv => ?_⟩, ⟨hframe1.ops, hframe1.cwd, hframe1.files⟩, hnot, hprop.1, hlt,
      hprop.2, ?_⟩
    · show update u.locked ip true j = true ↔ _
      by_cases hj : j = ip
      · subst hj
        simp
      · rw [update_of_ne hj, h1.locked, mem_cons]
        simp [hj]
    · rcases mem_cons.1 hj with rfl | hj
      · exact mem_cons_self
      · exact h1.sub j hj
    · show update u.valid ip true j = true
      by_cases hji : j = ip
      · subst hji
        simp
      · rw [update_of_ne hji]
        exact h1.loaded j ((mem_cons.1 hj).resolve_left hji)
    · by_cases hji : j = ip
      · subst hji
        exact ⟨h1.ref_pos mem_cons_self, update_self ..⟩
      · simp only [Sysfile.setNode, update_of_ne hji] at htj hl ⊢
        exact h1.linked j htj hl
    · by_cases hji : j = ip
      · subst hji
        simpa [Sysfile.setNode] using htype
      · simp only [Sysfile.setNode, update_of_ne hji] at hr hv ⊢
        exact h1.typed j hr hv
    · show update u.node ip _ = _
      rw [hnode1]

/-- The inode that `create` makes. -/
def newNode (dp ip : ℕ) (type : NodeType) (major minor : BitVec 16) : Node :=
  ⟨type, major, minor, 1,
    if type = .dir then link (link [] dot ip) dotdot dp else [], []⟩

/-- The directory in which `create` makes an inode. -/
def parentNode (x : Node) (n : Name) (ip : ℕ) (type : NodeType) : Node :=
  { x with
    nlink := if type = .dir then x.nlink + 1 else x.nlink
    slots := x.slots.link n ip }

/-- The inodes after `create`. -/
def created (node : ℕ → Node) (dp : ℕ) (n : Name) (ip : ℕ) (type : NodeType)
    (major minor : BitVec 16) : ℕ → Node :=
  update (update node ip (newNode dp ip type major minor)) dp
    (parentNode (node dp) n ip type)

theorem Work.makeDots (h : Work s held lk) (hdp : dp ∈ lk) (hip : ip ∈ lk) (hne : ip ≠ dp)
    (hslots : (s.node ip).slots = []) (hs : s.makeDots ninodes dp ip type = .ok s') :
    Work s' held lk ∧ Frame s s' ∧
      s'.node = update (update s.node ip
        { s.node ip with slots :=
          if type = .dir then link (link [] dot ip) dotdot dp else [] }) dp
        { s.node dp with
          nlink := if type = .dir then (s.node dp).nlink + 1 else (s.node dp).nlink } := by
  by_cases htype : type = .dir
  · subst htype
    obtain ⟨s2, hs2, hs3⟩ := bind_eq_ok.1 hs
    have h1 : Work (s.setNode dp { s.node dp with nlink := (s.node dp).nlink + 1 }) held lk :=
      h.setNode hdp (h.type_of_locked hdp)
    obtain ⟨h2, hframe2, -, hnode2⟩ := h1.mustLink hip hs2
    obtain ⟨h3, hframe3, -, hnode3⟩ := h2.mustLink hip hs3
    refine ⟨h3, ((setNode_frame dp _).trans hframe2).trans hframe3, ?_⟩
    rw [hnode3, hnode2]
    simp only [Sysfile.setNode, update_self, update_of_ne hne,
      update_idem, hslots, if_pos]
    rw [update_comm hne]
  · have hsame : s' = s := by
      unfold Sysfile.makeDots at hs
      split at hs
      · contradiction
      · cases hs
        rfl
    subst hsame
    refine ⟨h, .refl _, ?_⟩
    simp only [if_neg htype]
    rw [← hslots, update_eq_self, update_eq_self]

variable {major minor : BitVec 16}

theorem Work.createIn (h : Work s (dp :: held) (dp :: lk)) (hnot : dp ∉ lk) (htype : type ≠ .free)
    (hs : s.createIn ninodes dp n type major minor = .ok (ip, s')) :
    Work s' (ip :: held) (ip :: lk) ∧ Frame s s' ∧ 0 < ip ∧ ip < ninodes ∧ ip ≠ dp ∧
      (s.node ip).type = .free ∧ (s.node dp).slots.index n = none ∧
      (s'.node = created s.node dp n ip type major minor ∨
        s.users dp = 0 ∧ (parentNode (s.node dp) n ip type).nlink = 0 ∧
          s'.node = update (created s.node dp n ip type major minor) dp
            (freed (parentNode (s.node dp) n ip type))) := by
  unfold Sysfile.createIn at hs
  obtain ⟨⟨i, t1⟩, ht1, hrest⟩ := bind_eq_ok.1 hs
  obtain ⟨s1, hs1, hrest⟩ := bind_eq_ok.1 hrest
  obtain ⟨s3, hs3, hrest⟩ := bind_eq_ok.1 hrest
  obtain ⟨s4, hs4, hrest⟩ := bind_eq_ok.1 hrest
  obtain ⟨s5, hs5, hend⟩ := bind_eq_ok.1 hrest
  cases hend
  obtain ⟨h1, hframe1, hfresh, hpos, hlt, hfree, hnode1⟩ := h.ialloc htype ht1 hs1
  have hne : ip ≠ dp := fun heq => hfresh (heq ▸ mem_cons_self)
  have hdpl : dp ∈ ip :: dp :: lk := by simp
  -- the new inode gets its numbers and its first link
  have h2 := h1.setNode (mem_cons_self (a := ip))
    (x := { s1.node ip with major := major, minor := minor, nlink := 1 })
    (h1.type_of_locked mem_cons_self)
  obtain ⟨h3, hframe3, hnode3⟩ := h2.makeDots hdpl mem_cons_self hne
    (by simp [Sysfile.setNode, hnode1]) hs3
  obtain ⟨h4, hframe4, hindex, hnode4⟩ := h3.mustLink hdpl hs4
  have h₄' := (h4.perm (List.Perm.swap dp ip held)).permLocks (List.Perm.swap dp ip lk)
  have hnot' : dp ∉ ip :: lk := by simp [hne.symm, hnot]
  obtain ⟨h5, hframe5, hcase⟩ := h₄'.iunlockput hnot' hs5
  have hframe := ((hframe1.trans (setNode_frame ip _)).trans hframe3).trans hframe4
  have hcreated : s4.node = created s.node dp n ip type major minor := by
    rw [hnode4, hnode3]
    simp only [Sysfile.setNode, hnode1, update_self, update_of_ne hne.symm,
      update_idem]
    rfl
  have hdp : s4.node dp = parentNode (s.node dp) n ip type := by
    rw [hcreated, created, update_self]
  have hslots : (s3.node dp).slots = (s.node dp).slots := by
    rw [hnode3]
    simp [Sysfile.setNode, hnode1, update_of_ne hne.symm]
  rw [hslots] at hindex
  refine ⟨h5, hframe.trans hframe5, hpos, hlt, hne, hfree, hindex, ?_⟩
  rw [hframe.users, hdp, hcreated] at hcase
  exact hcase.imp_right fun hu => ⟨hu.1, hu.2.2.2⟩

/-- `create` has made a new inode; its directory may have been freed. -/
structure Made (ninodes : ℕ) (s : Sysfile) (dp : ℕ) (n : Name) (ip : ℕ) (type : NodeType)
    (major minor : BitVec 16) (node : ℕ → Node) : Prop where
  pos : 0 < ip
  lt : ip < ninodes
  ne : ip ≠ dp
  free : (s.node ip).type = .free
  dir : (s.node dp).type = .dir
  new : (s.node dp).slots.index n = none
  result : node = created s.node dp n ip type major minor ∨
    s.users dp = 0 ∧ (parentNode (s.node dp) n ip type).nlink = 0 ∧
      node = update (created s.node dp n ip type major minor) dp
        (freed (parentNode (s.node dp) n ip type))

theorem Made.type_new {node : ℕ → Node} (h : Made ninodes s dp n ip type major minor node) :
    node ip = newNode dp ip type major minor := by
  rcases h.result with heq | ⟨-, -, heq⟩
  · rw [heq, created, update_of_ne h.ne, update_self]
  · rw [heq, update_of_ne h.ne, created, update_of_ne h.ne, update_self]

/-- `create` fails and changes no inode, finds a file or a device, or makes a new inode. -/
theorem Work.create (h : Work s [] []) {p : ProcId} (hp : s.files.Alive p) {path : List Byte}
    (htype : type ≠ .free) {r : Option ℕ}
    (hs : s.create ninodes p path type major minor = .ok (r, s')) :
    Frame s s' ∧
      (r = none ∧ s'.node = s.node ∧ Work s' [] [] ∨
        ∃ ip, r = some ip ∧ Work s' [ip] [ip] ∧
          (s'.node = s.node ∧ type = .file ∧ (s.node ip).type ≠ .free ∨
            ∃ dp n, Made ninodes s dp n ip type major minor s'.node)) := by
  unfold Sysfile.create at hs
  obtain ⟨⟨r1, s1⟩, hs1, hrest1⟩ := bind_eq_ok.1 hs
  obtain ⟨hu1, hcase⟩ := h.nameiparent hp hs1
  rcases hcase with ⟨rfl, h1⟩ | ⟨dp, n, rfl, h1, hdir⟩
  · cases hrest1
    exact ⟨hu1.frame, .inl ⟨rfl, hu1.node, h1⟩⟩
  dsimp only at hrest1
  obtain ⟨s2, hs2, hrest2⟩ := bind_eq_ok.1 hrest1
  obtain ⟨h2, -, hu2⟩ := h1.ilock mem_cons_self hs2
  obtain ⟨⟨r3, s3⟩, hs3, hrest3⟩ := bind_eq_ok.1 hrest2
  obtain ⟨-, hu3, hcase⟩ := h2.dirlookup hs3
  have hu := (hu1.trans hu2).trans hu3
  rcases hcase with ⟨rfl, -, rfl⟩ | ⟨ip, k, rfl, -, -, h3⟩
  · -- a new inode
    dsimp only at hrest3
    obtain ⟨⟨ip, s4⟩, hs4, hend⟩ := bind_eq_ok.1 hrest3
    cases hend
    obtain ⟨h4, hframe4, hpos, hlt, hne, hfree, hindex, hresult⟩ := h2.createIn nofun htype hs4
    rw [hu.node] at hfree hindex hresult
    rw [hu.frame.users] at hresult
    exact ⟨hu.frame.trans hframe4, .inr ⟨ip, rfl, h4, .inr ⟨dp, n, hpos, hlt, hne, hfree, hdir,
      hindex, hresult⟩⟩⟩
  · dsimp only at hrest3
    obtain ⟨s4, hs4, hrest4⟩ := bind_eq_ok.1 hrest3
    obtain ⟨s5, hs5, hrest5⟩ := bind_eq_ok.1 hrest4
    have hanch : Anchored s3 [ip] := fun i ht hl =>
      .inl ((h.anchored.congr hu i ht hl).resolve_right nofun)
    obtain ⟨h4, hu4⟩ := (h3.perm (List.Perm.swap dp ip [])).iunlockput_kept hanch nofun hs4
    obtain ⟨h5, -, hu5⟩ := h4.ilock mem_cons_self hs5
    have hu5 := (hu.trans hu4).trans hu5
    split_ifs at hrest5 with hfound
    · cases hrest5
      refine ⟨hu5.frame, .inr ⟨ip, rfl, h5, .inl ⟨hu5.node, hfound.1, ?_⟩⟩⟩
      rw [← hu5.node]
      exact h5.type_of_locked mem_cons_self
    · obtain ⟨s6, hs6, hend⟩ := bind_eq_ok.1 hrest5
      cases hend
      obtain ⟨h6, hu6⟩ := h5.iunlockput_kept (h.anchored.congr hu5) nofun hs6
      exact ⟨(hu5.trans hu6).frame, .inl ⟨rfl, (hu5.trans hu6).node, h6⟩⟩

end Xv6.Sysfile
