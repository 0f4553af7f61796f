import Xv6.Sysfile.Users

/-!
# What a call does

`Called` says once what each call does to the inodes, and in which state it leaves the rest:
everything that it has locked is unlocked, the references add up, and `begin_op` is matched.
-/

namespace Xv6.Sysfile

open Function Outcome

variable {ninodes : ℕ} {s s' t : Sysfile} {i j dp ip k : ℕ} {held lk : List ℕ} {n : Name}
  {p : ProcId} {r : Option ℕ}

/-! ### Changes of the inodes -/

/-- Inodes without links may be freed. -/
def Frees (N N' : ℕ → Node) : Prop :=
  ∀ i, N' i = N i ∨ (N i).type ≠ .free ∧ (N i).nlink = 0 ∧ N' i = freed (N i)

theorem Frees.refl (N : ℕ → Node) : Frees N N := fun _ => .inl rfl

variable {N N' : ℕ → Node}

theorem Frees.of_eq (h : N' = N) : Frees N N' := h ▸ Frees.refl N

theorem Frees.trans {N'' : ℕ → Node} (h : Frees N N') (h' : Frees N' N'') : Frees N N'' := by
  intro i
  rcases h i with heq | ⟨ht, hl, heq⟩
  · rcases h' i with heq' | ⟨ht', hl', heq'⟩
    · exact .inl (heq'.trans heq)
    · rw [heq] at ht' hl' heq'
      exact .inr ⟨ht', hl', heq'⟩
  · rcases h' i with heq' | ⟨ht', -⟩
    · exact .inr ⟨ht, hl, heq'.trans heq⟩
    · rw [heq] at ht'
      exact absurd rfl ht'

theorem Frees.update (h : Frees N N') (i : ℕ) (x : Node) :
    Frees (update N i x) (update N' i x) := by
  intro j
  by_cases hj : j = i
  · subst hj
    simp
  · simp only [update_of_ne hj]
    exact h j

/-- What `iput` and `iunlockput` do to the inodes. -/
theorem Frees.of_put {P Q : Prop}
    (h : s'.node = s.node ∨ P ∧ Q ∧ (s.node i).type ≠ .free ∧ (s.node i).nlink = 0 ∧
      s'.node = Function.update s.node i (freed (s.node i))) : Frees s.node s'.node := by
  rcases h with heq | ⟨-, -, ht, hl, heq⟩
  · exact .of_eq heq
  · intro j
    rw [heq]
    by_cases hj : j = i
    · subst hj
      exact .inr ⟨ht, hl, update_self ..⟩
    · exact .inl (update_of_ne hj ..)

/-- The inodes after `sys_link` has added an entry. -/
def linked (node : ℕ → Node) (dp : ℕ) (n : Name) (ip : ℕ) : ℕ → Node :=
  update (update node ip { node ip with nlink := (node ip).nlink + 1 }) dp
    { node dp with slots := (node dp).slots.link n ip }

/-- The directory from which `sys_unlink` has removed the entry `k`. -/
def unlinkedParent (x : Node) (k : ℕ) (type : NodeType) : Node :=
  { x with
    slots := x.slots.put k .zero
    nlink := if type = .dir then x.nlink - 1 else x.nlink }

/-- The inodes after `sys_unlink` has removed the entry `k` of `dp`. -/
def unlinked (node : ℕ → Node) (dp k ip : ℕ) : ℕ → Node :=
  update (update node dp (unlinkedParent (node dp) k (node ip).type)) ip
    { node ip with nlink := (node ip).nlink - 1 }

/-- What a call does to the inodes. -/
inductive Change (ninodes : ℕ) (s : Sysfile) (a : Act) (N : ℕ → Node) : Prop
  | same (h : Frees s.node N)
  | trunc (ip : ℕ) (htype : (s.node ip).type = .file)
      (h : N = update s.node ip { s.node ip with bytes := [] })
  | make (dp : ℕ) (n : Name) (ip : ℕ) (type : NodeType) (major minor : BitVec 16)
      (htype : type ≠ .free) (hdir : type = .dir → ∃ p path, a = .mkdir p path)
      (h : Made ninodes s dp n ip type major minor N)
  | link (dp : ℕ) (n : Name) (ip : ℕ) (hact : ∃ p old new, a = .link p old new)
      (hdp : (s.node dp).type = .dir) (hip : (s.node ip).type ≠ .dir)
      (hfree : (s.node ip).type ≠ .free) (hnew : (s.node dp).slots.index n = none)
      (h : Frees (linked s.node dp n ip) N)
  | unlink (p : ProcId) (path : List Byte) (t : Sysfile) (dp : ℕ) (n : Name) (k ip : ℕ)
      (hact : a = .unlink p (some path))
      (hpath : s.beginOp.nameiparent ninodes p path = .ok (some (dp, n), t))
      (hdp : (s.node dp).type = .dir) (hn : n ≠ dot ∧ n ≠ dotdot)
      (hk : (s.node dp).slots.index n = some k)
      (hip : ip = ((s.node dp).slots.getD k .zero).inum) (hne : ip ≠ dp)
      (hfree : (s.node ip).type ≠ .free) (hlinks : ¬ (s.node ip).nlink.toInt < 1)
      (hempty : (s.node ip).type = .dir → ∀ e ∈ (s.node ip).slots.drop 2, e.inum = 0)
      (h : Frees (unlinked s.node dp k ip) N)

/-- Between two calls. -/
structure Ready (s : Sysfile) : Prop where
  work : Work s [] []
  files : s.files.Inv 0 []

/-- `sys_open` makes a new file, and there is no descriptor or no entry of the file table left. -/
def OutOfFiles (ninodes : ℕ) (s : Sysfile) (a : Act) : Prop :=
  ∃ p path omode ip t, a = .open p (some path) omode ∧ omode &&& O_CREATE ≠ 0 ∧
    s.beginOp.create ninodes p path .file 0 0 = .ok (some ip, t) ∧ (s.node ip).type = .free ∧
    ((∀ f, (s.files.file f).ref ≠ 0) ∨ ∀ fd, s.files.ofile p fd ≠ none)

/-- What is true after a call. -/
structure Called (ninodes : ℕ) (s : Sysfile) (a : Act) (r : Option ℕ) (s' : Sysfile) : Prop where
  ready : Ready s'
  ops : s'.ops = s.ops
  state : s'.files.state = s.files.state
  change : Change ninodes s a s'.node
  failed : r = none → Unchanged s s' ∨ OutOfFiles ninodes s a

/-! ### The end of a call -/

variable {a : Act}

theorem Called.unchanged (h : Ready s) (hw : Work s' [] []) (hu : Unchanged s s') :
    Called ninodes s a r s' where
  ready := ⟨hw, by rw [hu.frame.files]; exact h.files⟩
  ops := hu.frame.ops
  state := by rw [hu.frame.files]
  change := .same (.of_eq hu.node)
  failed _ := .inl hu

theorem Called.changed {m : ℕ} (h : Ready s) (hw : Work s' [] []) (hframe : Frame s s')
    (hc : Change ninodes s a s'.node) : Called ninodes s a (some m) s' where
  ready := ⟨hw, by rw [hframe.files]; exact h.files⟩
  ops := hframe.ops
  state := by rw [hframe.files]
  change := hc
  failed := nofun

/-- `end_op` matches `begin_op`. -/
theorem Frame.endOp (h : Frame s.beginOp t) : Frame s t.endOp :=
  ⟨by simp only [Sysfile.endOp, h.ops, Sysfile.beginOp, Nat.add_sub_cancel], h.cwd, h.files⟩

theorem Work.fail (h : Work t [] []) (hu : Unchanged s.beginOp t)
    (hs : t.fail = .ok (r, s')) : Work s' [] [] ∧ r = none ∧ Unchanged s s' := by
  cases hs
  exact ⟨h.endOp, rfl, hu.node, hu.frame.endOp⟩

theorem Work.failPut (h0 : Work s [] []) (h : Work t [ip] [ip]) (hu : Unchanged s.beginOp t)
    (hs : t.failPut ip = .ok (r, s')) : Work s' [] [] ∧ r = none ∧ Unchanged s s' := by
  obtain ⟨u, ht, hrest⟩ := bind_eq_ok.1 hs
  obtain ⟨h1, hu1⟩ := h.iunlockput_kept (h0.beginOp.anchored.congr hu) nofun ht
  exact h1.fail (hu.trans hu1) hrest

theorem Called.fail (h : Ready s) (ht : Work t [] []) (hu : Unchanged s.beginOp t)
    (hs : t.fail = .ok (r, s')) : Called ninodes s a r s' := by
  obtain ⟨hw, -, hu⟩ := ht.fail hu hs
  exact .unchanged h hw hu

theorem Called.failPut (h : Ready s) (ht : Work t [ip] [ip]) (hu : Unchanged s.beginOp t)
    (hs : t.failPut ip = .ok (r, s')) : Called ninodes s a r s' := by
  obtain ⟨hw, -, hu⟩ := h.work.failPut ht hu hs
  exact .unchanged h hw hu

/-- A call that begins with `namei` and `ilock` fails, or goes on with an inode that it holds. -/
theorem Ready.lookup (h : Ready s) (hp : s.files.Alive p) {path : List Byte}
    {f : ℕ → Sysfile → Return}
    (hs : (do
      let x ← s.beginOp.namei ninodes p path
      match x with
      | (none, s) => s.fail
      | (some ip, s) =>
        let s ← s.ilock ip
        f ip s) = .ok (r, s')) : Called ninodes s a r s' ∨
      ∃ ip t, Work t [ip] [ip] ∧ Unchanged s.beginOp t ∧ f ip t = .ok (r, s') := by
  obtain ⟨⟨r1, s1⟩, hs1, hrest1⟩ := bind_eq_ok.1 hs
  obtain ⟨hu1, hcase⟩ := h.work.beginOp.namei hp hs1
  rcases hcase with ⟨rfl, h1⟩ | ⟨ip, rfl, h1⟩
  · exact .inl (.fail h h1 hu1 hrest1)
  · obtain ⟨s2, hs2, hrest2⟩ := bind_eq_ok.1 hrest1
    obtain ⟨h2, -, hu2⟩ := h1.ilock List.mem_cons_self hs2
    exact .inr ⟨ip, s2, h2, hu1.trans hu2, hrest2⟩

/-! ### The calls -/

variable {type : NodeType} {major minor : BitVec 16}

theorem Made.beginOp (h : Made ninodes s.beginOp dp n ip type major minor N) :
    Made ninodes s dp n ip type major minor N :=
  ⟨h.pos, h.lt, h.ne, h.free, h.dir, h.new, h.result⟩

/-- A new inode has a link, and `iunlockput` does not free it. -/
theorem Work.iunlockput_made (h : Work t [ip] [ip])
    (hmade : Made ninodes s dp n ip type major minor t.node)
    (hs : t.iunlockput ip = .ok s') : Work s' [] [] ∧ Unchanged t s' := by
  obtain ⟨h', hframe, hcase⟩ := h.iunlockput nofun hs
  refine ⟨h', hcase.resolve_right fun ⟨_, _, _, hl, _⟩ => ?_, hframe⟩
  rw [hmade.type_new] at hl
  cases hl

variable {path : Option (List Byte)}

theorem Ready.sysMake (h : Ready s) (hp : s.files.Alive p) (htype : type ≠ .free)
    (hdir : type = .dir → ∃ p path, a = .mkdir p path)
    (hs : s.sysMake ninodes p path type major minor = .ok (r, s')) : Called ninodes s a r s' := by
  cases path with
  | none => exact .fail h h.work.beginOp ⟨rfl, .refl _⟩ hs
  | some path =>
    obtain ⟨⟨r1, t⟩, ht, hrest⟩ := bind_eq_ok.1 hs
    obtain ⟨hframe, hcase⟩ := h.work.beginOp.create hp htype ht
    rcases hcase with ⟨rfl, hnode, hw⟩ | ⟨ip, rfl, hw, hcase⟩
    · exact .fail h hw ⟨hnode, hframe⟩ hrest
    · dsimp only at hrest
      obtain ⟨u, hu, hend⟩ := bind_eq_ok.1 hrest
      cases hend
      rcases hcase with ⟨hnode, -, -⟩ | ⟨dp, n, hmade⟩
      · obtain ⟨hw', hu'⟩ :=
          hw.iunlockput_kept (h.work.beginOp.anchored.congr ⟨hnode, hframe⟩) nofun hu
        exact .unchanged h hw'.endOp ⟨hu'.node.trans hnode, (hframe.trans hu'.frame).endOp⟩
      · obtain ⟨hw', hnode', hframe'⟩ := hw.iunlockput_made hmade hu
        refine .changed h hw'.endOp (hframe.trans hframe').endOp
          (.make dp n ip type major minor htype hdir ?_)
        show Made ninodes s dp n ip type major minor u.node
        rw [hnode']
        exact hmade.beginOp

theorem iput_setCwd (c : ProcId → ℕ) (h : s.iput i = .ok s') :
    { s with cwd := c }.iput i = .ok { s' with cwd := c } := by
  unfold Sysfile.iput at h ⊢
  split_ifs at h ⊢ <;> cases h <;> rfl

theorem Ready.sysChdir (h : Ready s) (hp : s.files.Alive p)
    (hs : s.sysChdir ninodes p path = .ok (r, s')) : Called ninodes s a r s' := by
  cases path with
  | none => exact .fail h h.work.beginOp ⟨rfl, .refl _⟩ hs
  | some path =>
    rcases h.lookup hp hs with hfail | ⟨ip, s2, h2, hu, hrest2⟩
    · exact hfail
    by_cases htype : (s2.node ip).type = .dir
    swap
    · rw [if_pos htype] at hrest2
      exact .failPut h h2 hu hrest2
    rw [if_neg (not_not.2 htype)] at hrest2
    obtain ⟨s3, hs3, hrest3⟩ := bind_eq_ok.1 hrest2
    obtain ⟨s4, hs4, hend⟩ := bind_eq_ok.1 hrest3
    cases hend
    obtain ⟨h3, hu3⟩ := h2.iunlock nofun hs3
    have hu' := hu.trans hu3
    have halive : s3.files.Alive p := by rw [hu'.frame.files]; exact hp
    -- the old directory is given up by a process that is already in the new one
    obtain ⟨h4, hframe4, hcase⟩ :=
      (h3.setCwd halive).iput nofun (iput_setCwd (update s3.cwd p ip) hs4)
    have hcwd : s4.cwd = s3.cwd := by
      unfold Sysfile.iput at hs4
      split_ifs at hs4 <;> cases hs4 <;> rfl
    have hops : s4.ops = s3.ops := hframe4.ops
    have hfiles : s4.files = s3.files := hframe4.files
    have hfrees : Frees s3.node s4.node := Frees.of_put hcase
    refine
      { ready := ⟨?_, ?_⟩
        ops := ?_
        state := ?_
        change := .same (.trans (.of_eq hu'.node) hfrees)
        failed := nofun }
    · rw [hcwd]
      exact h4.endOp
    · show s4.files.Inv 0 []
      rw [hfiles, hu'.frame.files]
      exact h.files
    · show s4.ops - 1 = s.ops
      rw [hops, hu'.frame.ops]
      rfl
    · show s4.files.state = _
      rw [hfiles, hu'.frame.files]
      rfl

theorem Ready.sysClose (h : Ready s) (hp : s.files.Alive p) {fd : ℤ}
    (hs : s.sysClose p fd = .ok (r, s')) : Called ninodes s a r s' := by
  unfold Sysfile.sysClose at hs
  cases hfd : s.files.argfd p fd with
  | none =>
    rw [hfd] at hs
    cases hs
    exact .unchanged h h.work ⟨rfl, .refl _⟩
  | some x =>
    obtain ⟨k, f⟩ := x
    rw [hfd] at hs
    dsimp only at hs
    obtain ⟨⟨r1, F⟩, hF, hrest⟩ := bind_eq_ok.1 hs
    obtain ⟨hinv, hstate, rfl, hother, hcase⟩ := close_cases h.files hp hfd (mapError_eq_ok.1 hF)
    dsimp only at hrest
    by_cases hlast : (s.files.file f).ref = 1 ∧
        ((s.files.file f).type = .inode ∨ (s.files.file f).type = .device)
    · rw [if_pos hlast] at hrest
      obtain ⟨t, ht, hend⟩ := bind_eq_ok.1 hrest
      cases hend
      have hnew : (F.file f).type = .none := by
        rcases hcase with ⟨-, hnone⟩ | ⟨hne, -⟩
        · exact hnone
        · exact absurd hlast.1 hne
      have hold : ∀ i, OnInode (s.files.file f) i ↔ i = (s.files.file f).ip :=
        fun i => ⟨fun hi => hi.2.symm, fun hi => ⟨hlast.2, hi.symm⟩⟩
      have hw := h.work.closeFile hstate hold hnew hother
      obtain ⟨hw', hframe, hcase⟩ := hw.beginOp.iput nofun ht
      have hframe' : Frame { s with files := F } t.endOp := Frame.endOp hframe
      exact
        { ready := ⟨hw'.endOp, by rw [hframe'.files]; exact hinv⟩
          ops := hframe'.ops
          state := by rw [hframe'.files]; exact hstate
          change := .same (Frees.of_put hcase)
          failed := nofun }
    · rw [if_neg hlast] at hrest
      cases hrest
      refine
        { ready := ⟨h.work.sameFiles hstate fun g i => ?_, hinv⟩
          ops := rfl
          state := hstate
          change := .same (.refl _)
          failed := nofun }
      by_cases hg : g = f
      · subst hg
        rcases hcase with ⟨hone, hnone⟩ | ⟨-, hiff⟩
        · have hno : ¬ ((s.files.file g).type = .inode ∨ (s.files.file g).type = .device) :=
            fun ht => hlast ⟨hone, ht⟩
          simp [OnInode, hnone, hno]
        · exact hiff i
      · rw [hother g hg]

/-- `bad:` takes the link back. -/
theorem Work.unlinkBack (h0 : Work s [] []) (h : Work t [ip] [])
    (hnode : t.node = update s.node ip
      { s.node ip with nlink := (s.node ip).nlink + 1 })
    (hframe : Frame s.beginOp t) (hs : t.unlinkBack ip = .ok (r, s')) :
    Work s' [] [] ∧ r = none ∧ Unchanged s s' := by
  obtain ⟨u, hu, hrest⟩ := bind_eq_ok.1 hs
  obtain ⟨h1, -, hu1⟩ := h.ilock List.mem_cons_self hu
  have hback : (u.setNode ip { u.node ip with nlink := (u.node ip).nlink - 1 }).node = s.node := by
    simp only [Sysfile.setNode, hu1.node, hnode, update_self, update_idem,
      BitVec.add_sub_cancel, update_eq_self]
  have h2 := h1.setNode (x := { u.node ip with nlink := (u.node ip).nlink - 1 }) List.mem_cons_self
    (h1.type_of_locked List.mem_cons_self)
  exact h0.failPut h2 ⟨hback, (hframe.trans hu1.frame).trans (setNode_frame ip _)⟩ hrest

theorem Ready.sysLink (h : Ready s) (hp : s.files.Alive p) {old new : Option (List Byte)}
    (hs : s.sysLink ninodes p old new = .ok (r, s')) : Called ninodes s (.link p old new) r s' := by
  unfold Sysfile.sysLink at hs
  split at hs
  swap
  · cases hs
    exact .unchanged h h.work ⟨rfl, .refl _⟩
  next old new =>
  rcases h.lookup hp hs with hfail | ⟨ip, s2, h2, hu, hrest2⟩
  · exact hfail
  by_cases htype : (s2.node ip).type = .dir
  · rw [if_pos htype] at hrest2
    exact .failPut h h2 hu hrest2
  rw [if_neg htype] at hrest2
  have hfree := h2.type_of_locked List.mem_cons_self
  have hnode : s2.node = s.node := hu.node
  rw [hnode] at htype hfree
  obtain ⟨s3, hs3, hrest3⟩ := bind_eq_ok.1 hrest2
  -- the count is raised before the lock is released
  obtain ⟨h3, hu3⟩ :=
    (h2.setNode (x := { s2.node ip with nlink := (s2.node ip).nlink + 1 }) List.mem_cons_self
      (h2.type_of_locked List.mem_cons_self)).iunlock (by simp) hs3
  have hframe3 := (hu.frame.trans (setNode_frame ip _)).trans hu3.frame
  obtain ⟨⟨r4, s4⟩, hs4, hrest4⟩ := bind_eq_ok.1 hrest3
  have halive : s3.files.Alive p := by rw [hframe3.files]; exact hp
  obtain ⟨hu4, hcase⟩ := h3.nameiparent halive hs4
  have hframe4 := hframe3.trans hu4.frame
  have hraised : s3.node = update s.node ip
      { s.node ip with nlink := (s.node ip).nlink + 1 } := by
    rw [hu3.node, Sysfile.setNode, hnode]
  rcases hcase with ⟨rfl, h4⟩ | ⟨dp, n, rfl, h4, hdir⟩
  · obtain ⟨hw, -, hu⟩ := h.work.unlinkBack h4 (hu4.node.trans hraised) hframe4 hrest4
    exact .unchanged h hw hu
  dsimp only at hrest4
  obtain ⟨s5, hs5, hrest5⟩ := bind_eq_ok.1 hrest4
  obtain ⟨⟨b, s6⟩, hs6, hrest6⟩ := bind_eq_ok.1 hrest5
  obtain ⟨s7, hs7, hrest7⟩ := bind_eq_ok.1 hrest6
  obtain ⟨h5, -, hu5⟩ := h4.ilock List.mem_cons_self hs5
  obtain ⟨h6, hframe6, hcase⟩ := h5.dirlink List.mem_cons_self hs6
  obtain ⟨h7, hframe7, hput⟩ := h6.iunlockput (by simp) hs7
  have hframe6 := (hframe4.trans hu5.frame).trans hframe6
  have hframe7 := hframe6.trans hframe7
  have hnode5 : s5.node = update s.node ip
      { s.node ip with nlink := (s.node ip).nlink + 1 } := hu5.node.trans (hu4.node.trans hraised)
  have hne : dp ≠ ip := by
    rintro rfl
    rw [hraised, update_self] at hdir
    exact htype hdir
  rw [hraised, update_of_ne hne] at hdir
  rcases hcase with ⟨rfl, hnode6⟩ | ⟨rfl, hindex, hnode6⟩
  · -- the directory is as it was, and `iunlockput` has not freed it
    rw [if_neg (by simp)] at hrest7
    have hnode7 : s7.node = s6.node := by
      refine hput.resolve_right ?_
      rintro ⟨hu, -, ht, hl, -⟩
      rw [hnode6, hnode5, update_of_ne hne] at ht hl
      have hanch := h.work.anchored dp ht hl
      have husers := (hframe6.users dp).symm.trans hu
      rcases hanch with hpos | hin
      · have : s.users dp = 0 := husers
        omega
      · cases hin
    obtain ⟨hw, -, hu⟩ := h.work.unlinkBack h7 (hnode7.trans (hnode6.trans hnode5)) hframe7 hrest7
    exact .unchanged h hw hu
  · rw [if_pos rfl] at hrest7
    obtain ⟨s8, hs8, hend⟩ := bind_eq_ok.1 hrest7
    cases hend
    obtain ⟨h8, hframe8, hput'⟩ := h7.iput (by simp) hs8
    have hlinked : s6.node = linked s.node dp n ip := by
      rw [hnode6, hnode5, update_of_ne hne]
      rfl
    rw [hnode5, update_of_ne hne] at hindex
    exact .changed h h8.endOp (hframe7.trans hframe8).endOp
      (.link dp n ip ⟨p, _, _, rfl⟩ hdir htype hfree hindex
        (hlinked ▸ (Frees.of_put hput).trans (.of_put hput')))

theorem Work.unlinkEntry (h : Work s [ip, dp] [ip, dp]) (hne : ip ≠ dp)
    (hs : s.unlinkEntry dp ip k = .ok (r, s')) :
    Work s' [] [] ∧ Frame s.endOp s' ∧ r = some 0 ∧ Frees (unlinked s.node dp k ip) s'.node := by
  have hdp : dp ∈ [ip, dp] := by simp
  -- both changes of the directory at once
  set t := s.setNode dp (unlinkedParent (s.node dp) k (s.node ip).type) with ht
  have hs' : (do
      let s ← t.iunlockput dp
      let s := s.setNode ip { s.node ip with nlink := (s.node ip).nlink - 1 }
      let s ← s.iunlockput ip
      Except.ok (some 0, s.endOp)) = .ok (r, s') := by
    rw [← hs, Sysfile.unlinkEntry]
    by_cases htype : (s.node ip).type = .dir
    · simp [ht, Sysfile.setNode, unlinkedParent, htype, update_of_ne hne]
    · simp [ht, Sysfile.setNode, unlinkedParent, htype, update_of_ne hne]
  have h1 : Work t [ip, dp] [ip, dp] := h.setNode hdp (h.type_of_locked hdp)
  obtain ⟨s2, hs2, hrest2⟩ := bind_eq_ok.1 hs'
  obtain ⟨s3, hs3, hend⟩ := bind_eq_ok.1 hrest2
  cases hend
  obtain ⟨h2, hframe2, hput2⟩ := ((h1.perm (List.Perm.swap dp ip [])).permLocks
    (List.Perm.swap dp ip [])).iunlockput (by simpa using hne.symm) hs2
  have hsame : s2.node ip = s.node ip := by
    have htip : t.node ip = s.node ip := update_of_ne hne ..
    rcases hput2 with heq | ⟨-, -, -, -, heq⟩
    · rw [heq, htip]
    · rw [heq, update_of_ne hne, htip]
  have h₂' := h2.setNode (x := { s2.node ip with nlink := (s2.node ip).nlink - 1 })
    List.mem_cons_self (h2.type_of_locked List.mem_cons_self)
  obtain ⟨h3, hframe3, hput3⟩ := h₂'.iunlockput (by simp) hs3
  have hframe : Frame s s3 :=
    (((setNode_frame dp _).trans hframe2).trans (setNode_frame ip _)).trans hframe3
  refine ⟨h3.endOp, ⟨congrArg (· - 1) hframe.ops, hframe.cwd, hframe.files⟩, rfl, ?_⟩
  have hfrees : Frees (unlinked s.node dp k ip)
      (s2.setNode ip { s2.node ip with nlink := (s2.node ip).nlink - 1 }).node := by
    rw [hsame]
    exact (Frees.of_put hput2).update ip _
  exact hfrees.trans (.of_put hput3)

theorem Ready.sysUnlink (h : Ready s) (hp : s.files.Alive p)
    (hs : s.sysUnlink ninodes p path = .ok (r, s')) : Called ninodes s (.unlink p path) r s' := by
  cases path with
  | none =>
    cases hs
    exact .unchanged h h.work ⟨rfl, .refl _⟩
  | some path =>
    obtain ⟨⟨r1, s1⟩, hs1, hrest1⟩ := bind_eq_ok.1 hs
    obtain ⟨hu1, hcase⟩ := h.work.beginOp.nameiparent hp hs1
    rcases hcase with ⟨rfl, h1⟩ | ⟨dp, n, rfl, h1, hdir⟩
    · exact .fail h h1 hu1 hrest1
    dsimp only at hrest1
    obtain ⟨s2, hs2, hrest2⟩ := bind_eq_ok.1 hrest1
    obtain ⟨h2, -, hu2⟩ := h1.ilock List.mem_cons_self hs2
    have hu2 := hu1.trans hu2
    by_cases hdots : n = dot ∨ n = dotdot
    · rw [if_pos hdots] at hrest2
      exact .failPut h h2 hu2 hrest2
    rw [if_neg hdots] at hrest2
    obtain ⟨⟨r3, s3⟩, hs3, hrest3⟩ := bind_eq_ok.1 hrest2
    obtain ⟨-, hu3, hcase⟩ := h2.dirlookup hs3
    rcases hcase with ⟨rfl, -, rfl⟩ | ⟨ip, k, rfl, hk, hip, h3⟩
    · exact .failPut h h2 hu2 hrest3
    dsimp only at hrest3
    obtain ⟨s4, hs4, hrest4⟩ := bind_eq_ok.1 hrest3
    obtain ⟨h4, hfresh, hu4⟩ := h3.ilock List.mem_cons_self hs4
    have hne : ip ≠ dp := by simpa using hfresh
    have hu := (hu2.trans hu3).trans hu4
    have hnode : s4.node = s.node := hu.node
    by_cases hlinks : (s4.node ip).nlink.toInt < 1
    · rw [if_pos hlinks] at hrest4
      cases hrest4
    rw [if_neg hlinks] at hrest4
    by_cases hfull : (s4.node ip).type = .dir ∧ ¬ s4.isdirempty ip
    · rw [if_pos hfull] at hrest4
      obtain ⟨s5, hs5, hrest5⟩ := bind_eq_ok.1 hrest4
      have hanch : Anchored s4 [dp] := fun i ht hl =>
        .inl ((h.work.beginOp.anchored.congr hu i ht hl).resolve_right nofun)
      obtain ⟨h5, hu5⟩ := h4.iunlockput_kept hanch hfresh hs5
      exact .failPut h h5 (hu.trans hu5) hrest5
    rw [if_neg hfull] at hrest4
    obtain ⟨hw, hframe', rfl, hfrees⟩ := h4.unlinkEntry hne hrest4
    have hfree := h4.type_of_locked List.mem_cons_self
    rw [hu2.node] at hk hip
    have hempty : (s4.node ip).type = .dir → ∀ e ∈ (s4.node ip).slots.drop 2, e.inum = 0 := by
      intro htype
      have hall : s4.isdirempty ip = true := by
        by_contra hno
        exact hfull ⟨htype, hno⟩
      simpa [isdirempty] using hall
    rw [hnode] at hlinks hfree hempty hfrees
    exact .changed h hw (hu.frame.endOp.trans hframe')
      (.unlink p path s1 dp n k ip rfl hs1 hdir (not_or.1 hdots) hk hip hne hfree hlinks
        hempty hfrees)

/-! ### `sys_open` -/

theorem iunlock_setFiles {F : Ftable} (h : { s with files := F }.iunlock i = .ok s') :
    ∃ t, s.iunlock i = .ok t ∧ s' = { t with files := F } := by
  unfold Sysfile.iunlock at h ⊢
  split_ifs at h ⊢
  cases h
  exact ⟨_, rfl, rfl⟩

/-- The inodes after `sys_open` has opened inode `ip`. -/
def opened (node : ℕ → Node) (ip : ℕ) (omode : UInt) : ℕ → Node :=
  if omode &&& O_TRUNC ≠ 0 ∧ (node ip).type = .file then
    update node ip { node ip with bytes := [] }
  else node

variable {omode : UInt}

/-- The end of `sys_open` fails for want of a descriptor or a file, or opens the inode. -/
theorem Work.openInode (h : Work t [ip] [ip]) (hfiles : t.files.Inv 0 []) (hp : t.files.Alive p)
    (hs : t.openInode p ip omode = .ok (r, s')) :
    (∃ m, r = some m ∧ Ready s' ∧ s'.ops = t.ops - 1 ∧ s'.files.state = t.files.state ∧
        s'.node = opened t.node ip omode) ∨
      t.failPut ip = .ok (r, s') ∧ ((t.node ip).type = .device ∨
        (∀ f, (t.files.file f).ref ≠ 0) ∨ ∀ fd, t.files.ofile p fd ≠ none) := by
  unfold Sysfile.openInode at hs
  dsimp only at hs
  obtain ⟨⟨r1, F⟩, hF, hrest⟩ := bind_eq_ok.1 hs
  obtain ⟨hinv, hstate, hcase⟩ := open_cases hfiles hp (mapError_eq_ok.1 hF)
  rcases hcase with ⟨rfl, rfl, hwhy⟩ | ⟨fd, f, rfl, hold, hnew, hother⟩
  · exact .inr ⟨hrest, by simpa using hwhy⟩
  · dsimp only at hrest
    obtain ⟨u, hu, hend⟩ := bind_eq_ok.1 hrest
    cases hend
    -- the contents are cut off under the lock
    have hstep : ∃ t', Work t' [ip] [ip] ∧ Frame t t' ∧ t'.node = opened t.node ip omode ∧
        { t' with files := F }.iunlock ip = .ok u := by
      unfold opened
      split_ifs at hu ⊢ with htrunc
      · exact ⟨t.setNode ip { t.node ip with bytes := [] },
          h.setNode List.mem_cons_self (h.type_of_locked List.mem_cons_self),
          setNode_frame ip _, rfl,
          hu⟩
      · exact ⟨t, h, .refl _, rfl, hu⟩
    obtain ⟨t', h', hframe, hnode, hu'⟩ := hstep
    obtain ⟨v, hv, rfl⟩ := iunlock_setFiles hu'
    obtain ⟨hw, hu'⟩ := h'.iunlock nofun hv
    have hframe'' := hframe.trans hu'.frame
    rw [← hframe''.files] at hstate hold hother
    refine .inl ⟨fd, rfl, ⟨(hw.openFile hstate hold hnew hother).endOp, hinv⟩, ?_, ?_, ?_⟩
    · exact congrArg (· - 1) hframe''.ops
    · exact hstate.trans (by rw [hframe''.files])
    · exact hu'.node.trans hnode

theorem Called.openInode (h : Ready s) (hp : s.files.Alive p) (ht : Work t [ip] [ip])
    (hu : Unchanged s.beginOp t) (hs : t.openInode p ip omode = .ok (r, s')) :
    Called ninodes s a r s' := by
  have hfiles : t.files = s.files := hu.frame.files
  rcases ht.openInode (hfiles ▸ h.files) (hfiles ▸ hp) hs with
    ⟨m, rfl, hready, hops, hstate, hnode'⟩ | ⟨hfail, -⟩
  · refine
      { ready := hready
        ops := by rw [hops, hu.frame.ops]; rfl
        state := by rw [hstate, hfiles]
        change := ?_
        failed := nofun }
    rw [hnode', hu.node]
    unfold opened
    split_ifs with htrunc
    · exact .trunc ip htrunc.2 rfl
    · exact .same (.refl _)
  · exact .failPut h ht hu hfail

theorem Called.openMade {path : List Byte} (h : Ready s) (hp : s.files.Alive p)
    (hcreate : s.beginOp.create ninodes p path .file 0 0 = .ok (some ip, t))
    (hflag : omode &&& O_CREATE ≠ 0) (ht : Work t [ip] [ip])
    (hmade : Made ninodes s dp n ip .file 0 0 t.node) (hframe : Frame s.beginOp t)
    (hs : t.openInode p ip omode = .ok (r, s')) :
    Called ninodes s (.open p (some path) omode) r s' := by
  have hfiles : t.files = s.files := hframe.files
  have hnew := hmade.type_new
  have hchange : Change ninodes s (.open p (some path) omode) t.node :=
    .make dp n ip .file 0 0 nofun nofun hmade
  rcases ht.openInode (hfiles ▸ h.files) (hfiles ▸ hp) hs with
    ⟨m, rfl, hready, hops, hstate, hnode'⟩ | ⟨hfail, hwhy⟩
  · have hsame : opened t.node ip omode = t.node := by
      unfold opened
      split_ifs
      · -- it has no contents
        have hempty : ({ t.node ip with bytes := [] } : Node) = t.node ip := by
          rw [hnew]
          rfl
        rw [hempty, update_eq_self]
      · rfl
    exact
      { ready := hready
        ops := by rw [hops, hframe.ops]; rfl
        state := by rw [hstate, hfiles]
        change := by rw [hnode', hsame]; exact hchange
        failed := nofun }
  · obtain ⟨u, hu, hend⟩ := bind_eq_ok.1 hfail
    cases hend
    obtain ⟨hw, hnode', hframe'⟩ := ht.iunlockput_made hmade hu
    have hframe'' := (hframe.trans hframe').endOp
    refine
      { ready := ⟨hw.endOp, by rw [hframe''.files]; exact h.files⟩
        ops := hframe''.ops
        state := by rw [hframe''.files]
        change := ?_
        failed := fun _ => .inr ⟨p, path, omode, ip, t, rfl, hflag, hcreate, hmade.free, ?_⟩ }
    · show Change ninodes s _ u.node
      rw [hnode']
      exact hchange
    · rw [hnew, hfiles] at hwhy
      exact hwhy.resolve_left nofun

theorem Ready.sysOpen (h : Ready s) (hp : s.files.Alive p)
    (hs : s.sysOpen ninodes p path omode = .ok (r, s')) :
    Called ninodes s (.open p path omode) r s' := by
  cases path with
  | none =>
    cases hs
    exact .unchanged h h.work ⟨rfl, .refl _⟩
  | some path =>
    unfold Sysfile.sysOpen at hs
    dsimp only at hs
    by_cases hflag : omode &&& O_CREATE ≠ 0
    · rw [if_pos hflag] at hs
      obtain ⟨⟨r1, t⟩, ht, hrest⟩ := bind_eq_ok.1 hs
      obtain ⟨hframe, hcase⟩ := h.work.beginOp.create hp (by decide : NodeType.file ≠ .free) ht
      rcases hcase with ⟨rfl, hnode, hw⟩ | ⟨ip, rfl, hw, hcase⟩
      · exact .fail h hw ⟨hnode, hframe⟩ hrest
      · rcases hcase with ⟨hnode, -, -⟩ | ⟨dp, n, hmade⟩
        · exact .openInode h hp hw ⟨hnode, hframe⟩ hrest
        · exact .openMade h hp ht hflag hw hmade.beginOp hframe hrest
    · rw [if_neg hflag] at hs
      rcases h.lookup hp hs with hfail | ⟨ip, s2, h2, hu, hrest2⟩
      · exact hfail
      by_cases hdir : (s2.node ip).type = .dir ∧ omode ≠ 0
      · rw [if_pos hdir] at hrest2
        exact .failPut h h2 hu hrest2
      · rw [if_neg hdir] at hrest2
        exact .openInode h hp h2 hu hrest2

/-! ### Every call -/

theorem Ready.exec (h : Ready s) (hp : s.files.Alive a.proc)
    (hs : s.exec ninodes a = .ok (r, s')) : Called ninodes s a r s' := by
  cases a with
  | «open» p path omode => exact h.sysOpen hp hs
  | close p fd => exact h.sysClose hp hs
  | link p old new => exact h.sysLink hp hs
  | unlink p path => exact h.sysUnlink hp hs
  | mkdir p path =>
    exact h.sysMake hp (by decide : NodeType.dir ≠ .free) (fun _ => ⟨p, path, rfl⟩) hs
  | mknod p path major minor =>
    exact h.sysMake hp (by decide : NodeType.device ≠ .free) nofun hs
  | chdir p path => exact h.sysChdir hp hs

theorem step_cases (hs : s.step ninodes a = some s') :
    s.files.Alive a.proc ∧ ∃ r, s.exec ninodes a = .ok (r, s') := by
  unfold step at hs
  split_ifs at hs with ha
  refine ⟨ha, ?_⟩
  cases hexec : s.exec ninodes a with
  | error e =>
    rw [hexec] at hs
    cases hs
  | ok x =>
    rw [hexec] at hs
    cases hs
    exact ⟨x.1, rfl⟩

theorem Ready.step (h : Ready s) (hs : s.step ninodes a = some s') :
    ∃ r, Called ninodes s a r s' := by
  obtain ⟨ha, r, hexec⟩ := step_cases hs
  exact ⟨r, h.exec ha hexec⟩

end Xv6.Sysfile
