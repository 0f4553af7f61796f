import Xv6.Sysfile.Calls

/-!
# Calls that fail

A call that returns -1 leaves the inodes, the reference counts, the locks and the log as they were,
on each of its failing paths but one: `sys_open` with `O_CREATE` makes the file before it looks for
a descriptor and an entry of the file table, and does not take it back when there is none.
-/

namespace Xv6.Sysfile

open Outcome Transition Finset Str

variable {ninodes : ℕ} {s s' : Sysfile}

/-- If the call makes a new file to open it, there is a free entry in the file table and a free
descriptor. -/
def HasRoom (ninodes : ℕ) (s : Sysfile) : Act → Prop
  | .open p (some path) omode =>
    omode &&& O_CREATE ≠ 0 → ∀ ip t, s.beginOp.create ninodes p path .file 0 0 = .ok (some ip, t) →
      (s.node ip).type = .free →
      (∃ f, (s.files.file f).ref = 0) ∧ ∃ fd, s.files.ofile p fd = none
  | _ => True

theorem hasRoom_iff {a : Act} : HasRoom ninodes s a ↔ ¬ OutOfFiles ninodes s a := by
  refine ⟨?_, fun h => ?_⟩
  · rintro h ⟨p, path, omode, ip, t, rfl, hflag, hcreate, hfree, hfull⟩
    obtain ⟨⟨f, hf⟩, fd, hfd⟩ := h hflag ip t hcreate hfree
    rcases hfull with hfull | hfull
    · exact hfull f hf
    · exact hfull fd hfd
  · unfold HasRoom
    split
    · intro hflag ip t hcreate hfree
      by_contra hfull
      rw [not_and_or, not_exists, not_exists] at hfull
      exact h ⟨_, _, _, ip, t, rfl, hflag, hcreate, hfree, hfull⟩
    · trivial

/-- A file that could not be opened is there. -/
theorem Ready.node_ne_of_outOfFiles {a : Act} (h : Ready s) (hp : s.files.Alive a.proc)
    (ho : OutOfFiles ninodes s a) (hs : s.exec ninodes a = .ok (none, s')) : s'.node ≠ s.node := by
  obtain ⟨p, path, omode, ip, t, rfl, hflag, hcreate, hfree, -⟩ := ho
  obtain ⟨hframe, hcase⟩ := h.work.beginOp.create hp (by decide : NodeType.file ≠ .free) hcreate
  rcases hcase with ⟨hr, -⟩ | ⟨ip', hr, ht, hcase⟩
  · cases hr
  cases hr
  rcases hcase with ⟨-, -, hused⟩ | ⟨dp, n, hmade⟩
  · exact absurd hfree hused
  have hfiles : t.files = s.files := hframe.files
  simp only [Sysfile.exec, Sysfile.sysOpen, if_pos hflag] at hs
  rw [hcreate] at hs
  rcases ht.openInode (hfiles ▸ h.files) (hfiles ▸ hp) hs with ⟨m, hm, -⟩ | ⟨hfail, -⟩
  · cases hm
  obtain ⟨u, hu, hend⟩ := bind_eq_ok.1 hfail
  cases hend
  intro hsame
  have hkept := hsame.symm.trans (ht.iunlockput_made hmade hu).2.node
  have htype := congrArg (fun N => (N ip).type) hkept
  rw [hmade.type_new, hfree] at htype
  cases htype

/-- Between calls the reference counts are those of the working directories and the open files. -/
theorem Ready.ref_eq (h : Ready s) (i : ℕ) : s.ref i = s.users i := by
  rw [h.work.refs, List.count_nil, add_zero]

/-- **When a failed call leaves the tree unchanged.** After every sequence of calls, if a call
returns -1, then the directories, link counts, file contents and allocated inodes are as before the
call, and so are the reference counts, no inode is locked, and `begin_op` has been matched by
`end_op`, exactly if the call did not make a file that it had no room to open. -/
theorem failed_call_changes_nothing_iff {s₀ : Sysfile} (h₀ : Ready s₀) {tr : List Act}
    (hr : Reach (step ninodes) Always s₀ tr s) {a : Act}
    (ha : s.files.Alive a.proc) (hs : s.exec ninodes a = .ok (none, s')) :
    (s'.node = s.node ∧ s'.ref = s.ref ∧ (∀ i, s'.locked i = false) ∧ s'.ops = s.ops) ↔
      HasRoom ninodes s a := by
  have hready : Ready s :=
    hr.state_invariant h₀ fun _ _ _ hi _ hs => (hi.step hs).elim fun _ hc => hc.ready
  have hcall := hready.exec ha hs
  rw [hasRoom_iff]
  refine ⟨fun hsame ho => hready.node_ne_of_outOfFiles ha ho hs hsame.1, fun hroom => ?_⟩
  have hu := (hcall.failed rfl).resolve_right hroom
  refine ⟨hu.node, funext fun i => ?_, fun i => ?_, hcall.ops⟩
  · rw [hcall.ready.ref_eq, hready.ref_eq, hu.frame.users]
  · have hnot : s'.locked i ≠ true := fun hl => nomatch (hcall.ready.work.locked i).1 hl
    simpa using hnot

/-- After `userinit`, with an empty disk: process 0 is in the root directory. -/
def boot : Sysfile where
  node i := if i = ROOTINO then
      ⟨.dir, 0, 0, 1, Slots.link (Slots.link [] dot ROOTINO) dotdot ROOTINO, []⟩
    else ⟨.free, 0, 0, 0, [], []⟩
  ref i := if i = ROOTINO then 1 else 0
  valid _ := false
  locked _ := false
  ops := 0
  cwd _ := ROOTINO
  files :=
    { file := fun _ => ⟨.none, 0, false, false, 0, 0, 0, 0⟩
      ofile := fun _ _ => none
      pipe := fun _ => ⟨0, 0⟩
      freelist := []
      held := []
      state := fun p => if p = 0 then .runnable else .unused
      initproc := 0
      allocs := fun _ => 0
      frees := fun _ => 0 }

theorem alive_boot (p : ProcId) : boot.files.Alive p ↔ p = 0 := by
  by_cases hp : p = 0 <;> simp [Ftable.Alive, boot, hp]

theorem users_boot (i : ℕ) : boot.users i = if i = ROOTINO then 1 else 0 := by
  have hfiles : (univ.filter fun f => OnInode (boot.files.file f) i) = ∅ := by
    ext f
    simp [OnInode, boot]
  rw [users, hfiles, card_empty, add_zero]
  split_ifs with hi
  · have hone : (univ.filter fun p => boot.files.Alive p ∧ boot.cwd p = i) = {0} := by
      ext p
      rw [mem_filter, alive_boot, mem_singleton]
      exact ⟨fun h => h.2.1, fun h => ⟨mem_univ p, h, hi.symm⟩⟩
    rw [hone, card_singleton]
  · have hnone : (univ.filter fun p => boot.files.Alive p ∧ boot.cwd p = i) = ∅ := by
      ext p
      simp [boot, Ne.symm hi]
    rw [hnone, card_empty]

theorem ready_boot : Ready boot where
  work :=
    { refs := fun i => by rw [users_boot]; rfl
      locked := fun i => by simp [boot]
      sub := nofun
      loaded := nofun
      linked := fun i ht hl => by
        by_cases hi : i = ROOTINO
        · simp [boot, hi] at hl
        · simp [boot, hi] at ht
      typed := fun i _ hv => by simp [boot] at hv }
  files := Ftable.Start.inv
    { file := fun _ => ⟨rfl, rfl⟩
      ofile := fun _ _ => rfl
      nodup := by decide
      allocs := fun _ => rfl
      frees := fun _ => rfl }

/-- A file `f` and a directory `d` are made. -/
def makeTwo : List Act := [.open 0 (some [102]) O_CREATE, .mkdir 0 (some [100])]

/-- `link("f", "x/y")` raises the link count and takes it back, and `open("d", O_CREATE)` finds a
directory. -/
theorem failed_call_changes_nothing_two : ∃ s s₁ s₂,
    Reach (step 200) Always boot makeTwo.reverse s ∧
    s.exec 200 (.link 0 (some [102]) (some [120, 47, 121])) = .ok (none, s₁) ∧
    s.exec 200 (.open 0 (some [100]) O_CREATE) = .ok (none, s₂) ∧
    (s.node 2).nlink = 1 ∧ s₁.node = s.node ∧ s₁.ref = s.ref ∧ s₂.node = s.node ∧
    s₂.ref = s.ref := by
  obtain ⟨s, hs, hlink, hopen, hfile, hfd, hnlink⟩ : ∃ s ∈ run (step 200) boot makeTwo,
      (s.exec 200 (.link 0 (some [102]) (some [120, 47, 121]))).toOption.map Prod.fst = some none ∧
      (s.exec 200 (.open 0 (some [100]) O_CREATE)).toOption.map Prod.fst = some none ∧
      (s.files.file ⟨5, by decide⟩).ref = 0 ∧ s.files.ofile 0 5 = none ∧
      (s.node 2).nlink = 1 := by decide
  have hreach := reach_always hs
  have hstate : s.files.state = boot.files.state := by
    refine hreach.state_invariant (I := fun s => Ready s ∧ s.files.state = boot.files.state)
      ⟨ready_boot, rfl⟩ (fun s a s' hi _ hs => ?_) |>.2
    obtain ⟨r, hc⟩ := hi.1.step hs
    exact ⟨hc.ready, hc.state.trans hi.2⟩
  have halive : s.files.Alive 0 := (alive_congr hstate 0).2 ((alive_boot 0).2 rfl)
  obtain ⟨⟨r₁, s₁⟩, hs₁, hr₁⟩ := Option.map_eq_some_iff.1 hlink
  obtain ⟨⟨r₂, s₂⟩, hs₂, hr₂⟩ := Option.map_eq_some_iff.1 hopen
  obtain rfl : r₁ = none := hr₁
  obtain rfl : r₂ = none := hr₂
  have hexec₁ := toOption_eq_some.1 hs₁
  have hexec₂ := toOption_eq_some.1 hs₂
  have h₁ := (failed_call_changes_nothing_iff ready_boot hreach
    (a := .link 0 (some [102]) (some [120, 47, 121])) halive hexec₁).2 trivial
  have h₂ := (failed_call_changes_nothing_iff ready_boot hreach
    (a := .open 0 (some [100]) O_CREATE) halive hexec₂).2 fun _ _ _ _ _ => ⟨⟨_, hfile⟩, _, hfd⟩
  exact ⟨s, s₁, s₂, hreach, hexec₁, hexec₂, hnlink, h₁.1, h₁.2.1, h₂.1, h₂.2.1⟩

/-- `/` is opened until there is no descriptor left. -/
def openAll : List Act := List.replicate NOFILE (.open 0 (some [47]) 0)

/-- `open("f", O_CREATE)` fails, and the file is there. -/
theorem open_create_without_descriptor : ∃ s s', Reach (step 200) Always boot openAll.reverse s ∧
    s.exec 200 (.open 0 (some [102]) O_CREATE) = .ok (none, s') ∧
    (s.node 2).type = .free ∧ (s'.node 2).type = .file ∧
    (s.node ROOTINO).slots.lookup (key (ofList [102])) = none ∧
    (s'.node ROOTINO).slots.lookup (key (ofList [102])) = some 2 := by
  obtain ⟨s, hs, ⟨r, s'⟩, hs', rfl, hfree, hfile, hnone, hsome⟩ : ∃ s ∈ run (step 200) boot openAll,
      ∃ x ∈ (s.exec 200 (.open 0 (some [102]) O_CREATE)).toOption,
      x.1 = none ∧ (s.node 2).type = .free ∧ (x.2.node 2).type = .file ∧
      (s.node ROOTINO).slots.lookup (key (ofList [102])) = none ∧
      (x.2.node ROOTINO).slots.lookup (key (ofList [102])) = some 2 := by decide +kernel
  exact ⟨s, s', reach_always hs, toOption_eq_some.1 hs',
    hfree, hfile, hnone, hsome⟩

end Xv6.Sysfile
