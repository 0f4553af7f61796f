import Xv6.File.Counts

/-!
# Reference counts of open files, over all sequences of calls

Every call that uses the file table leaves nothing owed, whether it succeeds or fails, and a call
that fails leaves the descriptors as they were.  So between calls the reference counts are right, a
file is free when its count is zero, and the page of a pipe is in use as long as a descriptor points
to one of its ends.
-/

namespace Xv6.Ftable

open Function Transition List
open Tally

variable {s s' : Ftable} {f g rf wf : FileId} {p q : ProcId} {fd : Fd} {pg : ℕ} {w : Bool}
  {e : FileId → ℤ} {new : List FileId} {r : Option ℕ}

/-! ### Descriptors -/

theorem ind_none_eq : (ind none : FileId → ℤ) = 0 := funext fun _ => ind_none

section

variable (h : s.Inv e new) (ha : s.Alive p)

include h ha

theorem Inv.setFd (fd : Fd) (v : Option FileId) :
    (s.setFd p fd v).Inv (e + ind (s.ofile p fd) - ind v) new :=
  ⟨h.counts.setFd ha fd v, h.pipes.congr (fun _ _ _ => Iff.rfl) h.pipes.sides rfl rfl rfl rfl rfl⟩

theorem Inv.store (hfd : s.ofile p fd = none) (f : FileId) :
    (s.setFd p fd (some f)).Inv (e - ind (some f)) new := by
  have hs := h.setFd ha fd (some f)
  rwa [hfd, ind_none_eq, add_zero] at hs

theorem Inv.take (hfd : s.ofile p fd = some f) :
    (s.setFd p fd none).Inv (e + ind (some f)) new := by
  have hs := h.setFd ha fd none
  rwa [hfd, ind_none_eq, sub_zero] at hs

theorem Inv.fdalloc {r : Option Fd} (hs : s.fdalloc p f = (r, s')) : r = none ∧ s' = s ∨
    ∃ fd, r = some fd ∧ s.ofile p fd = none ∧ s'.Inv (e - ind (some f)) new ∧
      s' = s.setFd p fd (some f) := by
  unfold Ftable.fdalloc at hs
  split at hs
  · cases hs
    exact .inl ⟨rfl, rfl⟩
  next fd hfind =>
    cases hs
    have hfd : s.ofile p fd = none := by simpa using find?_some hfind
    exact .inr ⟨fd, rfl, hfd, h.store ha hfd f, rfl⟩

end

@[simp] theorem setFd_ofile_self (v : Option FileId) : (s.setFd p fd v).ofile p fd = v := by
  simp [Ftable.setFd]

theorem setFd_ofile_of_ne {k : Fd} (hk : k ≠ fd) (v : Option FileId) :
    (s.setFd p fd v).ofile p k = s.ofile p k := by
  simp [Ftable.setFd, update_of_ne hk]

theorem setFd_comm {k : Fd} (hk : fd ≠ k) (u v : Option FileId) :
    (s.setFd p fd u).setFd p k v = (s.setFd p k v).setFd p fd u := by
  simp only [Ftable.setFd, update_self, update_idem, update_comm hk]

theorem ofile_restored (hfd : s.ofile p fd = none)
    (hofile : s'.ofile = (s.setFd p fd (some f)).ofile) : (s'.setFd p fd none).ofile = s.ofile := by
  have hrow : update (s.ofile p) fd none = s.ofile p :=
    update_eq_self_iff.2 hfd.symm
  simp only [Ftable.setFd] at hofile ⊢
  rw [hofile, update_self, update_idem, update_idem, hrow,
    update_eq_self]

theorem argfd_eq_some {n : ℤ} (h : s.argfd p n = some (fd, f)) : s.ofile p fd = some f := by
  unfold argfd at h
  split_ifs at h with hn
  obtain ⟨g, hg, heq⟩ := Option.map_eq_some_iff.1 h
  cases heq
  exact hg

/-! ### Calls that end well -/

/-- The call returns, nothing is owed, and if it fails the descriptors are as before. -/
def Settles (s : Ftable) (x : Return) : Prop :=
  ∃ r s', x = .ok (r, s') ∧ s'.Inv 0 [] ∧ (r = none → s'.ofile = s.ofile)

theorem Inv.unchanged (h : s.Inv 0 []) : s.Settles (.ok (none, s)) :=
  ⟨none, s, rfl, h, fun _ => rfl⟩

theorem Inv.ref_pos (h : s.Inv e new) (he : 1 ≤ e f) : 1 ≤ (s.file f).ref := by
  have := h.counts.refs f
  have := slots_nonneg s f
  omega

theorem Inv.sysDup (h : s.Inv 0 []) (ha : s.Alive p) (n : ℤ) : s.Settles (s.sysDup p n) := by
  unfold Ftable.sysDup
  cases hfd : s.argfd p n with
  | none => exact h.unchanged
  | some x =>
    obtain ⟨fd, f⟩ := x
    have hslot := argfd_eq_some hfd
    simp only
    rcases hr : s.fdalloc p f with ⟨r, s1⟩
    rcases h.fdalloc ha hr with ⟨rfl, rfl⟩ | ⟨k, rfl, hk, h1, rfl⟩
    · exact h.unchanged
    · -- the new descriptor is not counted yet, but the old one is
      have href : 1 ≤ (s.file f).ref := by
        have := h.counts.refs f
        have := one_le_slots hslot
        simp only [Pi.zero_apply] at *
        omega
      obtain ⟨m, hdup, h2⟩ := h1.filedup href
      rw [sub_add_cancel] at h2
      simp only [hdup]
      exact ⟨_, _, rfl, h2, nofun⟩

theorem Inv.sysClose (h : s.Inv 0 []) (ha : s.Alive p) (n : ℤ) : s.Settles (s.sysClose p n) := by
  unfold Ftable.sysClose
  cases hfd : s.argfd p n with
  | none => exact h.unchanged
  | some x =>
    obtain ⟨fd, f⟩ := x
    have h1 := h.take ha (argfd_eq_some hfd)
    obtain ⟨s2, hclose, h2, -⟩ := h1.fileclose (f := f) [] (h1.ref_pos (by simp))
      nofun (by simp)
    rw [add_sub_cancel_right] at h2
    simp only [hclose]
    exact ⟨_, _, rfl, h2, nofun⟩

/-! ### `sys_open` -/

theorem Inv.openFile (h : s.Inv e [f]) (x : Target) : (s.openFile f x).Inv e [] := by
  have hfresh := h.counts.fresh f (mem_singleton_self f)
  have hnew := h.counts.not_pipe (mem_singleton_self f)
  unfold Ftable.openFile
  refine ⟨h.counts.setFile ?_ ?_ (fun _ _ => rfl) ?_ nofun fun g hg => ?_,
    h.pipes.setFile_other hnew ?_⟩
  · split_ifs <;> exact hfresh.le
  · split_ifs <;> simp
  · split_ifs <;> simp [hfresh.ne']
  · simp [hg]
  · split_ifs <;> nofun

theorem Inv.sysOpen (h : s.Inv 0 []) (ha : s.Alive p) (x : Option Target) :
    s.Settles (s.sysOpen p x) := by
  cases x with
  | none => exact h.unchanged
  | some x =>
    unfold Ftable.sysOpen
    simp only
    split_ifs with hmajor
    · exact h.unchanged
    rcases hr : s.filealloc with ⟨r, s1⟩
    rcases h.filealloc hr with ⟨rfl, rfl⟩ | ⟨f, rfl, -, h1, hs1⟩
    · exact h.unchanged
    simp only
    have ha1 : s1.Alive p := by rw [hs1]; exact ha
    have hofile : s1.ofile = s.ofile := by rw [hs1]; rfl
    rcases hr2 : s1.fdalloc p f with ⟨r, s2⟩
    rcases h1.fdalloc ha1 hr2 with ⟨rfl, rfl⟩ | ⟨fd, rfl, hfd, h2, rfl⟩
    · have hone : (s2.file f).ref = 1 := by simp [hs1, setFile]
      obtain ⟨s3, hclose, h3, hofile3, -⟩ := h1.fileclose (f := f) [] hone.ge
        (fun _ => hone) (by simp)
      rw [add_sub_cancel_right] at h3
      simp only [hclose]
      exact ⟨_, _, rfl, h3, fun _ => hofile3.trans hofile⟩
    · rw [add_sub_cancel_right] at h2
      exact ⟨_, _, rfl, h2.openFile x, by simp⟩

/-! ### `sys_pipe` -/

theorem Inv.pipeInit (h : s.Inv e [wf, rf]) (hne : rf ≠ wf) {rest : List ℕ}
    (hlist : s.freelist = pg :: rest) :
    ({ s with freelist := rest }.pipeInit rf wf pg).Inv e [] := by
  have hr := h.counts.fresh rf (by simp)
  have hw := h.counts.fresh wf (by simp)
  have hrt := h.counts.not_pipe (f := rf) (by simp)
  have hwt := h.counts.not_pipe (f := wf) (by simp)
  constructor
  · -- both files get a type
    set s1 : Ftable := { s with
      freelist := rest
      pipe := update s.pipe pg ⟨1, 1⟩
      allocs := update s.allocs pg (s.allocs pg + 1) }
    have h1 : s1.Counts e [wf, rf] := h.counts.congr rfl rfl rfl
    have h2 : (s1.setFile rf { s.file rf with
        type := .pipe, readable := true, writable := false, pipe := pg }).Counts e [wf] :=
      h1.setFile hr.le (by simp [s1]) (fun _ _ => rfl) (by simp [hr.ne', hne]) (by simp [hne])
        (by simp +contextual)
    refine h2.setFile (by simpa [setFile, hne.symm, s1] using hw.le) ?_ (fun _ _ => rfl)
      (by simp [setFile, hne.symm, hw.ne']) nofun (by simp +contextual)
    exact (Int.sub_self _).trans (Int.sub_self _).symm
  · have hend : ∀ g pg' w, ({ s with freelist := rest }.pipeInit rf wf pg).IsEnd g pg' w ↔
        s.IsEnd g pg' w ∨ pg' = pg ∧ (g = rf ∧ w = false ∨ g = wf ∧ w = true) := by
      intro g pg' w
      unfold IsEnd Ftable.pipeInit setFile
      by_cases hgw : g = wf
      · subst hgw
        cases w with
        | false => simp [hne.symm, hwt]
        | true => simpa [hwt] using eq_comm
      · by_cases hgr : g = rf
        · subst hgr
          cases w with
          | false => simpa [hgw, hrt] using eq_comm
          | true => simp [hgw, hrt]
        · simp [hgw, hgr]
    refine h.pipes.alloc hlist hend (fun g => ?_) rfl rfl rfl rfl rfl
    unfold Ftable.pipeInit setFile
    by_cases hgw : g = wf
    · subst hgw
      simp
    · by_cases hgr : g = rf
      · subst hgr
        simp [hgw]
      · simpa [hgw, hgr] using h.pipes.sides g

/-- `if(*f) fileclose(*f)` for a file that is still new. -/
theorem Inv.closeNew (h : s.Inv e new) (new' : List FileId)
    (hone : (s.file f).ref = 1) (hnew : ∀ g, g ∈ new' ↔ g ∈ new ∧ g ≠ f) :
    ∃ s', s.closeIf (some f) = .ok s' ∧ s'.Inv (e - ind (some f)) new' ∧ s'.ofile = s.ofile ∧
      s'.state = s.state :=
  h.fileclose new' hone.ge (fun _ => hone) hnew

/-- `pipealloc` gives references to both ends, or nothing. -/
theorem Inv.pipealloc (h : s.Inv 0 []) :
    ∃ r s', s.pipealloc = .ok (r, s') ∧ s'.ofile = s.ofile ∧ s'.state = s.state ∧
      (r = none ∧ s'.Inv 0 [] ∨
        ∃ rf wf, r = some (rf, wf) ∧ s'.Inv (ind (some rf) + ind (some wf)) []) := by
  unfold Ftable.pipealloc
  rcases hr : s.filealloc with ⟨r, s1⟩
  rcases h.filealloc hr with ⟨rfl, rfl⟩ | ⟨rf, rfl, -, h1, hs1⟩
  · exact ⟨_, _, rfl, rfl, rfl, .inl ⟨rfl, h⟩⟩
  have hofile1 : s1.ofile = s.ofile := by rw [hs1]; rfl
  have hstate1 : s1.state = s.state := by rw [hs1]; rfl
  have hone1 : (s1.file rf).ref = 1 := by simp [hs1, setFile]
  rw [zero_add] at h1
  simp only
  rcases hr2 : s1.filealloc with ⟨r, s2⟩
  rcases h1.filealloc hr2 with ⟨rfl, rfl⟩ | ⟨wf, rfl, hwf, h2, hs2⟩
  · obtain ⟨s3, hclose, h3, hofile3, hstate3⟩ := h1.closeNew [] hone1 (by simp)
    rw [sub_self] at h3
    simp only [pipeBad, hclose]
    exact ⟨_, _, rfl, hofile3.trans hofile1, hstate3.trans hstate1, .inl ⟨rfl, h3⟩⟩
  have hofile2 : s2.ofile = s.ofile := by rw [hs2]; exact hofile1
  have hstate2 : s2.state = s.state := by rw [hs2]; exact hstate1
  have hne : rf ≠ wf := fun heq => hwf (by simp [heq])
  simp only
  cases hlist : s2.freelist with
  | cons pg rest =>
    exact ⟨_, _, rfl, hofile2, hstate2, .inr ⟨rf, wf, rfl, h2.pipeInit hne hlist⟩⟩
  | nil =>
    have hrf : (s2.file rf).ref = 1 := by simp [hs2, setFile, hne, hone1]
    have hnew : ∀ g, g ∈ [wf] ↔ g ∈ [wf, rf] ∧ g ≠ rf := by
      intro g
      rw [mem_pair, mem_singleton]
      constructor
      · rintro rfl
        exact ⟨.inl rfl, hne.symm⟩
      · rintro ⟨rfl | rfl, hg⟩
        · rfl
        · exact absurd rfl hg
    obtain ⟨s3, hclose3, h3, hofile3, hstate3⟩ := h2.closeNew [wf] hrf hnew
    have hcancel : (ind (some rf) + ind (some wf) - ind (some rf) : FileId → ℤ) =
        ind (some wf) := by
      abel
    rw [hcancel] at h3
    have hwf3 : (s3.file wf).ref = 1 := by
      have href2 := h2.counts.refs wf
      have href3 := h3.counts.refs wf
      have hslots : s3.slots = s2.slots := funext fun x => by simp only [slots, hofile3]
      have hwf2 : (s2.file wf).ref = 1 := by simp [hs2, setFile]
      rw [hslots] at href3
      simp only [Pi.add_apply, ind_self, ind_some, if_neg hne] at href2 href3
      omega
    obtain ⟨s4, hclose4, h4, hofile4, hstate4⟩ := h3.closeNew [] hwf3 (by simp)
    rw [sub_self] at h4
    simp only [pipeBad, hclose3, Outcome.ok_bind, hclose4]
    exact ⟨_, _, rfl, (hofile4.trans hofile3).trans hofile2,
      (hstate4.trans hstate3).trans hstate2, .inl ⟨rfl, h4⟩⟩

theorem Inv.unpipe (h : s.Inv (ind (some rf) + ind (some wf)) []) :
    ∃ s', s.unpipe rf wf = .ok (none, s') ∧ s'.Inv 0 [] ∧ s'.ofile = s.ofile := by
  have hrf : 1 ≤ (ind (some rf) + ind (some wf) : FileId → ℤ) rf := by
    have : 0 ≤ ind (some wf) rf := ind_nonneg
    rw [Pi.add_apply, ind_self]
    omega
  obtain ⟨s1, hclose1, h1, hofile1, -⟩ := h.fileclose (f := rf) [] (h.ref_pos hrf) nofun (by simp)
  have hcancel : (ind (some rf) + ind (some wf) - ind (some rf) : FileId → ℤ) = ind (some wf) := by
    abel
  rw [hcancel] at h1
  obtain ⟨s2, hclose2, h2, hofile2, -⟩ := h1.fileclose (f := wf) [] (h1.ref_pos (by simp)) nofun
    (by simp)
  rw [sub_self] at h2
  simp only [Ftable.unpipe, hclose1, Outcome.ok_bind, hclose2]
  exact ⟨s2, rfl, h2, hofile2.trans hofile1⟩

theorem Inv.sysPipe (h : s.Inv 0 []) (ha : s.Alive p) (out0 out1 : Bool) :
    s.Settles (s.sysPipe p out0 out1) := by
  obtain ⟨r, s1, hpipe, hofile1, hstate1, hcase⟩ := h.pipealloc
  unfold Ftable.sysPipe
  rw [hpipe]
  rcases hcase with ⟨rfl, h1⟩ | ⟨rf, wf, rfl, h1⟩
  · exact ⟨_, _, rfl, h1, fun _ => hofile1⟩
  have ha1 : s1.Alive p := by
    unfold Alive at ha ⊢
    rwa [hstate1]
  simp only [Outcome.ok_bind]
  rcases hr2 : s1.fdalloc p rf with ⟨r, s2⟩
  rcases h1.fdalloc ha1 hr2 with ⟨rfl, rfl⟩ | ⟨fd0, rfl, hfd0, h2, rfl⟩
  · obtain ⟨s3, hun, h3, hofile3⟩ := h1.unpipe
    exact ⟨_, _, hun, h3, fun _ => hofile3.trans hofile1⟩
  -- the first descriptor is stored
  have hback2 : ((s1.setFd p fd0 (some rf)).setFd p fd0 none).Inv
      (ind (some rf) + ind (some wf)) [] := by
    have hback := h2.take ha1 (setFd_ofile_self _)
    rwa [sub_add_cancel] at hback
  simp only
  rcases hr3 : (s1.setFd p fd0 (some rf)).fdalloc p wf with ⟨r, s3⟩
  rcases h2.fdalloc ha1 hr3 with ⟨rfl, rfl⟩ | ⟨fd1, rfl, hfd1, h3, rfl⟩
  · obtain ⟨s4, hun, h4, hofile4⟩ := hback2.unpipe
    refine ⟨_, _, hun, h4, fun _ => ?_⟩
    rw [hofile4, ofile_restored hfd0 rfl, hofile1]
  have hne : fd0 ≠ fd1 := by
    rintro rfl
    rw [setFd_ofile_self] at hfd1
    cases hfd1
  simp only
  split_ifs with hout
  · have hzero : (ind (some rf) + ind (some wf) - ind (some rf) - ind (some wf) :
        FileId → ℤ) = 0 := by
      abel
    rw [hzero] at h3
    exact ⟨_, _, rfl, h3, nofun⟩
  · -- both descriptors are freed again
    set s3 := (s1.setFd p fd0 (some rf)).setFd p fd1 (some wf) with hs3
    have hrf : s3.ofile p fd0 = some rf := by rw [hs3, setFd_ofile_of_ne hne, setFd_ofile_self]
    have hwf : (s3.setFd p fd0 none).ofile p fd1 = some wf := by
      rw [setFd_ofile_of_ne hne.symm, hs3, setFd_ofile_self]
    have h4 := (h3.take ha1 hrf).take ha1 hwf
    have hcredit : (ind (some rf) + ind (some wf) - ind (some rf) - ind (some wf) + ind (some rf) +
        ind (some wf) : FileId → ℤ) = ind (some rf) + ind (some wf) := by
      abel
    rw [hcredit] at h4
    obtain ⟨s5, hun, h5, hofile5⟩ := h4.unpipe
    refine ⟨_, _, hun, h5, fun _ => ?_⟩
    have hfd1' : s1.ofile p fd1 = none := by rwa [setFd_ofile_of_ne hne.symm] at hfd1
    have hfd0' : (s1.setFd p fd1 (some wf)).ofile p fd0 = none := by rwa [setFd_ofile_of_ne hne]
    have hfirst : (s3.setFd p fd0 none).ofile = (s1.setFd p fd1 (some wf)).ofile :=
      ofile_restored hfd0' (congrArg Ftable.ofile (setFd_comm hne (some rf) (some wf)))
    rw [hofile5, ofile_restored hfd1' hfirst, hofile1]

/-! ### `fork` and `exit` -/

/-- The child gets a reference to every file of the parent. -/
theorem Inv.forkFiles (h : s.Inv 0 []) (p : ProcId) (hq : s.Alive q) {fds : List Fd}
    (hnodup : fds.Nodup) (hfree : ∀ fd ∈ fds, s.ofile q fd = none) :
    ∃ s', Ftable.forkFiles p q fds s = .ok s' ∧ s'.Inv 0 [] := by
  induction fds generalizing s with
  | nil => exact ⟨s, rfl, h⟩
  | cons fd fds ih =>
    obtain ⟨hnot, hnodup⟩ := nodup_cons.1 hnodup
    unfold Ftable.forkFiles
    cases hfd : s.ofile p fd with
    | none => exact ih h hq hnodup fun k hk => hfree k (mem_cons_of_mem fd hk)
    | some f =>
      have href : 1 ≤ (s.file f).ref := by
        have := h.counts.refs f
        have := one_le_slots hfd
        simp only [Pi.zero_apply] at *
        omega
      obtain ⟨n, hdup, h1⟩ := h.filedup href
      have hslot : (s.setFile f { s.file f with ref := n }).ofile q fd = none :=
        hfree fd mem_cons_self
      have h2 := h1.store hq hslot f
      rw [add_sub_cancel_right] at h2
      simp only [hdup, Outcome.ok_bind]
      refine ih h2 hq hnodup fun k hk => ?_
      rw [setFd_ofile_of_ne (by rintro rfl; exact hnot hk)]
      exact hfree k (mem_cons_of_mem fd hk)

/-- The state of a process changes, and its descriptors are free unless it is alive. -/
theorem Inv.setState (h : s.Inv e new) (x : ProcState)
    (hx : x = .unused ∨ x = .zombie → ∀ fd, s.ofile p fd = none) :
    Inv { s with state := update s.state p x } e new where
  counts :=
    { refs := h.counts.refs
      typed := h.counts.typed
      fresh := h.counts.fresh
      nonneg := h.counts.nonneg
      closed := fun q hq fd => by
        by_cases hqp : q = p
        · subst hqp
          refine hx ?_ fd
          simpa only [Alive, update_self, not_and_or, not_not] using hq
        · refine h.counts.closed q ?_ fd
          simpa only [Alive, update_of_ne hqp] using hq }
  pipes := h.pipes.congr (fun _ _ _ => Iff.rfl) h.pipes.sides rfl rfl rfl rfl rfl

theorem Inv.fork (h : s.Inv 0 []) (p : ProcId) (mem : Bool) : s.Settles (s.fork p mem) := by
  unfold Ftable.fork
  split
  · exact h.unchanged
  next q hfind =>
    split_ifs with hmem
    · have hq : s.state q = .unused := by simpa using find?_some hfind
      have hclosed := h.counts.closed q fun hqa => hqa.1 hq
      have h1 : Inv { s with state := update s.state q .used } 0 [] :=
        h.setState .used (by simp)
      have hq1 : Alive { s with state := update s.state q .used } q := by
        simp [Alive]
      obtain ⟨s2, hfork, h2⟩ := h1.forkFiles p hq1 (nodup_finRange NOFILE) fun fd _ => hclosed fd
      simp only [hfork]
      exact ⟨_, _, rfl, h2.setState .runnable (by simp), by simp⟩
    · exact h.unchanged

theorem Inv.exitFiles (h : s.Inv 0 []) (hp : s.Alive p) (fds : List Fd) :
    ∃ s', Ftable.exitFiles p fds s = .ok s' ∧ s'.Inv 0 [] ∧
      ∀ fd, fd ∈ fds ∨ s.ofile p fd = none → s'.ofile p fd = none := by
  induction fds generalizing s with
  | nil => exact ⟨s, rfl, h, fun fd hfd => hfd.resolve_left (by simp)⟩
  | cons fd fds ih =>
    unfold Ftable.exitFiles
    cases hfd : s.ofile p fd with
    | none =>
      obtain ⟨s', hs', h', hclosed⟩ := ih h hp
      refine ⟨s', hs', h', fun k hk => hclosed k ?_⟩
      rcases hk with hk | hk
      · rcases mem_cons.1 hk with rfl | hk
        · exact .inr hfd
        · exact .inl hk
      · exact .inr hk
    | some f =>
      have href : 1 ≤ (s.file f).ref := by
        have := h.counts.refs f
        have := one_le_slots hfd
        simp only [Pi.zero_apply] at *
        omega
      obtain ⟨s1, hclose, h1, hofile1, hstate1⟩ := h.fileclose [] href nofun (by simp)
      have hp1 : s1.Alive p := by
        unfold Alive at hp ⊢
        rwa [hstate1]
      -- the file is closed before the descriptor is freed
      have h2 := h1.take hp1 (by rw [hofile1]; exact hfd)
      rw [sub_add_cancel] at h2
      obtain ⟨s', hs', h', hclosed⟩ := ih h2 hp1
      simp only [hclose, Outcome.ok_bind]
      refine ⟨s', hs', h', fun k hk => hclosed k ?_⟩
      by_cases hk' : k = fd
      · subst hk'
        exact .inr (setFd_ofile_self _)
      · rw [setFd_ofile_of_ne hk', hofile1]
        exact hk.imp_left fun hk => (mem_cons.1 hk).resolve_left hk'

theorem Inv.exit (h : s.Inv 0 []) (hp : s.Alive p) (hinit : p ≠ s.initproc) :
    s.Settles (s.exit p) := by
  obtain ⟨s1, hexit, h1, hclosed⟩ := h.exitFiles hp (finRange NOFILE)
  unfold Ftable.exit
  rw [if_neg hinit, hexit]
  exact ⟨_, _, rfl, h1.setState .zombie fun _ fd => hclosed fd (.inl (mem_finRange fd)), nofun⟩

/-! ### Sequences of calls -/

/-- Pages move between the free list and the rest of the kernel. -/
theorem Inv.movePage (h : s.Inv e new) {freelist held : List ℕ}
    (hperm : (freelist ++ held).Perm (s.freelist ++ s.held)) :
    Inv { s with freelist := freelist, held := held } e new where
  counts := h.counts.congr rfl rfl rfl
  pipes :=
    { sides := h.pipes.sides
      unique := h.pipes.unique
      flags := h.pipes.flags
      apart := fun pg hl => by
        have hold := h.pipes.apart pg hl
        rw [← not_or, ← mem_append] at hold ⊢
        rwa [hperm.mem_iff]
      nodup := hperm.nodup_iff.2 h.pipes.nodup
      live := h.pipes.live
      dead := h.pipes.dead }

theorem Inv.exec (h : s.Inv 0 []) {a : Act} (ha : s.Enabled a)
    (hinit : ∀ p, a = .exit p → p ≠ s.initproc) : s.Settles (s.exec a) := by
  cases a with
  | «open» p x => exact h.sysOpen ha x
  | dup p fd => exact h.sysDup ha fd
  | close p fd => exact h.sysClose ha fd
  | pipe p out0 out1 => exact h.sysPipe ha out0 out1
  | fork p mem => exact h.fork p mem
  | exit p => exact h.exit ha (hinit p rfl)
  | reap q =>
    have hq : s.state q = .zombie := ha
    have hclosed := h.counts.closed q fun hqa => hqa.2 hq
    exact ⟨_, _, rfl, h.setState .unused fun _ => hclosed, nofun⟩
  | kalloc =>
    refine ⟨_, _, rfl, h.movePage ?_, nofun⟩
    rw [← append_assoc]
    refine List.Perm.append_right _ ?_
    cases s.freelist with
    | nil => exact .nil
    | cons pg rest => exact perm_append_comm
  | kfree pg =>
    refine ⟨_, _, rfl, h.movePage ?_, nofun⟩
    have hmem : pg ∈ s.held := ha
    rw [cons_append]
    exact (perm_middle.symm).trans (List.Perm.append_left _ (perm_cons_erase hmem).symm)

theorem Inv.step (h : s.Inv 0 []) {a : Act} (hs : s.step a = some s') : s'.Inv 0 [] := by
  unfold Ftable.step at hs
  split_ifs at hs with ha
  by_cases hinit : ∃ p, a = .exit p ∧ p = s.initproc
  · obtain ⟨p, rfl, rfl⟩ := hinit
    simp [Ftable.exec, Ftable.exit, Except.toOption] at hs
  · obtain ⟨r, t, hexec, ht, -⟩ := h.exec ha fun p hp heq => hinit ⟨p, hp, heq⟩
    rw [hexec] at hs
    cases hs
    exact ht

/-- No file is open, and no page has been a pipe. -/
structure Start (s : Ftable) : Prop where
  file : ∀ f, (s.file f).ref = 0 ∧ (s.file f).type = .none
  ofile : ∀ p fd, s.ofile p fd = none
  nodup : (s.freelist ++ s.held).Nodup
  allocs : ∀ pg, s.allocs pg = 0
  frees : ∀ pg, s.frees pg = 0

theorem Start.inv (h : s.Start) : s.Inv 0 [] := by
  have hnone : ∀ f pg w, ¬ s.IsEnd f pg w := fun f pg w hend => by
    cases (h.file f).2.symm.trans hend.1
  have hdead : ∀ pg, ¬ s.Live pg := fun pg ⟨f, w, hend⟩ => hnone f pg w hend
  exact
    { counts :=
        { refs := fun f => by
            rw [(h.file f).1, tally_eq_zero fun x => by rw [slots, h.ofile, ind_none]]
            rfl
          typed := fun f => by simp [h.file f]
          fresh := nofun
          nonneg := fun f => (h.file f).1.ge
          closed := fun p _ => h.ofile p }
      pipes :=
        { sides := fun f hf => by cases (h.file f).2.symm.trans hf
          unique := fun f _ pg w hend => absurd hend (hnone f pg w)
          flags := fun pg _ hl => absurd hl (hdead pg)
          apart := fun pg hl => absurd hl (hdead pg)
          nodup := h.nodup
          live := fun pg hl => absurd hl (hdead pg)
          dead := fun pg _ => by rw [h.allocs, h.frees] } }

theorem tally_eq_card (s : Ftable) (f : FileId) :
    tally s.slots (ind · f) =
      (Finset.univ.filter fun x : ProcId × Fd => s.ofile x.1 x.2 = some f).card := by
  simp only [tally, ind, Finset.sum_boole]
  rfl

/-- A descriptor points to an end of the pipe in the page. -/
def InUse (s : Ftable) (pg : ℕ) : Prop :=
  ∃ p fd f, s.ofile p fd = some f ∧ (s.file f).type = .pipe ∧ (s.file f).pipe = pg

theorem Inv.live_iff (h : s.Inv 0 []) (pg : ℕ) : s.Live pg ↔ s.InUse pg := by
  constructor
  · rintro ⟨f, w, htype, hpipe, -⟩
    have hne : (s.file f).ref ≠ 0 := fun hz => by
      cases ((h.counts.typed f).2 (.inl hz)).symm.trans htype
    -- without a descriptor the count would be zero
    by_contra hnone
    refine hne ((h.counts.refs f).trans ?_)
    rw [Pi.zero_apply, add_zero]
    refine tally_eq_zero fun y => if_neg fun hy => hnone ⟨y.1, y.2, f, hy, htype, hpipe⟩
  · rintro ⟨p, fd, f, -, htype, hpipe⟩
    exact ⟨f, _, htype, hpipe, rfl⟩

/-- **Open-file reference counting.** In every sequence of calls, failed ones among them, the
reference count of each file is the number of descriptors that point to it, and a file is free
exactly when its count is zero.  The page of a pipe has been allocated once more than it has been
freed while a descriptor points to one of its ends, and is then not on the free list; otherwise it
has been freed as often as allocated.  No call panics for a reference count, and one that fails
changes no descriptor and no reference count. -/
theorem open_file_references {s₀ : Ftable} (h₀ : s₀.Start) {tr : List Act}
    (h : Reach Ftable.step Always s₀ tr s) :
    (∀ f, (s.file f).ref =
      (Finset.univ.filter fun x : ProcId × Fd => s.ofile x.1 x.2 = some f).card) ∧
    (∀ f, (s.file f).type = .none ↔ (s.file f).ref = 0) ∧
    (∀ pg, s.InUse pg → s.allocs pg = s.frees pg + 1 ∧ pg ∉ s.freelist) ∧
    (∀ pg, ¬ s.InUse pg → s.allocs pg = s.frees pg) ∧ s.freelist.Nodup ∧
    ∀ a, s.Enabled a →
      (∀ x, s.exec a = .error x → x = .initExiting) ∧
      ∀ s', s.exec a = .ok (none, s') →
        s'.ofile = s.ofile ∧ ∀ f, (s'.file f).ref = (s.file f).ref := by
  have hinv : s.Inv 0 [] := h.state_invariant (I := fun s => s.Inv 0 []) h₀.inv
    fun _ _ _ hi _ hs => hi.step hs
  have hrefs : ∀ {s : Ftable}, s.Inv 0 [] → ∀ f, (s.file f).ref =
      (Finset.univ.filter fun x : ProcId × Fd => s.ofile x.1 x.2 = some f).card := by
    intro s hs f
    have href := hs.counts.refs f
    rwa [tally_eq_card, Pi.zero_apply, add_zero] at href
  refine ⟨hrefs hinv, fun f => ?_, fun pg hu => ?_, fun pg hu => ?_, ?_, fun a ha => ?_⟩
  · simpa using hinv.counts.typed f
  · have hl := (hinv.live_iff pg).2 hu
    exact ⟨hinv.pipes.live pg hl, (hinv.pipes.apart pg hl).1⟩
  · exact hinv.pipes.dead pg fun hl => hu ((hinv.live_iff pg).1 hl)
  · exact (nodup_append.1 hinv.pipes.nodup).1
  · by_cases hinit : ∃ p, a = .exit p ∧ p = s.initproc
    · obtain ⟨p, rfl, rfl⟩ := hinit
      have hexit : s.exec (.exit s.initproc) = .error .initExiting := if_pos rfl
      rw [hexit]
      refine ⟨fun x hx => ?_, nofun⟩
      cases hx
      rfl
    · obtain ⟨r, t, hexec, ht, hfail⟩ := hinv.exec ha fun p hp heq => hinit ⟨p, hp, heq⟩
      rw [hexec]
      refine ⟨nofun, fun s' hs' => ?_⟩
      cases hs'
      refine ⟨hfail rfl, fun f => ?_⟩
      rw [hrefs ht, hrefs hinv, hfail rfl]

/-- Two pages are free, and process 1 runs. -/
def twoPages : Ftable where
  file := fun _ => ⟨.none, 0, false, false, 0, 0, 0, 0⟩
  ofile := fun _ _ => none
  pipe := fun _ => ⟨0, 0⟩
  freelist := [7, 8]
  held := []
  state := fun p => if p = 1 then .runnable else if p = 0 then .sleeping else .unused
  initproc := 0
  allocs := fun _ => 0
  frees := fun _ => 0

/-- A pipe is shared with a child, and its ends are closed by both processes; another one fails. -/
def sharePipe : List Act :=
  [.pipe 1 true true, .fork 1 true, .pipe 1 true false, .close 1 0, .exit 2, .dup 1 1, .close 1 1,
    .close 1 0]

theorem start_twoPages : twoPages.Start where
  file _ := ⟨rfl, rfl⟩
  ofile _ _ := rfl
  nodup := by decide
  allocs _ := rfl
  frees _ := rfl

theorem open_file_references_pipe : ∃ s, Reach Ftable.step Always twoPages sharePipe.reverse s ∧
    s.freelist = [7, 8] ∧ s.frees 7 = 1 ∧ s.frees 8 = 1 ∧ s.allocs 7 = s.frees 7 ∧
    ∀ f, (s.file f).ref =
      (Finset.univ.filter fun x : ProcId × Fd => s.ofile x.1 x.2 = some f).card := by
  obtain ⟨s, hs, hlist, h7, h8, hallocs⟩ : ∃ s ∈ run Ftable.step twoPages sharePipe,
      s.freelist = [7, 8] ∧ s.frees 7 = 1 ∧ s.frees 8 = 1 ∧ s.allocs 7 = 1 := by decide
  have hreach := reach_always hs
  obtain ⟨hrefs, -⟩ := open_file_references start_twoPages hreach
  exact ⟨s, hreach, hlist, h7, h8, hallocs.trans h7.symm, hrefs⟩

end Xv6.Ftable
