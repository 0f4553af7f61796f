import Xv6.Proc.Steps
import Xv6.Signal.RoundTrip

/-!
# `fork` inside a signal handler

The child of a process whose handler runs has `signal_handling_flag` clear, a new page for the
backup frame, and in `signal_mask_backup` what the slot had before.  So each return of the child to
user mode saves the frame it returns with, and `sigret` brings the child back to where it last
entered user mode (`Entered`), not to where the parent was interrupted.
-/

namespace Xv6

open Transition Proc Option

variable {e : RetEnv} {t nt : ThreadId} {p q : Proc} {b m : UInt} {tr : Trap}

/-! ### Returns that start no handler -/

/-- No handler runs, and the backup has the registers with which the thread is in user mode. -/
structure Entered (t : ThreadId) (b : UInt) (p : Proc) : Prop where
  flag : p.signalHandlingFlag = 0
  mask : p.signalMaskBackup = b
  frames : ∃ f g, (p.threads t).trapframe = some f ∧
    (p.threads t).userTrapFrameBackup = some g ∧ g.toUserRegs = f.toUserRegs

theorem handle_quiet {gaps : List UInt} (h : handlePenddingSinals gaps p t = .done none q) :
    q.signalMaskBackup = p.signalMaskBackup ∧ ∃ f, (q.threads t).trapframe = some f ∧
      (q.threads t).userTrapFrameBackup = some f := by
  unfold handlePenddingSinals at h
  split at h
  · cases h
  next p1 hsave =>
    obtain ⟨f, hf, hsave⟩ := bind_eq_some_iff.1 hsave
    obtain ⟨_, -, hp1⟩ := bind_eq_some_iff.1 hsave
    cases hp1
    split at h
    · cases h
    next gaps' p2 hloop =>
      obtain ⟨-, hp2⟩ := freezeLoop_spec hloop
      have hmask : p2.signalMaskBackup = p.signalMaskBackup := by rw [hp2]; rfl
      have hthread : p2.threads t = { p.threads t with userTrapFrameBackup := some f } := by
        rw [hp2]
        exact setThread_threads_self ..
      split at h
      · cases h
        exact ⟨hmask, f, by rw [hthread]; exact hf, by rw [hthread]⟩
      · cases h
      next i a _ _ =>
        cases h
        obtain ⟨hframe, -, -, hbackup, hmb⟩ := perform_keeps (t := t) p2 gaps'.headI i a
        exact ⟨hmb.trans hmask, f, by rw [hframe, hthread]; exact hf, by rw [hbackup, hthread]⟩

theorem usertrapret_entered (hflag : p.signalHandlingFlag = 0) (h : usertrapret e p t = .user q)
    (hq : q.signalHandlingFlag = 0) : Entered t p.signalMaskBackup q := by
  unfold usertrapret at h
  rw [if_pos hflag] at h
  split at h
  · cases h
  · cases h
  next p1 hdone =>
    obtain ⟨hmask, f, hf, hb⟩ := handle_quiet hdone
    unfold enterUser at h
    rw [hf] at h
    cases h
    refine ⟨hq, hmask, _, f, congrArg Thread.trapframe (setThread_threads_self ..), ?_, rfl⟩
    rw [setFrame, setThread_threads_self]
    exact hb
  next i p1 _ =>
    split at h
    · cases h
    next p2 hu =>
      rw [(enterUser_same h).flag, (userhandler_spec hu).1] at hq
      cases hq

/-- A trap other than `sigret`, after which no handler runs. -/
def Calm (t : ThreadId) (p : Proc) (tr : Trap) : Prop :=
  tr.Ordinary ∧ ∀ q, usertrap tr p t = .user q → q.signalHandlingFlag = 0

theorem entered_run {p0 : Proc} {trs : List Trap} (h0 : Entered t b p0)
    (h : Reach (handlerStep t) (Calm t) p0 trs p) : Entered t b p := by
  refine h.state_invariant h0 fun s tr s' hs hcalm hstep => ?_
  unfold handlerStep at hstep
  split at hstep
  · next q hq =>
    cases hstep
    obtain ⟨p1, h1, hfinish⟩ := usertrap_finish hcalm.1 hq
    unfold finishTrap at hfinish
    split_ifs at hfinish
    have hent := usertrapret_entered (p := p1.arrive tr.arrived) (h1.flag.trans hs.flag) hfinish
      (hcalm.2 _ hq)
    exact ⟨hent.flag, hent.mask.trans (h1.mask.trans hs.mask), hent.frames⟩
  · cases hstep

/-! ### The child -/

variable {slot np c₀ c : Proc} {pid tid tid' : ℤ} {k : Pages} {F f : Trapframe}

/-- The slot of the child keeps the mask backup of the process that had it before. -/
theorem allocproc_mask (h : slot.allocproc pid tid k = (some nt, np, tid')) :
    np.signalMaskBackup = slot.signalMaskBackup := by
  unfold allocproc at h
  dsimp only at h
  split at h
  · cases h
  · split_ifs at h
    · split at h
      · cases h
      · rw [(allocthread_some h).2]
        rfl
    · cases h

/-- No user handler is started on the way back from `sigret`. -/
def Trap.Unhandled (tr : Trap) (p : Proc) (t : ThreadId) : Prop :=
  ∀ q, trapSyscall tr p t = .ret 0 q → ∀ j, dispatch (q.arrive tr.arrived) j ≠ some .deliver

/-- The handler of a process, with the frame `F` and the mask `m` saved, calls `fork` with the frame
`f`; the child traps any number of times without starting a handler and then executes `sigret`.
While `sigret` in the parent restores `F`, with 0 in `a0`, and `m`, the child comes to the registers
`g` with which it last entered user mode and to the mask backup of its slot. -/
theorem fork_sigret_iff (hin : InHandler t F m p)
    (halloc : slot.allocproc pid tid k = (some nt, np, tid'))
    (hstart : usertrapret e ((p.forkInto f np nt).makeRunnable nt) nt = .user c₀)
    (h₀ : c₀.signalHandlingFlag = 0) {trs : List Trap}
    (hrun : Reach (handlerStep nt) (Calm nt) c₀ trs c) (htr : tr.Sigret)
    (hlive : c.doomed nt = false) (hfrozen : c.frozen ≠ 1) (hquiet : tr.Unhandled c nt) :
    (tr.Unhandled p t →
      ∃ q, usertrap tr p t = .user q ∧ Restored t { F.toUserRegs with a0 := 0 } m q) ∧
    ∃ g q, (c.threads nt).trapframe.map Trapframe.toUserRegs = some g ∧
      usertrap tr c nt = .user q ∧
      (Restored nt { F.toUserRegs with a0 := 0 } m q ↔
        { g with a0 := 0 } = { F.toUserRegs with a0 := 0 } ∧ slot.signalMaskBackup = m) := by
  refine ⟨usertrap_sigret hin.saved htr, ?_⟩
  have hent := entered_run (usertrapret_entered rfl hstart h₀) hrun
  obtain ⟨f', g, hf, hb, hregs⟩ := hent.frames
  have hnp : np.signalMaskBackup = slot.signalMaskBackup := allocproc_mask halloc
  have hmask : c.signalMaskBackup = slot.signalMaskBackup := hent.mask.trans hnp
  obtain ⟨q, hq, hrest⟩ := usertrap_sigret ⟨hb, hmask, ⟨f', hf⟩, hfrozen, hlive⟩ htr hquiet
  refine ⟨f'.toUserRegs, q, by rw [hf]; rfl, hq, ?_⟩
  rw [← hregs]
  constructor
  · intro h
    exact ⟨some.inj (hrest.1.symm.trans h.1), hrest.2.1.symm.trans h.2.1⟩
  · rintro ⟨hg, hm⟩
    exact ⟨hrest.1.trans (congrArg some hg), hrest.2.1.trans hm, hrest.2.2⟩

/-- A process in the handler of signal 1, interrupted at 0x100 and about to go on at `epc`. -/
def handling (epc : Word) : Proc :=
  { (interrupted 0).setFrame 0 { interruptedFrame 0 with epc := epc } with
    penddingSignals := 0, signalHandlingFlag := 1 }

theorem inHandler_handling (epc : Word) : InHandler 0 (interruptedFrame 0) 0 (handling epc) :=
  ⟨rfl, rfl, rfl, ⟨_, rfl⟩, show (0 : ℤ) ≠ 1 by decide, rfl⟩

/-- Enough memory for a child. -/
def zeroed : Pages := ⟨some fun _ => default, true, some default, true⟩

/-- The child of that process, in a slot never used before. -/
def newChild (epc : Word) : Proc :=
  ((handling epc).forkInto { interruptedFrame 0 with epc := epc }
    (zero.allocproc 4 4 zeroed).2.1 0).makeRunnable 0

theorem newChild_returns (epc : Word) : ∃ c, usertrapret quietReturn (newChild epc) 0 = .user c ∧
    c.signalHandlingFlag = 0 ∧ c.penddingSignals = 0 ∧
    (c.threads 0).trapframe.map Trapframe.toUserRegs =
      some { (interruptedFrame 0).toUserRegs with epc := epc } ∧
    Saved 0 { interruptedFrame 0 with epc := epc } 0 c := by
  set p1 := (newChild epc).setThread 0 { (newChild epc).threads 0 with
    userTrapFrameBackup := some { interruptedFrame 0 with epc := epc } }
  have hsave : saveFrame (newChild epc) 0 = some p1 := rfl
  have hfrozen : p1.frozen ≠ 1 := show (0 : ℤ) ≠ 1 by decide
  have hscan : scan p1 = none := scan_eq_none.2 (dispatch_of_no_pending rfl)
  have hdone : handlePenddingSinals quietReturn.gaps (newChild epc) 0 = .done none p1 := by
    simp only [handlePenddingSinals, hsave, freezeLoop_of_ne hfrozen, hscan]
  have hret : usertrapret quietReturn (newChild epc) 0 = enterUser quietReturn.hart p1 0 := by
    rw [usertrapret, if_pos (show (newChild epc).signalHandlingFlag = 0 from rfl), hdone]
  exact ⟨_, hret, rfl, rfl, rfl, rfl, rfl, ⟨_, rfl⟩, hfrozen, rfl⟩

/-- A handler whose `fork` returns to where the process was interrupted. -/
theorem fork_sigret_iff_same : ∃ c q, usertrapret quietReturn (newChild 0x100) 0 = .user c ∧
    usertrap sigretTrap c 0 = .user q ∧
    Restored 0 { (interruptedFrame 0).toUserRegs with a0 := 0 } 0 q := by
  obtain ⟨c, hstart, hflag, hpend, hregs, hsaved⟩ := newChild_returns 0x100
  have htr : sigretTrap.Sigret := ⟨rfl, by decide⟩
  have halloc : zero.allocproc 4 4 zeroed = (some 0, (zero.allocproc 4 4 zeroed).2) := rfl
  obtain ⟨-, g, q, hg, hq, hiff⟩ := fork_sigret_iff (inHandler_handling 0x100) halloc hstart hflag
    .nil htr hsaved.live hsaved.frozen (quiet_of_no_pending hsaved htr hpend rfl)
  refine ⟨c, q, hstart, hq, hiff.2 ⟨?_, rfl⟩⟩
  rw [← some.inj (hregs.symm.trans hg)]
  rfl

/-- The handler calls `fork` at 0x40: the child's `sigret` leads back to 0x44, not to 0x100. -/
theorem fork_sigret_lost : ∃ c q, InHandler 0 (interruptedFrame 0) 0 (handling 0x44) ∧
    usertrapret quietReturn (newChild 0x44) 0 = .user c ∧ usertrap sigretTrap c 0 = .user q ∧
    ¬ Restored 0 { (interruptedFrame 0).toUserRegs with a0 := 0 } 0 q := by
  obtain ⟨c, hstart, -, hpend, -, hsaved⟩ := newChild_returns 0x44
  have htr : sigretTrap.Sigret := ⟨rfl, by decide⟩
  obtain ⟨q, hq, hrest⟩ :=
    usertrap_sigret hsaved htr (quiet_of_no_pending hsaved htr hpend rfl)
  refine ⟨c, q, inHandler_handling _, hstart, hq, fun h => ?_⟩
  have hepc := congrArg UserRegs.epc (some.inj (hrest.1.symm.trans h.1))
  exact absurd hepc (by decide)

end Xv6
