import Xv6.Lib.Run
import Xv6.Signal.Trap

/-!
# From the delivery of a signal to `sigret` and back

`usertrapret` delivers a signal to a user handler; the handler traps into the kernel any number of
times and then calls `sigret`; the thread returns to where it was interrupted.  `InHandler` says
what the process keeps all that time: the interrupted frame in `user_trap_frame_backup` and its mask
in `signal_mask_backup`; `signal_handling_flag` keeps `usertrapret` from saving another frame.

`sigret` copies the saved frame back, and then `syscall` stores the return value of
`sys_sigret`, 0, in the restored `a0`.
-/

namespace Xv6

open Transition Proc Option

/-- What holds of the process while its handler runs: `F` is the interrupted frame, `m` the
interrupted mask. -/
structure InHandler (t : ThreadId) (F : Trapframe) (m : UInt) (p : Proc) : Prop where
  flag : p.signalHandlingFlag = 1
  backup : (p.threads t).userTrapFrameBackup = some F
  mask : p.signalMaskBackup = m
  frame : ∃ f, (p.threads t).trapframe = some f
  frozen : p.frozen ≠ 1
  live : p.doomed t = false

/-- The fields that a pass through the kernel reads or restores. -/
structure SameHandling (t : ThreadId) (p q : Proc) : Prop where
  flag : q.signalHandlingFlag = p.signalHandlingFlag
  backup : (q.threads t).userTrapFrameBackup = (p.threads t).userTrapFrameBackup
  mask : q.signalMaskBackup = p.signalMaskBackup
  frame : (∃ f, (p.threads t).trapframe = some f) → ∃ f, (q.threads t).trapframe = some f
  frozen : q.frozen = p.frozen
  live : q.doomed t = p.doomed t

namespace SameHandling

variable {t : ThreadId} {p q r : Proc}

theorem refl (p : Proc) : SameHandling t p p := ⟨rfl, rfl, rfl, id, rfl, rfl⟩

theorem trans (h : SameHandling t p q) (h' : SameHandling t q r) : SameHandling t p r where
  flag := h'.flag.trans h.flag
  backup := h'.backup.trans h.backup
  mask := h'.mask.trans h.mask
  frame := h'.frame ∘ h.frame
  frozen := h'.frozen.trans h.frozen
  live := h'.live.trans h.live

theorem inHandler {F : Trapframe} {m : UInt} (h : SameHandling t p q) (hp : InHandler t F m p) :
    InHandler t F m q where
  flag := h.flag.trans hp.flag
  backup := h.backup.trans hp.backup
  mask := h.mask.trans hp.mask
  frame := h.frame hp.frame
  frozen := by rw [h.frozen]; exact hp.frozen
  live := h.live.trans hp.live

theorem setFrame (p : Proc) (f : Trapframe) : SameHandling t p (p.setFrame t f) where
  flag := rfl
  backup := by simp [Proc.setFrame]
  mask := rfl
  frame := fun _ => ⟨f, by simp [Proc.setFrame]⟩
  frozen := rfl
  live := by simp [doomed, Proc.setFrame, setThread]

theorem arrive (p : Proc) (bits : UInt) : SameHandling t p (p.arrive bits) :=
  ⟨rfl, rfl, rfl, id, rfl, rfl⟩

end SameHandling

/-! ### A trap inside the handler -/

variable {e : RetEnv}

section

variable {t : ThreadId} {p q : Proc} {r : UserRegs} {tr : Trap}

theorem saveRegs_same (h : saveRegs p t r = some q) : SameHandling t p q := by
  obtain ⟨f, -, hq⟩ := bind_eq_some_iff.1 h
  cases hq
  exact SameHandling.setFrame p _

variable {v : Word}

theorem setA0_same (h : p.setA0 t v = some q) : SameHandling t p q := by
  obtain ⟨f, -, hq⟩ := bind_eq_some_iff.1 h
  cases hq
  exact SameHandling.setFrame p _

theorem sigaction_same {signum : ℤ} {act oldact : Word} {junk : List Byte} {v : ℤ}
    (h : sigaction p signum act oldact junk = some (v, q)) : SameHandling t p q := by
  rw [sigaction_eq h]
  exact ⟨rfl, rfl, rfl, id, rfl, rfl⟩

/-- No system call but `sigret` touches the handling fields. -/
theorem sysCall_same {out : SysOutcome} {c : Syscall} (hc : c ≠ .sigret)
    (h : sysCall out p t r c = .ret v q) : SameHandling t p q := by
  cases c
  case sigret => exact absurd rfl hc
  case sigaction =>
    simp only [sysCall] at h
    split at h
    · next h' => cases h; exact sigaction_same h'
    · cases h
  case exec =>
    simp only [sysCall] at h
    split_ifs at h
    cases h
    exact SameHandling.refl p
  case exit => cases h
  case kthreadExit => cases h
  all_goals cases h; exact ⟨rfl, rfl, rfl, id, rfl, rfl⟩

theorem trapSyscall_same (hs : syscallOf tr.regs.a7 ≠ some .sigret)
    (h : trapSyscall tr p t = .ret v q) : SameHandling t p q := by
  unfold trapSyscall at h
  split at h
  · cases h
  · next p1 h1 =>
    have hsame : ∀ v2 p2, syscall tr.out p1 t tr.regs.afterEcall = .ret v2 p2 →
        SameHandling t p1 p2 := by
      intro v2 p2 h2
      unfold syscall at h2
      split at h2
      · cases h2; exact SameHandling.refl p1
      · next c hc => exact sysCall_same (fun hcs => hs (hcs ▸ hc)) h2
    split at h
    · next v2 p2 h2 =>
      split at h
      · next p3 h3 =>
        cases h
        exact (saveRegs_same h1).trans ((hsame _ _ h2).trans (setA0_same h3))
      · cases h
    · next hother => exact absurd h (hother _ _)

/-- While `signal_handling_flag` is set, the return to user mode only touches the frame. -/
theorem usertrapret_same (hflag : p.signalHandlingFlag ≠ 0)
    (h : usertrapret e p t = .user q) : SameHandling t p q := by
  unfold usertrapret at h
  rw [if_neg hflag] at h
  unfold enterUser at h
  split at h
  · cases h
  · cases h; exact SameHandling.setFrame p _

theorem finishTrap_same (hflag : p.signalHandlingFlag ≠ 0) (h : finishTrap tr p t = .user q) :
    SameHandling t p q := by
  unfold finishTrap at h
  split_ifs at h
  exact (SameHandling.arrive p tr.arrived).trans (usertrapret_same hflag h)

/-- A trap of the handler that is not the system call `sigret`. -/
def Trap.Ordinary (tr : Trap) : Prop :=
  tr.cause = .syscall → syscallOf tr.regs.a7 ≠ some .sigret

theorem usertrap_finish (hord : tr.Ordinary) (h : usertrap tr p t = .user q) :
    ∃ p1, SameHandling t p p1 ∧ finishTrap tr p1 t = .user q := by
  unfold usertrap at h
  split at h
  · next hc =>
    split_ifs at h
    split at h
    · cases h
    · cases h
    · next h1 => exact ⟨_, trapSyscall_same (hord hc) h1, h⟩
  · split at h
    · cases h
    · next h1 => exact ⟨_, saveRegs_same h1, h⟩
  · split at h
    · cases h
    · next h1 => exact ⟨_, saveRegs_same h1, h⟩
  · cases h

theorem usertrap_same (hord : tr.Ordinary) (hflag : p.signalHandlingFlag ≠ 0)
    (h : usertrap tr p t = .user q) : SameHandling t p q := by
  obtain ⟨p1, h1, hq⟩ := usertrap_finish hord h
  exact h1.trans (finishTrap_same (by rw [h1.flag]; exact hflag) hq)

end

/-! ### Delivery -/

variable {i : Fin 32} {t : ThreadId} {p q : Proc}

/-- The process when `handle_pendding_sinals` hands signal `i` to a user handler: the frame is
saved, and only the pending set and `frozen` have changed otherwise. -/
theorem handle_deliver {gaps : List UInt}
    (h : handlePenddingSinals gaps p t = .done (some i) q) :
    dispatch q i = some .deliver ∧ q.frozen ≠ 1 ∧
      ∃ f, (p.threads t).trapframe = some f ∧
        q = { p.setThread t { p.threads t with userTrapFrameBackup := some f } with
          penddingSignals := q.penddingSignals, frozen := q.frozen } := by
  unfold handlePenddingSinals at h
  split at h
  · cases h
  · next p1 hsave =>
    obtain ⟨f, hf, hsave'⟩ := bind_eq_some_iff.1 hsave
    obtain ⟨_, -, hp1⟩ := bind_eq_some_iff.1 hsave'
    cases hp1
    split at h
    · cases h
    · next hloop =>
      obtain ⟨hfrozen, hq⟩ := freezeLoop_spec hloop
      split at h
      · cases h
      · next hscan =>
        cases h
        exact ⟨(scan_eq_some hscan).1, hfrozen, f, hf, hq⟩
      · cases h

theorem flag_of_dispatch {p : Proc} {a : Action} (h : dispatch p i = some a) :
    p.signalHandlingFlag = 0 := by
  by_contra hne
  simp [dispatch, hne] at h

theorem userhandler_spec {stub : List Byte}
    (h : userhandler stub p t i = some q) :
    q.signalHandlingFlag = 1 ∧ q.signalMaskBackup = p.signalMask ∧ q.frozen = p.frozen ∧
      (q.threads t).userTrapFrameBackup = (p.threads t).userTrapFrameBackup ∧
      (∃ f, (q.threads t).trapframe = some f) ∧ q.doomed t = p.doomed t := by
  obtain ⟨f, -, h⟩ := bind_eq_some_iff.1 h
  obtain ⟨_, -, h⟩ := bind_eq_some_iff.1 h
  obtain ⟨_, -, h⟩ := bind_eq_some_iff.1 h
  cases h
  refine ⟨rfl, rfl, rfl, ?_, ?_, ?_⟩
  · simp [Proc.setFrame, clearSignal]
  · simp [Proc.setFrame, clearSignal]
  · simp [doomed, Proc.setFrame, clearSignal, setThread]

theorem enterUser_same {hart : Hart}
    (h : enterUser hart p t = .user q) : SameHandling t p q := by
  unfold enterUser at h
  split at h
  · cases h
  · cases h; exact SameHandling.setFrame p _

variable {p₀ : Proc}

/-- **Delivery.** When `usertrapret` has delivered a signal, the interrupted frame and mask are
in the backups. -/
theorem inHandler_of_deliver {F : Trapframe}
    (hlive : p.doomed t = false) (hF : (p.threads t).trapframe = some F)
    (hdeliver : handlePenddingSinals e.gaps p t = .done (some i) q)
    (hstart : usertrapret e p t = .user p₀) : InHandler t F p.signalMask p₀ := by
  obtain ⟨hact, hfrozen, f, hf, hq⟩ := handle_deliver hdeliver
  obtain rfl : F = f := some.inj (hF.symm.trans hf)
  have hflag : p.signalHandlingFlag = 0 := by
    have := flag_of_dispatch hact
    rwa [hq] at this
  unfold usertrapret at hstart
  rw [if_pos hflag, hdeliver] at hstart
  dsimp only at hstart
  split at hstart
  · cases hstart
  · next p2 hu =>
    obtain ⟨h1, h2, h3, h4, h5, h6⟩ := userhandler_spec hu
    refine (enterUser_same hstart).inHandler ⟨h1, ?_, ?_, h5, ?_, ?_⟩
    · rw [h4, hq]; simp [Proc.arrive]
    · rw [h2, hq]; rfl
    · rw [h3]; exact hfrozen
    · rw [h6, hq]
      simpa [doomed, Proc.arrive, setThread] using hlive

theorem usertrapret_deliver
    (hdeliver : handlePenddingSinals e.gaps p t = .done (some i) q) (hm : p.pagetable.isSome) :
    ∃ p₀, usertrapret e p t = .user p₀ ∧
      p₀.penddingSignals = (q.penddingSignals ||| e.late) &&& ~~~sigBit i := by
  obtain ⟨hact, -, f, hf, hq⟩ := handle_deliver hdeliver
  obtain ⟨m, hm⟩ := isSome_iff_exists.1 hm
  have hflag : p.signalHandlingFlag = 0 := by
    have := flag_of_dispatch hact
    rwa [hq] at this
  have hqt : q.threads t = { p.threads t with userTrapFrameBackup := some f } := by
    rw [hq]; simp
  have hqm : q.pagetable = some m := by rw [hq]; exact hm
  simp only [usertrapret, if_pos hflag, hdeliver]
  simp [userhandler, Proc.arrive, hqt, hf, hqm, enterUser, Proc.setFrame, clearSignal,
    setThread]

theorem dispatch_of_no_pending {p : Proc} (h : p.penddingSignals = 0) (j : Fin 32) :
    dispatch p j = none := by
  simp [dispatch, isSet, h]

/-! ### `sigret` -/

/-- Back in user mode with the registers of `F` and the mask `m`, out of the handler. -/
def Restored (t : ThreadId) (F : UserRegs) (m : UInt) (p : Proc) : Prop :=
  ((p.threads t).trapframe.map Trapframe.toUserRegs = some F) ∧ p.signalMask = m ∧
    p.signalHandlingFlag = 0

/-- The trap by which the handler executes `sigret`. -/
def Trap.Sigret (tr : Trap) : Prop :=
  tr.cause = .syscall ∧ syscallOf tr.regs.a7 = some .sigret

section

variable {t : ThreadId} {F : Trapframe} {m : UInt} {p : Proc} {tr : Trap}

/-- What `sigret` finds in the backups. -/
structure Saved (t : ThreadId) (F : Trapframe) (m : UInt) (p : Proc) : Prop where
  backup : (p.threads t).userTrapFrameBackup = some F
  mask : p.signalMaskBackup = m
  frame : ∃ f, (p.threads t).trapframe = some f
  frozen : p.frozen ≠ 1
  live : p.doomed t = false

theorem InHandler.saved (h : InHandler t F m p) : Saved t F m p :=
  ⟨h.backup, h.mask, h.frame, h.frozen, h.live⟩

/-- The system call: the saved frame comes back with 0 in `a0`. -/
theorem trapSyscall_sigret (hp : Saved t F m p) (htr : tr.Sigret) :
    ∃ q, trapSyscall tr p t = .ret 0 q ∧ q.signalMask = m ∧ q.signalHandlingFlag = 0 ∧
      q.frozen ≠ 1 ∧ q.doomed t = false ∧ q.penddingSignals = p.penddingSignals ∧
      (q.threads t).trapframe = some { F with a0 := 0 } ∧
      (q.threads t).userTrapFrameBackup = some F := by
  obtain ⟨f, hf⟩ := hp.frame
  let saved := p.setFrame t { f with toUserRegs := tr.regs.afterEcall }
  let restored : Proc :=
    { saved.setFrame t F with signalMask := p.signalMaskBackup, signalHandlingFlag := 0 }
  have hsave : saveRegs p t tr.regs.afterEcall = some saved := by simp [saveRegs, hf, saved]
  have hsys : syscall tr.out saved t tr.regs.afterEcall = .ret 0 restored := by
    have hret : sigret saved t = some restored := by
      simp [sigret, saved, Proc.setFrame, hp.backup, restored, setThread]
    have hnum : syscallOf tr.regs.afterEcall.a7 = some .sigret := htr.2
    simp [syscall, hnum, sysCall, hret]
  have ha0 : restored.setA0 t 0 = some (restored.setFrame t { F with a0 := 0 }) := by
    simp [setA0, restored, Proc.setFrame]
  refine ⟨restored.setFrame t { F with a0 := 0 }, by simp only [trapSyscall, hsave, hsys, ha0],
    hp.mask, rfl, hp.frozen, ?_, rfl, ?_, ?_⟩
  · simpa [doomed, restored, saved, Proc.setFrame, setThread] using hp.live
  · simp [Proc.setFrame]
  · simp [Proc.setFrame, restored, saved, hp.backup]

theorem perform_keeps (p : Proc) (gap : UInt) (i : Fin 32) (a : Action) :
    ((perform p gap i a).threads t).trapframe = (p.threads t).trapframe ∧
      (perform p gap i a).signalMask = p.signalMask ∧
      (perform p gap i a).signalHandlingFlag = p.signalHandlingFlag ∧
      ((perform p gap i a).threads t).userTrapFrameBackup = (p.threads t).userTrapFrameBackup ∧
      (perform p gap i a).signalMaskBackup = p.signalMaskBackup := by
  cases a <;> exact ⟨rfl, rfl, rfl, rfl, rfl⟩

/-- A pass that delivers nothing to a user handler, in a process that is not frozen. -/
theorem usertrapret_quiet (hflag : p.signalHandlingFlag = 0) (hfrozen : p.frozen ≠ 1)
    (hf : (p.threads t).trapframe = some F) (hb : (p.threads t).userTrapFrameBackup.isSome)
    (hquiet : ∀ j, dispatch p j ≠ some .deliver) :
    ∃ q, usertrapret e p t = .user q ∧ Restored t F.toUserRegs p.signalMask q := by
  have hdone : ∃ q, handlePenddingSinals e.gaps p t = .done none q ∧
      (q.threads t).trapframe = some F ∧ q.signalMask = p.signalMask ∧
      q.signalHandlingFlag = 0 := by
    set p1 := p.setThread t { p.threads t with userTrapFrameBackup := some F } with hp1
    have hsave : saveFrame p t = some p1 := saveFrame_eq hf hb
    have hloop : freezeLoop e.gaps p1 = some (e.gaps, p1) := freezeLoop_of_ne hfrozen
    have hf1 : (p1.threads t).trapframe = some F := by simp [hp1, hf]
    simp only [handlePenddingSinals, hsave, hloop]
    split
    · exact ⟨p1, rfl, hf1, rfl, hflag⟩
    · next i hscan => exact absurd (scan_eq_some hscan).1 (hquiet i)
    · next i a _ _ =>
      obtain ⟨h1, h2, h3, -⟩ := perform_keeps (t := t) p1 e.gaps.headI i a
      exact ⟨_, rfl, h1.trans hf1, h2, h3.trans hflag⟩
  obtain ⟨q, hq, hqf, hqm, hqflag⟩ := hdone
  simp only [usertrapret, if_pos hflag, hq, enterUser, hqf]
  exact ⟨_, rfl, by simp [Proc.setFrame], hqm, hqflag⟩

/-- No signal can be delivered after a `sigret` that finds and leaves none pending. -/
theorem quiet_of_no_pending (hp : Saved t F m p) (htr : tr.Sigret)
    (hpend : p.penddingSignals = 0) (harr : tr.arrived = 0) (q : Proc)
    (hq : trapSyscall tr p t = .ret 0 q) (j : Fin 32) :
    dispatch (q.arrive tr.arrived) j ≠ some .deliver := by
  obtain ⟨q', hq', -, -, -, -, hpend', -⟩ := trapSyscall_sigret hp htr
  obtain rfl : q' = q := (SysResult.ret.inj (hq'.symm.trans hq)).2
  have hnone : (q'.arrive tr.arrived).penddingSignals = 0 := by
    simp [Proc.arrive, hpend', hpend, harr]
  simp [dispatch_of_no_pending hnone]

/-- `sigret` brings the thread back to the interrupted frame, with 0 in `a0`. -/
theorem usertrap_sigret (hp : Saved t F m p) (htr : tr.Sigret)
    (hquiet : ∀ q, trapSyscall tr p t = .ret 0 q →
      ∀ j, dispatch (q.arrive tr.arrived) j ≠ some .deliver) :
    ∃ q, usertrap tr p t = .user q ∧ Restored t { F.toUserRegs with a0 := 0 } m q := by
  obtain ⟨q, hq, hm, hflag, hfrozen, hlive, -, hf, hb⟩ := trapSyscall_sigret hp htr
  obtain ⟨r, hr, hrest⟩ := usertrapret_quiet (e := tr.ret) (p := q.arrive tr.arrived) hflag
    hfrozen hf (by simp [Proc.arrive, hb]) (hquiet q hq)
  refine ⟨r, ?_, by simpa [Proc.arrive, hm] using hrest⟩
  simp [usertrap, htr.1, hp.live, hq, finishTrap, hlive, hr]

end

/-! ### The round trip -/

/-- A frame interrupted at 0x100 with `x` in `a0`. -/
def interruptedFrame (x : Word) : Trapframe :=
  { (default : Trapframe) with epc := 0x100, sp := 0x2000, a0 := x }

/-- A process on its way back to that frame, with signal 1 pending for a handler at 0x40. -/
def interrupted (x : Word) : Proc :=
  { zero with
    state := .runnable, pid := 3, sz := 0x2000, trapframe := true
    pagetable := some fun va => if va = 0x1000 then some fun _ => 0 else none
    penddingSignals := sigBit 1
    signalHandlers := Function.update (fun _ => SIG_DFL) 1 0x40
    threads := Function.update (fun _ => Thread.zero) 0
      { Thread.zero with
        id := 3, state := .running
        trapframe := some (interruptedFrame x)
        userTrapFrameBackup := some (interruptedFrame x) } }

/-- A return to user mode on hart 0 during which no signal arrives; the stub is
`li a7, SYS_sigret; ecall`. -/
def quietReturn : RetEnv :=
  { hart := ⟨0, 0, 0, 0⟩, gaps := [], late := 0
    stub := [0x93, 0x08, 0x80, 0x01, 0x73, 0x00, 0x00, 0x00] }

/-- A trap with user registers `r` during which no signal arrives. -/
def quietTrap (cause : Cause) (r : UserRegs) : Trap :=
  { regs := r, cause := cause, out := ⟨0, fun _ => none, 0, []⟩, arrived := 0, ret := quietReturn }

/-- The `ecall` of the stub, with registers as the handler may leave them. -/
def sigretTrap : Trap := quietTrap .syscall { (default : UserRegs) with epc := 0x1ed8, a7 := 24 }

/-- One trap of the running handler. -/
def handlerStep (t : ThreadId) (p : Proc) (tr : Trap) : Option Proc :=
  match usertrap tr p t with
  | .user q => some q
  | _ => none

theorem inHandler_run {F : Trapframe} {m : UInt} {p : Proc} {trs : List Trap}
    (h0 : InHandler t F m p₀) (h : Reach (handlerStep t) (fun _ tr => tr.Ordinary) p₀ trs p) :
    InHandler t F m p := by
  refine h.state_invariant h0 fun s tr s' hs hord hstep => ?_
  unfold handlerStep at hstep
  split at hstep
  · next q hq =>
    cases hstep
    exact (usertrap_same hord (by rw [hs.flag]; decide) hq).inHandler hs
  · cases hstep

theorem interrupted_handle (x : Word) : ∃ q,
    handlePenddingSinals quietReturn.gaps (interrupted x) 0 = .done (some 1) q ∧
      q.penddingSignals = sigBit 1 := by
  set p1 := (interrupted x).setThread 0 { (interrupted x).threads 0 with
    userTrapFrameBackup := some (interruptedFrame x) } with hp1
  have hsave : saveFrame (interrupted x) 0 = some p1 := rfl
  have hloop : freezeLoop quietReturn.gaps p1 = some ([], p1) :=
    freezeLoop_of_ne (by simp [hp1, setThread, interrupted, zero])
  have hscan : scan p1 = some (1, .deliver) := by
    -- what is dispatched does not depend on the frame
    have hdisp : ∀ j, dispatch p1 j = dispatch (interrupted 0) j := fun _ => rfl
    refine scan_of_dispatch ((hdisp 1).trans (by decide)) fun j hj => ?_
    obtain rfl : j = 0 := by omega
    exact (hdisp 0).trans (by decide)
  exact ⟨p1, by simp only [handlePenddingSinals, hsave, hloop, hscan], rfl⟩

theorem handlerStep_timer {F : Trapframe} {m : UInt} {p : Proc} {r : UserRegs}
    (hp : InHandler t F m p) :
    ∃ q, handlerStep t p (quietTrap .timer r) = some q ∧ q.penddingSignals = p.penddingSignals := by
  obtain ⟨f, hf⟩ := hp.frame
  have hlive := hp.live
  simp only [doomed] at hlive
  simp [handlerStep, usertrap, quietTrap, saveRegs, hf, finishTrap, doomed, Proc.setFrame,
    setThread, usertrapret, Proc.arrive, hp.flag, enterUser, hlive]

/-- **The signal round trip.** `usertrapret` delivers a signal that interrupts the frame `F`, the
handler traps any number of times, and then executes `sigret` with no further signal to
deliver.  The thread is back with all registers of `F`, the mask and no handler running, if and
only if `a0` was 0 in `F`. -/
theorem sigret_restores_iff {p q p₁ : Proc} {t : ThreadId} {F : Trapframe} {trs : List Trap}
    {tr : Trap} (hlive : p.doomed t = false) (hF : (p.threads t).trapframe = some F)
    (hdeliver : handlePenddingSinals e.gaps p t = .done (some i) q)
    (hstart : usertrapret e p t = .user p₀)
    (htraps : Reach (handlerStep t) (fun _ tr => tr.Ordinary) p₀ trs p₁) (htr : tr.Sigret)
    (hquiet : ∀ q, trapSyscall tr p₁ t = .ret 0 q →
      ∀ j, dispatch (q.arrive tr.arrived) j ≠ some .deliver) :
    (∃ p₂, usertrap tr p₁ t = .user p₂ ∧ Restored t F.toUserRegs p.signalMask p₂) ↔
      F.a0 = 0 := by
  have hin := inHandler_run (inHandler_of_deliver hlive hF hdeliver hstart) htraps
  obtain ⟨r, hr, hrest⟩ := usertrap_sigret hin.saved htr hquiet
  constructor
  · rintro ⟨p₂, hp₂, hrest₂⟩
    obtain rfl : r = p₂ := by
      rw [hr] at hp₂
      exact Return.user.inj hp₂
    have hregs := hrest.1.symm.trans hrest₂.1
    exact (congrArg UserRegs.a0 (some.inj hregs)).symm
  · intro ha0
    refine ⟨r, hr, ?_, hrest.2⟩
    rw [hrest.1, ← ha0]

/-- Interrupted with 0 in `a0`, through a handler with one timer interrupt. -/
theorem sigret_restores_zero : ∃ p₀ p₁ p₂,
    usertrapret quietReturn (interrupted 0) 0 = .user p₀ ∧
      handlerStep 0 p₀ (quietTrap .timer default) = some p₁ ∧
      usertrap sigretTrap p₁ 0 = .user p₂ ∧
      Restored 0 (interruptedFrame 0).toUserRegs (interrupted 0).signalMask p₂ := by
  obtain ⟨q, hq, hpend⟩ := interrupted_handle 0
  obtain ⟨p₀, hp₀, hpend₀⟩ := usertrapret_deliver hq rfl
  have hin := inHandler_of_deliver (p := interrupted 0) rfl rfl hq hp₀
  obtain ⟨p₁, hp₁, hpend₁⟩ := handlerStep_timer (r := default) hin
  have htraps : Reach (handlerStep 0) (fun _ tr => tr.Ordinary) p₀ _ p₁ :=
    .cons .nil (fun h => absurd h (by decide)) hp₁
  have htr : sigretTrap.Sigret := ⟨rfl, by decide⟩
  have hquiet := quiet_of_no_pending (inHandler_run hin htraps).saved htr
    (by rw [hpend₁, hpend₀, hpend]; decide) rfl
  obtain ⟨p₂, hp₂, hrest⟩ := (sigret_restores_iff (p := interrupted 0)
    (F := interruptedFrame 0) rfl rfl hq hp₀ htraps htr hquiet).2 rfl
  exact ⟨p₀, p₁, p₂, hp₀, hp₁, hp₂, hrest⟩

/-- The process is interrupted with 5 in `a0`; the handler executes `sigret` at once, and the
process comes back with another value in `a0`. -/
theorem sigret_loses_a0 : ∃ q p₀ p₂,
    (interrupted 5).doomed 0 = false ∧
      ((interrupted 5).threads 0).trapframe = some (interruptedFrame 5) ∧
      handlePenddingSinals quietReturn.gaps (interrupted 5) 0 = .done (some 1) q ∧
      usertrapret quietReturn (interrupted 5) 0 = .user p₀ ∧ sigretTrap.Sigret ∧
      (∀ q, trapSyscall sigretTrap p₀ 0 = .ret 0 q →
        ∀ j, dispatch (q.arrive sigretTrap.arrived) j ≠ some .deliver) ∧
      usertrap sigretTrap p₀ 0 = .user p₂ ∧
      ¬ Restored 0 (interruptedFrame 5).toUserRegs (interrupted 5).signalMask p₂ := by
  obtain ⟨q, hq, hpend⟩ := interrupted_handle 5
  obtain ⟨p₀, hp₀, hpend₀⟩ := usertrapret_deliver hq rfl
  have hin := inHandler_of_deliver (p := interrupted 5) rfl rfl hq hp₀
  have htr : sigretTrap.Sigret := ⟨rfl, by decide⟩
  have hquiet := quiet_of_no_pending hin.saved htr (by rw [hpend₀, hpend]; decide) rfl
  obtain ⟨p₂, hp₂, hrest⟩ := usertrap_sigret hin.saved htr hquiet
  refine ⟨q, p₀, p₂, rfl, rfl, hq, hp₀, htr, hquiet, hp₂, fun h => ?_⟩
  have ha0 := congrArg UserRegs.a0 (some.inj (hrest.1.symm.trans h.1))
  exact absurd ha0 (by decide)

end Xv6
