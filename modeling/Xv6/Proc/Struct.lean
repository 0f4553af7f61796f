import Xv6.Param
import Xv6.Vm.UserMem

/-!
# Processes and threads (`kernel/proc.h`)

The records `struct trapframe`, `struct thread` and `struct proc`.  A null pointer is `none`;
a pointer to a page that only this record owns is the contents of the page.  C `int` fields
are integers; `uint` masks are 32-bit vectors.
-/

namespace Xv6

/-- The user registers a trapframe saves. -/
structure UserRegs where
  epc : Word
  ra : Word
  sp : Word
  gp : Word
  tp : Word
  t0 : Word
  t1 : Word
  t2 : Word
  s0 : Word
  s1 : Word
  a0 : Word
  a1 : Word
  a2 : Word
  a3 : Word
  a4 : Word
  a5 : Word
  a6 : Word
  a7 : Word
  s2 : Word
  s3 : Word
  s4 : Word
  s5 : Word
  s6 : Word
  s7 : Word
  s8 : Word
  s9 : Word
  s10 : Word
  s11 : Word
  t3 : Word
  t4 : Word
  t5 : Word
  t6 : Word
  deriving DecidableEq, Repr, Inhabited

/-- `struct trapframe`: the user registers and what `uservec` needs to enter the kernel. -/
structure Trapframe extends UserRegs where
  kernelSatp : Word
  kernelSp : Word
  kernelTrap : Word
  kernelHartid : Word
  deriving DecidableEq, Repr, Inhabited

/-- The words of a trapframe in the order of `proc.h`. -/
def Trapframe.words (f : Trapframe) : List Word :=
  [f.kernelSatp, f.kernelSp, f.kernelTrap, f.epc, f.kernelHartid, f.ra, f.sp, f.gp, f.tp,
    f.t0, f.t1, f.t2, f.s0, f.s1, f.a0, f.a1, f.a2, f.a3, f.a4, f.a5, f.a6, f.a7,
    f.s2, f.s3, f.s4, f.s5, f.s6, f.s7, f.s8, f.s9, f.s10, f.s11, f.t3, f.t4, f.t5, f.t6]

/-- A trapframe as bytes in memory. -/
def Trapframe.bytes (f : Trapframe) : List Byte := f.words.flatMap Word.bytes

/-- `sizeof(struct trapframe)`. -/
def trapframeSize : ℕ := 288

/-- `enum procstate`. -/
inductive ProcState
  | unused
  | used
  | sleeping
  | runnable
  | running
  | zombie
  deriving DecidableEq, Repr

instance : NeZero NPROC := ⟨by decide⟩

instance : NeZero NTHREAD := ⟨by decide⟩

/-- Index of a slot in the process table. -/
abbrev ProcId := Fin NPROC

/-- Index of a thread slot in its process. -/
abbrev ThreadId := Fin NTHREAD

/-- What a thread can sleep on: a process, a thread slot, or another kernel object. -/
inductive Chan
  | proc (p : ProcId)
  | thread (p : ProcId) (t : ThreadId)
  | other (n : ℕ)
  deriving DecidableEq, Repr

/-- `struct thread`. -/
structure Thread where
  id : ℤ
  state : ProcState
  chan : Option Chan
  killed : ℤ
  xstate : ℤ
  trapframe : Option Trapframe
  userTrapFrameBackup : Option Trapframe
  deriving DecidableEq, Repr

/-- `struct proc`, without the fields for open files, the working directory and the name. -/
structure Proc where
  state : ProcState
  killed : ℤ
  xstate : ℤ
  pid : ℤ
  parent : Option ProcId
  sz : Word
  pagetable : Option UserMem
  trapframe : Bool -- Whether the trapframe page is allocated; its contents are the threads' frames
  penddingSignals : UInt
  signalMask : UInt
  signalHandlers : Fin 32 → Word
  signalHandlersMask : Fin 32 → UInt
  frozen : ℤ
  signalMaskBackup : UInt
  signalHandlingFlag : ℤ
  threads : ThreadId → Thread

/-- A zeroed thread slot. -/
def Thread.zero : Thread := ⟨0, .unused, none, 0, 0, none, none⟩

/-- A zeroed process slot. -/
def Proc.zero : Proc :=
  { state := .unused, killed := 0, xstate := 0, pid := 0, parent := none, sz := 0,
    pagetable := none, trapframe := false, penddingSignals := 0, signalMask := 0,
    signalHandlers := fun _ => 0, signalHandlersMask := fun _ => 0, frozen := 0,
    signalMaskBackup := 0, signalHandlingFlag := 0, threads := fun _ => Thread.zero }

namespace Proc

/-- Replace one thread. -/
def setThread (p : Proc) (t : ThreadId) (th : Thread) : Proc :=
  { p with threads := Function.update p.threads t th }

/-- Replace the trapframe of one thread. -/
def setFrame (p : Proc) (t : ThreadId) (f : Trapframe) : Proc :=
  p.setThread t { p.threads t with trapframe := some f }

@[simp] theorem setThread_threads_self (p : Proc) (t : ThreadId) (th : Thread) :
    (p.setThread t th).threads t = th := by simp [setThread]

@[simp] theorem setThread_setThread (p : Proc) (t : ThreadId) (th th' : Thread) :
    (p.setThread t th).setThread t th' = p.setThread t th' := by simp [setThread]

end Proc

end Xv6
