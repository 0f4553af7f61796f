import Xv6.Signal.Handle

/-!
# Traps from user mode (`kernel/trap.c`, `kernel/syscall.c`)

One thread of a process goes from user mode into the kernel and back: `uservec` and
`usertrap`, `syscall`, `usertrapret`.

The signal system calls are those of `Signal.Handle`.  The others neither read nor write the signal
fields of the process nor the frames of the thread: what they return and leave in user memory comes
from a `SysOutcome`.  `exit`, `kthread_exit` and an `exec` that succeeds do not come back to the
interrupted program.  No other thread of the process runs meanwhile.
-/

namespace Xv6

/-- The system calls, in the order of `kernel/syscall.h`. -/
inductive Syscall
  | fork | exit | wait | pipe | read | kill | exec | fstat | chdir | dup | getpid | sbrk
  | sleep | uptime | open | write | mknod | unlink | link | mkdir | close
  | sigprocmask | sigaction | sigret
  | kthreadCreate | kthreadId | kthreadExit | kthreadJoin
  | bsemAlloc | bsemFree | bsemDown | bsemUp
  deriving DecidableEq, Repr

/-- The table `syscalls[]`, numbered from 1. -/
def syscalls : List Syscall :=
  [.fork, .exit, .wait, .pipe, .read, .kill, .exec, .fstat, .chdir, .dup, .getpid, .sbrk,
    .sleep, .uptime, .open, .write, .mknod, .unlink, .link, .mkdir, .close,
    .sigprocmask, .sigaction, .sigret,
    .kthreadCreate, .kthreadId, .kthreadExit, .kthreadJoin,
    .bsemAlloc, .bsemFree, .bsemDown, .bsemUp]

/-- The system call that the `int` in `a7` selects. -/
def syscallOf (a7 : Word) : Option Syscall :=
  let num := (a7.setWidth 32).toInt
  if 0 < num then syscalls[num.toNat - 1]? else none

/-- What a system call that is not about signals leaves behind. -/
structure SysOutcome where
  ret : Word
  mem : UserMem
  sz : Word
  junk : List Byte -- The contents of uninitialised locals

/-- How a system call ends. -/
inductive SysResult
  | fault
  | gone -- It does not return to the interrupted program
  | ret (v : Word) (p : Proc)

/-- `syscalls[num]()`, with the arguments in the saved registers `r`. -/
def sysCall (out : SysOutcome) (p : Proc) (t : ThreadId) (r : UserRegs) : Syscall → SysResult
  | .sigprocmask =>
    let (old, p) := p.sigprocmask (r.a0.setWidth 32)
    .ret (old.setWidth 64) p
  | .sigaction =>
    match sigaction p (r.a0.setWidth 32).toInt r.a1 r.a2 out.junk with
    | some (v, p) => .ret (BitVec.ofInt 64 v) p
    | none => .fault
  | .sigret =>
    match sigret p t with
    | some p => .ret 0 p
    | none => .fault
  | .exit | .kthreadExit => .gone
  | .exec => if out.ret = -1 then .ret (-1) p else .gone
  | _ => .ret out.ret { p with pagetable := some out.mem, sz := out.sz }

/-- Store the return value in the saved `a0`. -/
def Proc.setA0 (p : Proc) (t : ThreadId) (v : Word) : Option Proc := do
  let f ← (p.threads t).trapframe
  some (p.setFrame t { f with a0 := v })

/-- `syscall`. -/
def syscall (out : SysOutcome) (p : Proc) (t : ThreadId) (r : UserRegs) : SysResult :=
  match syscallOf r.a7 with
  | none => .ret (-1) p
  | some c => sysCall out p t r c

/-- The values `usertrapret` stores for the next `uservec`. -/
structure Hart where
  satp : Word
  sp : Word
  trap : Word
  hartid : Word

/-- How a pass through the kernel ends for the thread. -/
inductive Return
  | fault
  | gone
  | looping
  | user (p : Proc) -- Back in user mode, with the registers in the trapframe

/-- The end of `usertrapret`. -/
def enterUser (hart : Hart) (p : Proc) (t : ThreadId) : Return :=
  match (p.threads t).trapframe with
  | none => .fault
  | some f =>
    .user (p.setFrame t { f with
      kernelSatp := hart.satp, kernelSp := hart.sp, kernelTrap := hart.trap,
      kernelHartid := hart.hartid })

/-- What happens around a return to user mode: the hart, the stub copied for `sigret`, the
signals that arrive inside `handle_pendding_sinals`, and those that arrive before
`userhandler` takes the lock. -/
structure RetEnv where
  hart : Hart
  stub : List Byte
  gaps : List UInt
  late : UInt

/-- `usertrapret`. -/
def usertrapret (e : RetEnv) (p : Proc) (t : ThreadId) : Return :=
  if p.signalHandlingFlag = 0 then
    match handlePenddingSinals e.gaps p t with
    | .fault => .fault
    | .looping => .looping
    | .done none p => enterUser e.hart p t
    | .done (some i) p =>
      match userhandler e.stub (p.arrive e.late) t i with
      | none => .fault
      | some p => enterUser e.hart p t
  else enterUser e.hart p t

/-- Why a thread left user mode. -/
inductive Cause
  | syscall
  | timer
  | device
  | unexpected
  deriving DecidableEq, Repr

/-- A trap: the user registers (with `sepc` as `epc`), the cause, the outcome of the system
call, and the signals that arrive while the thread is in the kernel. -/
structure Trap where
  regs : UserRegs
  cause : Cause
  out : SysOutcome
  arrived : UInt
  ret : RetEnv

/-- `uservec` and the first lines of `usertrap`: save the user registers. -/
def saveRegs (p : Proc) (t : ThreadId) (r : UserRegs) : Option Proc := do
  let f ← (p.threads t).trapframe
  some (p.setFrame t { f with toUserRegs := r })

/-- `t->trapframe->epc += 4`: return to the instruction after the `ecall`. -/
def UserRegs.afterEcall (r : UserRegs) : UserRegs := { r with epc := r.epc + 4 }

/-- The system call branch of `usertrap`, in a process that is not killed. -/
def trapSyscall (tr : Trap) (p : Proc) (t : ThreadId) : SysResult :=
  match saveRegs p t tr.regs.afterEcall with
  | none => .fault
  | some p =>
    match syscall tr.out p t tr.regs.afterEcall with
    | .ret v p =>
      match p.setA0 t v with
      | some p => .ret v p
      | none => .fault
    | other => other

/-- Whether `usertrap` ends the thread: `p->killed` or `t->killed`. -/
def Proc.doomed (p : Proc) (t : ThreadId) : Bool := p.killed != 0 || (p.threads t).killed != 0

/-- The end of `usertrap`. -/
def finishTrap (tr : Trap) (p : Proc) (t : ThreadId) : Return :=
  if p.doomed t then .gone else usertrapret tr.ret (p.arrive tr.arrived) t

/-- `usertrap`. -/
def usertrap (tr : Trap) (p : Proc) (t : ThreadId) : Return :=
  match tr.cause with
  | .syscall =>
    if p.doomed t then .gone
    else
      match trapSyscall tr p t with
      | .fault => .fault
      | .gone => .gone
      | .ret _ p => finishTrap tr p t
  | .timer | .device =>
    match saveRegs p t tr.regs with
    | none => .fault
    | some p => finishTrap tr p t
  | .unexpected => .gone

end Xv6
