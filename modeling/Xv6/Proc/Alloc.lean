import Xv6.Signal.Handle

/-!
# Slots of the process table (`kernel/proc.c`, `kernel/exec.c`)

What the operations do to one `struct proc`: `freethread`, `allocthread`, `freeproc`,
`allocproc` and the parts of `fork`, `exit`, `wakeup`, `exec` and `kthread_create` that work on
a single slot.

The result of a `kalloc` is an argument: the contents of the new page, or `none` if there is no
memory.
-/

namespace Xv6

/-- `freethread`. -/
def freethread (th : Thread) : Thread :=
  { th with
    userTrapFrameBackup := none, id := 0, chan := none, killed := 0, xstate := 0
    state := .unused }

namespace Proc

/-- The first thread slot that satisfies `P`. -/
def findThread (p : Proc) (P : Thread → Bool) : Option ThreadId :=
  (List.finRange NTHREAD).find? fun t => P (p.threads t)

/-- `freeproc`: the threads that are neither free nor running are freed. -/
def freeproc (p : Proc) : Proc :=
  { p with
    threads := fun t =>
      let th := p.threads t
      if th.state ≠ .unused ∧ th.state ≠ .running then { freethread th with trapframe := none }
      else th
    trapframe := false, pagetable := none, sz := 0, pid := 0, parent := none, killed := 0
    xstate := 0, state := .unused }

/-- `allocthread` with the next thread id `tid`: the new thread, the process, and the thread
id to use next. -/
def allocthread (p : Proc) (tid : ℤ) (page : Option Trapframe) : Option ThreadId × Proc × ℤ :=
  match p.findThread fun th => th.state = .unused with
  | none => (none, p, tid)
  | some t =>
    let p := p.setThread t
      { p.threads t with id := tid, state := .used, userTrapFrameBackup := page }
    match page with
    | none => (none, p.freeproc, tid + 1)
    | some _ => (some t, p, tid + 1)

end Proc

/-- The memory that `allocproc` and `fork` ask for: the trapframe page (with what it contains),
an empty page table, the page for the backup frame, and the copy of the parent's memory. -/
structure Pages where
  trapframe : Option (ThreadId → Trapframe)
  pagetable : Bool
  backup : Option Trapframe
  copy : Bool

namespace Proc

/-- The trapframe page, one frame for each thread. -/
def setFrames (p : Proc) (frames : ThreadId → Trapframe) : Proc :=
  { p with
    trapframe := true
    threads := fun t => { p.threads t with trapframe := some (frames t) } }

/-- An empty user page table, and the default handlers. -/
def emptySpace (p : Proc) : Proc :=
  { p with
    pagetable := some fun _ => none
    signalHandlers := fun _ => SIG_DFL, signalHandlersMask := fun _ => 0 }

/-- `allocproc` on the free slot `p` it has found. -/
def allocproc (p : Proc) (pid tid : ℤ) (k : Pages) : Option ThreadId × Proc × ℤ :=
  let p := { p with pid := pid, state := .used }
  match k.trapframe with
  | none => (none, p.freeproc, tid)
  | some frames =>
    if k.pagetable then
      match (p.setFrames frames).emptySpace.allocthread tid k.backup with
      | (none, p, tid) => (none, p.freeproc, tid)
      | r => r
    else (none, (p.setFrames frames).freeproc, tid)

/-- What `fork` copies from the parent `p`, called by a thread with frame `f`, to the child
`np` with thread `nt`. -/
def forkInto (p : Proc) (f : Trapframe) (np : Proc) (nt : ThreadId) : Proc :=
  { np.setFrame nt { f with a0 := 0 } with
    pagetable := p.pagetable, sz := p.sz
    signalMask := p.signalMask
    signalHandlers := p.signalHandlers, signalHandlersMask := p.signalHandlersMask
    frozen := 0, signalHandlingFlag := 0 }

/-- The end of `fork`: parent set, process and thread runnable. -/
def makeRunnable (np : Proc) (nt : ThreadId) : Proc :=
  { np.setThread nt { np.threads nt with state := .runnable } with state := .runnable }

/-- `exit` with `p->lock` held: every thread in use becomes a zombie. -/
def exitMark (p : Proc) (status : ℤ) : Proc :=
  { p with
    threads := fun t =>
      let th := p.threads t
      if th.state ≠ .unused ∧ th.state ≠ .zombie then { th with state := .zombie, xstate := status }
      else th
    xstate := status, state := .zombie }

/-- The turn of `wakeup(chan)` for this process; `self` is the calling thread, if it is one of
this process. -/
def wakeupThreads (p : Proc) (self : Option ThreadId) (chan : Option Chan) : Proc :=
  { p with
    threads := fun t =>
      let th := p.threads t
      if self ≠ some t ∧ th.state = .sleeping ∧ th.chan = chan then { th with state := .runnable }
      else th }

/-- The start of `exec` in thread `t`: the other threads are told to die. -/
def execMark (p : Proc) (t : ThreadId) : Proc :=
  { p with
    threads := fun ot =>
      let th := p.threads ot
      if th.state ≠ .unused ∧ ot ≠ t then
        { th with killed := 1, state := if th.state = .sleeping then .runnable else th.state }
      else th }

/-- `exec` waits until no other thread is alive. -/
def alone (p : Proc) (t : ThreadId) : Bool :=
  decide (∀ ot, ot ≠ t → (p.threads ot).state = .unused ∨ (p.threads ot).state = .zombie)

end Proc

/-- The new user image of `exec`. -/
structure Image where
  mem : UserMem
  sz : Word
  entry : Word
  sp : Word

/-- `exec` commits to the image.  All handlers are reset: the test in the source compares the
address of the table entry, which is neither `SIG_DFL` nor `SIG_IGN`. -/
def Proc.execImage (p : Proc) (t : ThreadId) (f : Trapframe) (im : Image) : Proc :=
  { p.setFrame t { f with a1 := im.sp, epc := im.entry, sp := im.sp } with
    pagetable := some im.mem, sz := im.sz
    signalHandlers := fun _ => SIG_DFL, signalHandlersMask := fun _ => 0 }

/-- `MAX_STACK_SIZE` of `kernel/param.h`. -/
def MAX_STACK_SIZE : ℕ := 4000

/-- `kthread_create` on the new thread `nt`. -/
def Proc.startThread (p : Proc) (f : Trapframe) (nt : ThreadId) (start stack : Word) : Proc :=
  let p := p.setFrame nt
    { f with epc := start, sp := stack + BitVec.ofNat 64 MAX_STACK_SIZE - 16 }
  p.setThread nt { p.threads nt with state := .runnable }

end Xv6
