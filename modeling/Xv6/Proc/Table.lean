import Xv6.Proc.Alloc
import Mathlib.Data.Fintype.Prod

/-!
# The process table under its operations

The table of `kernel/proc.c`, and one step for each operation of a thread on it: `fork`, `kill`,
`exit`, `wait`, `exec`, the system calls on signals and on threads, going to sleep, waking up,
and the way back to user mode.  An operation that gives up its locks on the way is several steps,
and the `Pc` says where the thread stands: `fork` before the child is runnable,
`handle_pendding_sinals` around the handlers that take the lock themselves.

A thread takes steps while its state is `RUNNING`.  One that a sibling's `exit` has made a `ZOMBIE`
while it ran on another hart goes on until it gives up the hart; here it takes no more steps
(`Xv6.Smp` has them).  Choices that do not come from the table (whether an allocation or a copy
succeeds, which channel a call sleeps on) are part of the action, as are the slots that `kill` and
`fork` find and whether a thread is the last of its process.
-/

namespace Xv6

open Function

/-- A thread slot of the table. -/
abbrev Tid := ProcId × ThreadId

/-- Where a thread stands. -/
inductive Pc
  | run -- In user mode or between two operations
  | asleep -- In `sleep`, after `sched`
  | forkParent (np : ProcId) (nt : ThreadId) -- In `fork`, before `np->parent` is set
  | forkRunnable (np : ProcId) (nt : ThreadId) -- In `fork`, before the child is made runnable
  | execWait -- In `exec`, waiting for the other threads
  | freezing -- In the freeze loop of `handle_pendding_sinals`
  | thaw -- Before `sigContHandler`, called in the freeze loop
  | thawed -- After that handler, before `SIGCONT` is taken off
  | handler (i : Fin 32) (a : Action) -- Before the stop or continue handler that signal `i` selects
  | handled (i : Fin 32) -- After that handler, before the signal is taken off
  | deliver (i : Fin 32) -- Before `userhandler(i)`
  deriving DecidableEq, Repr

/-- The process table. -/
structure Table where
  proc : ProcId → Proc
  pc : Tid → Pc
  initproc : ProcId
  nextpid : ℤ -- `nextpid` and `nexttid` are `int`s: this is for runs in which they do not overflow
  nexttid : ℤ

/-- The actions of the threads (first argument: the thread) and of the scheduler. -/
inductive Act
  | sched (x : Tid)
  | yield (x : Tid)
  | sleep (x : Tid) (chan : Chan)
  | resume (x : Tid)
  /-- A call of `wakeup`, by a thread or from an interrupt while no thread runs. -/
  | wakeup (x : Option Tid) (chan : Chan)
  | fork (x : Tid) (k : Pages) (np : Option ProcId)
  | forkParent (x : Tid)
  | forkRunnable (x : Tid)
  | kill (x : Tid) (pid signum : ℤ) (found : Option ProcId)
  | exit (x : Tid) (status : ℤ)
  /-- `copied` is false if the copy of the exit status to the user fails. -/
  | wait (x : Tid) (copied : Bool)
  | exec (x : Tid)
  | execDone (x : Tid) (im : Option Image)
  | unexpected (x : Tid) -- A trap that `usertrap` does not expect
  /-- The start of a pass through `handle_pendding_sinals`, or a further turn of its freeze
  loop. -/
  | pass (x : Tid)
  | passOn (x : Tid) (stub : List Byte) -- The next step of a pass after the lock was released
  | sigprocmask (x : Tid) (mask : UInt)
  | sigaction (x : Tid) (signum : ℤ) (act oldact : Word) (junk : List Byte)
  | sigret (x : Tid)
  | kthreadCreate (x : Tid) (start stack : Word) (page : Option Trapframe)
  /-- `last`: no other thread of the process is left. -/
  | kthreadExit (x : Tid) (status : ℤ) (last : Bool)
  | kthreadJoin (x : Tid) (id : ℤ) (copied : Bool)

namespace Table

/-- The thread record in slot `x`. -/
def thread (s : Table) (x : Tid) : Thread := (s.proc x.1).threads x.2

/-- Thread `x` runs and stands at `c`. -/
def AtPc (s : Table) (x : Tid) (c : Pc) : Prop := (s.thread x).state = .running ∧ s.pc x = c

instance (s : Table) (x : Tid) (c : Pc) : Decidable (s.AtPc x c) := by
  unfold AtPc; infer_instance

/-- Replace one process. -/
def setProc (s : Table) (q : ProcId) (p : Proc) : Table :=
  { s with proc := update s.proc q p }

/-- Replace one thread record. -/
def setThread (s : Table) (x : Tid) (th : Thread) : Table :=
  s.setProc x.1 ((s.proc x.1).setThread x.2 th)

/-- Move a thread. -/
def goto (s : Table) (x : Tid) (c : Pc) : Table := { s with pc := update s.pc x c }

/-- The thread goes to sleep on `chan`. -/
def sleepOn (s : Table) (x : Tid) (chan : Chan) : Table :=
  (s.setThread x { s.thread x with chan := some chan, state := .sleeping }).goto x .asleep

/-- `wakeup(chan)`, called by `x`. -/
def wakeup (s : Table) (x : Option Tid) (chan : Option Chan) : Table :=
  { s with
    proc := fun q =>
      (s.proc q).wakeupThreads (x.bind fun x => if x.1 = q then some x.2 else none) chan }

/-- The first slot that satisfies `P`. -/
def findProc (s : Table) (P : Proc → Bool) : Option ProcId :=
  (List.finRange NPROC).find? fun q => P (s.proc q)

/-- `fork` once `allocproc` has returned the child `np` with its thread `nt`. -/
def forkCopy (s : Table) (x : Tid) (np : ProcId) (nt : ThreadId) (copy : Bool) : Option Table :=
  if copy then do
    let f ← (s.thread x).trapframe
    some (((s.setProc np ((s.proc x.1).forkInto f (s.proc np) nt)).goto (np, nt) .run).goto x
      (.forkParent np nt))
  else some (s.setProc np (s.proc np).freeproc)

/-- `fork` up to the first release of the child's lock; `np` is the slot it finds.  If `allocthread`
finds no page, the `freeproc` that `allocproc` calls after that release is part of the step. -/
def fork (s : Table) (x : Tid) (k : Pages) : Option ProcId → Option Table
  | none => some s
  | some np =>
    match (s.proc np).allocproc s.nextpid s.nexttid k with
    | (none, child, tid) =>
      some { s.setProc np child with nextpid := s.nextpid + 1, nexttid := tid }
    | (some nt, child, tid) =>
      forkCopy { s.setProc np child with nextpid := s.nextpid + 1, nexttid := tid } x np nt k.copy

/-- `kill` on the slot it finds. -/
def kill (s : Table) (signum : ℤ) : Option ProcId → Table
  | none => s
  | some q => s.setProc q ((s.proc q).arrive (sigBit (Fin.ofNat 32 signum.toNat)))

/-- The slot `kill` finds; a signal number out of range is refused first. -/
def killFinds (s : Table) (pid signum : ℤ) : Option ProcId :=
  if signum < 0 ∨ 31 < signum then none else s.findProc fun p => p.pid = pid

/-- `reparent(p)`. -/
def reparent (s : Table) (x : Tid) : Table :=
  let orphans := decide (∃ q, (s.proc q).parent = some x.1)
  let s' := { s with
    proc := fun q =>
      if (s.proc q).parent = some x.1 then { s.proc q with parent := some s.initproc }
      else s.proc q }
  if orphans then s'.wakeup (some x) (some (.proc s.initproc)) else s'

/-- `exit` from `acquire(&wait_lock)` on. -/
def exit (s : Table) (x : Tid) (status : ℤ) : Table :=
  let s := s.reparent x
  let s := s.wakeup (some x) ((s.proc x.1).parent.map .proc)
  s.setProc x.1 ((s.proc x.1).exitMark status)

/-- The zombie child that `wait` finds. -/
def reaped (s : Table) (x : Tid) : Option ProcId :=
  s.findProc fun p => p.parent = some x.1 ∧ p.state = .zombie

/-- One turn of the loop of `wait`. -/
def wait (s : Table) (x : Tid) (copied : Bool) : Table :=
  match s.reaped x with
  | some np => if copied then s.setProc np (s.proc np).freeproc else s
  | none =>
    if (∃ q, (s.proc q).parent = some x.1) ∧ (s.proc x.1).killed = 0 then s.sleepOn x (.proc x.1)
    else s

/-- The freeze loop and the loop over the signals, up to the next release of the lock. -/
def passLoop (s : Table) (x : Tid) : Table :=
  let p := s.proc x.1
  if p.frozen = 1 then
    if isSet p.penddingSignals SIGCONT then s.goto x .thaw
    else (s.setThread x { s.thread x with state := .runnable }).goto x .freezing
  else
    match scan p with
    | none => s.goto x .run
    | some (i, .kill) => (s.setProc x.1 (perform p 0 i .kill)).goto x .run
    | some (i, .ignore) => (s.setProc x.1 (perform p 0 i .ignore)).goto x .run
    | some (i, .deliver) => s.goto x (.deliver i)
    | some (i, a) => s.goto x (.handler i a)

/-- The signal on which that turn acts. -/
def acts (s : Table) (x : Tid) : Option (Fin 32) :=
  let p := s.proc x.1
  if p.frozen = 1 then if isSet p.penddingSignals SIGCONT then some SIGCONT else none
  else (scan p).map Prod.fst

/-- A pass starts by saving the frame. -/
def pass (s : Table) (x : Tid) : Option Table :=
  if s.AtPc x .run ∧ (s.proc x.1).signalHandlingFlag = 0 then do
    let p ← saveFrame (s.proc x.1) x.2
    some ((s.setProc x.1 p).passLoop x)
  else if s.AtPc x .freezing then some (s.passLoop x)
  else none

/-- The rest of a pass, one step for each time the lock is taken again. -/
def passOn (s : Table) (x : Tid) (stub : List Byte) : Option Table :=
  if (s.thread x).state = .running then
    let p := s.proc x.1
    match s.pc x with
    | .thaw => some ((s.setProc x.1 p.sigContHandler).goto x .thawed)
    | .thawed => some ((s.setProc x.1 (p.clearSignal SIGCONT)).goto x .freezing)
    | .handler i .stop => some ((s.setProc x.1 p.sigStopHandler).goto x (.handled i))
    | .handler i _ => some ((s.setProc x.1 p.sigContHandler).goto x (.handled i))
    | .handled i => some ((s.setProc x.1 (p.clearSignal i)).goto x .run)
    | .deliver i => do
      let p ← userhandler stub p x.2 i
      some ((s.setProc x.1 p).goto x .run)
    | _ => none
  else none

/-- `kthread_create`. -/
def kthreadCreate (s : Table) (x : Tid) (start stack : Word) (page : Option Trapframe) :
    Option Table :=
  match (s.proc x.1).allocthread s.nexttid page with
  | (none, p, tid) => some { s.setProc x.1 p with nexttid := tid }
  | (some nt, p, tid) => do
    let f ← (p.threads x.2).trapframe
    some { (s.setProc x.1 (p.startThread f nt start stack)).goto (x.1, nt) .run
      with nexttid := tid }

/-- No thread but `x` is left in its process. -/
def lastThread (s : Table) (x : Tid) : Bool :=
  decide (∀ t, t ≠ x.2 → (s.thread (x.1, t)).state = .unused ∨ (s.thread (x.1, t)).state = .zombie)

/-- `kthread_exit`: the last thread takes the process with it. -/
def kthreadExit (s : Table) (x : Tid) (status : ℤ) (last : Bool) : Option Table :=
  let s := s.setThread x { s.thread x with state := .zombie, xstate := status }
  if last then if x.1 = s.initproc then none else some (s.exit x status)
  else some (s.wakeup (some x) (some (.thread x.1 x.2)))

/-- One turn of the loop of `kthread_join`. -/
def kthreadJoin (s : Table) (x : Tid) (id : ℤ) (copied : Bool) : Table :=
  if id = 0 ∨ id = (s.thread x).id then s
  else
    match (s.proc x.1).findThread fun th => th.id = id with
    | none => s
    | some t =>
      if (s.thread (x.1, t)).state = .zombie then
        if copied then s.setThread (x.1, t) (freethread (s.thread (x.1, t))) else s
      else if (s.thread x).killed ≠ 0 then s
      else s.sleepOn x (.thread x.1 t)

/-- One step; `none` if the action is not possible. -/
def step (s : Table) : Act → Option Table
  | .sched x =>
    if (s.proc x.1).state ≠ .unused ∧ (s.thread x).state = .runnable then
      some (s.setThread x { s.thread x with state := .running })
    else none
  | .yield x =>
    if s.AtPc x .run then some (s.setThread x { s.thread x with state := .runnable }) else none
  | .sleep x chan => if s.AtPc x .run then some (s.sleepOn x chan) else none
  | .resume x =>
    if s.AtPc x .asleep then some ((s.setThread x { s.thread x with chan := none }).goto x .run)
    else none
  | .wakeup x chan =>
    if ∀ y ∈ x, (s.thread y).state = .running then some (s.wakeup x (some chan)) else none
  | .fork x k np =>
    if s.AtPc x .run ∧ np = s.findProc fun p => p.state = .unused then s.fork x k np else none
  | .forkParent x =>
    match s.pc x with
    | .forkParent np nt =>
      if (s.thread x).state = .running then
        some ((s.setProc np { s.proc np with parent := some x.1 }).goto x (.forkRunnable np nt))
      else none
    | _ => none
  | .forkRunnable x =>
    match s.pc x with
    | .forkRunnable np nt =>
      if (s.thread x).state = .running then
        some ((s.setProc np ((s.proc np).makeRunnable nt)).goto x .run)
      else none
    | _ => none
  | .kill x pid signum found =>
    if s.AtPc x .run ∧ found = s.killFinds pid signum then some (s.kill signum found) else none
  | .exit x status => if s.AtPc x .run ∧ x.1 ≠ s.initproc then some (s.exit x status) else none
  | .wait x copied => if s.AtPc x .run then some (s.wait x copied) else none
  | .exec x =>
    if s.AtPc x .run then some ((s.setProc x.1 ((s.proc x.1).execMark x.2)).goto x .execWait)
    else none
  | .execDone x im =>
    if s.AtPc x .execWait ∧ (s.proc x.1).alone x.2 then
      match im with
      | none => some (s.goto x .run)
      | some im => do
        let f ← (s.thread x).trapframe
        some ((s.setProc x.1 ((s.proc x.1).execImage x.2 f im)).goto x .run)
    else none
  | .unexpected x =>
    if s.AtPc x .run then
      some (s.setProc x.1
        { (s.proc x.1).setThread x.2 { s.thread x with killed := 1 } with killed := 1 })
    else none
  | .pass x => s.pass x
  | .passOn x stub => s.passOn x stub
  | .sigprocmask x mask =>
    if s.AtPc x .run then some (s.setProc x.1 ((s.proc x.1).sigprocmask mask).2) else none
  | .sigaction x signum act oldact junk =>
    if s.AtPc x .run then do
      let (_, p) ← Xv6.sigaction (s.proc x.1) signum act oldact junk
      some (s.setProc x.1 p)
    else none
  | .sigret x =>
    if s.AtPc x .run then do
      let p ← Xv6.sigret (s.proc x.1) x.2
      some (s.setProc x.1 p)
    else none
  | .kthreadCreate x start stack page =>
    if s.AtPc x .run then s.kthreadCreate x start stack page else none
  | .kthreadExit x status last =>
    if s.AtPc x .run ∧ last = s.lastThread x then s.kthreadExit x status last else none
  | .kthreadJoin x id copied => if s.AtPc x .run then some (s.kthreadJoin x id copied) else none

end Table

/-- `procinit` and `userinit`: the first process, in the first slot.  `none` if its memory
cannot be allocated. -/
def userinit (k : Pages) (mem : UserMem) : Option Table :=
  match Proc.zero.allocproc 1 1 k with
  | (none, _, _) => none
  | (some nt, p, tid) => do
    let f ← (p.threads nt).trapframe
    let p := { p.setFrame nt { f with epc := 0, sp := BitVec.ofNat 64 PGSIZE } with
      pagetable := some mem, sz := BitVec.ofNat 64 PGSIZE, frozen := 0, signalMask := 0 }
    some {
      proc := update (fun _ => Proc.zero) 0 (p.makeRunnable nt)
      pc := fun _ => .run, initproc := 0, nextpid := 2, nexttid := tid }

end Xv6
