import Xv6.Lib.Spinlock
import Xv6.Proc.Table

/-!
# The process table on several CPUs

The code of `kernel/proc.c` that changes thread states, on any number of CPUs, interleaved at lock
operations: `scheduler`, `sched`, `yield`, `sleep`, `wakeup`, `kthread_create`, `kthread_exit`,
`kthread_join`, `fork`, `exit` and `wait`.  One step of a CPU is a lock operation with the code up
to the next one, or a switch between a thread and the scheduler.

A `Base` is a position between two lock operations.  A thread that is switched out keeps its
position in its slot (`pos`), as the kernel stack and the saved context do; `allocthread` sets
it to the start of `forkret`.

Everything else a thread does in the kernel is a parameter, the `Monitor`: its state, its steps, and
which threads are inside one of its operations.  Such a thread may be preempted, sleep and wake
others, but is not at the boundary to user mode where the calls modelled here start, nor past the
part of `exit` that closes the files.

Interrupts call `wakeup` in the scheduler; one that comes while a thread executes without locks does
the same as on another CPU that is idle.
-/

namespace Xv6

open Function

/-- `allocproc` on the free slot `p` it has found, as far as the lock of the slot is held: if
`allocthread` fails, the lock is released before `freeproc`. -/
def Proc.allocprocLocked (p : Proc) (pid tid : ℤ) (k : Pages) : Option ThreadId × Proc × ℤ :=
  let p := { p with pid := pid, state := .used }
  match k.trapframe with
  | none => (none, p.freeproc, tid)
  | some frames =>
    if k.pagetable then (p.setFrames frames).emptySpace.allocthread tid k.backup
    else (none, (p.setFrames frames).freeproc, tid)

namespace Smp

/-- The spinlocks of the process table. -/
inductive Lk
  | wait
  | proc (q : ProcId)
  deriving DecidableEq, Repr

/-- A call of `exit`: `last` if the last thread of the process makes it in `kthread_exit`. -/
structure Exiting where
  last : Bool
  status : ℤ
  deriving DecidableEq, Repr

/-- Where the rest of the kernel runs: outside the code of this file, which includes user mode, or
in `exit` before `acquire(&wait_lock)`, where it closes the files. -/
inductive Body
  | user
  | closing (e : Exiting)
  deriving DecidableEq, Repr

/-- Who calls `sleep`: `wait` and `kthread_join` with `wait_lock`, others with another lock. -/
inductive Sleeper
  | other (w : Body)
  | wait
  | join (id : ℤ)
  deriving DecidableEq, Repr

/-- Where a call of `wakeup` returns to. -/
inductive Ret
  | other (w : Body)
  | kexit -- In `kthread_exit`
  | reparent (k : ℕ) (e : Exiting) -- In `reparent`, with slot `k` to look at next
  | exit (e : Exiting) -- In `exit`, after `wakeup(p->parent)`
  deriving DecidableEq, Repr

/-- The positions of a thread, by the lock operation that comes next. -/
inductive Base
  | body (w : Body)
  | sleep1 (chan : Chan) (k : Sleeper) -- `sleep`: `release(lk)`
  | reacquire (k : Sleeper) -- `sleep`: `acquire(lk)` after waking up
  | wake (chan : Option Chan) (q : ProcId) (r : Ret) -- `wakeup`: `acquire(&p->lock)` of slot `q`
  | waking (chan : Option Chan) (q : ProcId) (r : Ret) -- `wakeup`: `release(&p->lock)` of slot `q`
  | unlock -- `kthread_create`, `exec` or `handle_pendding_sinals`: `release(&p->lock)`
  | kexit1 (e : Exiting) -- `kthread_exit`: `release(&p->lock)`, marked as a zombie
  | kexit2 -- `kthread_exit`: `acquire(&wait_lock)`
  | kexit3 -- `kthread_exit`: `release(&wait_lock)`
  | kexit4 -- `kthread_exit`: `acquire(&p->lock)`, then `sched`
  /-- `kthread_join`: `acquire(&p->lock)` for thread `t`, whose id matches. -/
  | joinAt (id : ℤ) (t : ThreadId)
  | joinChecked (id : ℤ) (t : ThreadId) (done : Bool) -- `kthread_join`: `release(&p->lock)`
  | joinSleep (id : ℤ) (t : ThreadId) -- `kthread_join`: `acquire(&p->lock)` in `sleep`
  | joinEnd -- `kthread_join`: `release(&wait_lock)`
  | waitAt (np : ProcId) -- `wait`: `acquire(&np->lock)`
  | waitChecked (np : ProcId) (done : Bool) -- `wait`: `release(&np->lock)`
  | waitSleep -- `wait`: `acquire(&p->lock)` in `sleep`
  | waitEnd -- `wait`: `release(&wait_lock)`
  | exit1 (e : Exiting) -- `exit`: `acquire(&p->lock)`
  | exit2 -- `exit`: `release(&wait_lock)`, then `sched`
  | fork1 (q : ProcId) -- `allocproc`: `acquire(&p->lock)` of slot `q`
  | fork2 (q : ProcId) -- `allocproc`: `release(&p->lock)` of slot `q`, which is not free
  /-- `fork`: `release(&np->lock)`; `again` if `allocproc` then frees the slot once more. -/
  | fork3 (np : ProcId) (nt : Option ThreadId) (again : Bool)
  /-- `allocproc`: `freeproc(p)` after `allocthread` has failed and released the lock. -/
  | forkFree (np : ProcId)
  | fork4 (np : ProcId) (nt : ThreadId) -- `fork`: `acquire(&wait_lock)`
  | fork5 (np : ProcId) (nt : ThreadId) -- `fork`: `release(&wait_lock)`
  | fork6 (np : ProcId) (nt : ThreadId) -- `fork`: `acquire(&np->lock)`
  | fork7 (np : ProcId) -- `fork`: `release(&np->lock)`
  deriving DecidableEq, Repr

/-- Where the thread in a slot stands. -/
inductive Pos
  | here (b : Base)
  /-- Switched out in `yield` or not yet started: `release(&p->lock)`, then on at `b`. -/
  | resumed (b : Base)
  | slept (k : Sleeper) -- Switched out in `sleep`
  | dead -- Switched out in `exit` or `kthread_exit`
  deriving DecidableEq, Repr

/-- What a CPU does. -/
inductive CpuPos
  | sched (q : ProcId) -- `scheduler`: `acquire(&p->lock)` of slot `q`
  | pick (q : ProcId) (k : ℕ) -- `scheduler`: looking for a thread of slot `q`, from thread `k` on
  | run (x : Tid) -- Executing the thread in slot `x`
  /-- `wakeup` from an interrupt in the scheduler, which goes on at `back`. -/
  | wake (chan : Chan) (q back : ProcId)
  | waking (chan : Chan) (q back : ProcId)
  deriving DecidableEq, Repr

/-! ### Locks held at a position -/

def Sleeper.locks : Sleeper → List Lk
  | .other _ => []
  | _ => [.wait]

def Ret.locks : Ret → List Lk
  | .other _ => []
  | _ => [.wait]

/-- The locks held at a position by a thread of process `q`. -/
def Base.locks (q : ProcId) : Base → List Lk
  | .body _ => []
  | .sleep1 _ k => .proc q :: k.locks
  | .reacquire _ => []
  | .wake _ _ r => r.locks
  | .waking _ q' r => .proc q' :: r.locks
  | .unlock => [.proc q]
  | .kexit1 _ => [.proc q]
  | .kexit2 => []
  | .kexit3 => [.wait]
  | .kexit4 => []
  | .joinAt _ _ => [.wait]
  | .joinChecked _ _ _ => [.proc q, .wait]
  | .joinSleep _ _ => [.wait]
  | .joinEnd => [.wait]
  | .waitAt _ => [.wait]
  | .waitChecked np _ => [.proc np, .wait]
  | .waitSleep => [.wait]
  | .waitEnd => [.wait]
  | .exit1 _ => [.wait]
  | .exit2 => [.proc q, .wait]
  | .fork1 _ => []
  | .fork2 q' => [.proc q']
  | .fork3 np _ _ => [.proc np]
  | .forkFree _ => []
  | .fork4 _ _ => []
  | .fork5 _ _ => [.wait]
  | .fork6 _ _ => []
  | .fork7 np => [.proc np]

def Pos.locks (q : ProcId) : Pos → List Lk
  | .here b => b.locks q
  | _ => [.proc q]

/-- The locks a CPU holds in the scheduler. -/
def CpuPos.locks : CpuPos → List Lk
  | .pick q _ => [.proc q]
  | .waking _ q _ => [.proc q]
  | _ => []

/-! ### The machine -/

/-- The rest of the kernel: its steps, which threads are inside its operations, and what a new
thread in a slot starts with. -/
structure Monitor (M K : Type) where
  step : M → Tid → K → Option M
  busy : M → Tid → Bool
  fresh : M → Tid → M

/-- What a step leaves open. -/
inductive Choice (K : Type)
  | go
  | yield
  | sleep (chan : Chan)
  | wakeup (chan : Chan)
  | other (k : K)
  | kthreadCreate (start stack : Word) (page : Option Trapframe)
  | kthreadExit (status : ℤ)
  | kthreadJoin (id : ℤ)
  | fork
  | exit (status : ℤ)
  | wait
  | exec -- The start of `exec`, which tells the other threads to die
  | sigkill -- `sigKillHandler`
  | pages (k : Pages) -- The memory `allocproc` and `fork` get
  | flag (b : Bool) -- Whether a copy to user memory succeeds, or whether the thread has been killed

structure Machine (C M : Type) where
  proc : ProcId → Proc
  initproc : ProcId
  nextpid : ℤ -- `nextpid` and `nexttid` are `int`s: this is for runs in which they do not overflow
  nexttid : ℤ
  pos : Tid → Pos
  cpu : C → CpuPos
  lock : Lk → Option C
  mem : M

/-- The slot after `q`. -/
def nextSlot (q : ProcId) : Option ProcId :=
  if h : q.val + 1 < NPROC then some ⟨q.val + 1, h⟩ else none

namespace Machine

variable {C M K : Type} [DecidableEq C]

/-- The thread record in slot `x`. -/
def thread (s : Machine C M) (x : Tid) : Thread := (s.proc x.1).threads x.2

/-- The state of the thread in slot `x`. -/
def state (s : Machine C M) (x : Tid) : ProcState := (s.thread x).state

def acquire (s : Machine C M) (c : C) (l : Lk) : Option (Machine C M) := do
  let lock ← Spinlock.acquire s.lock c l
  some { s with lock := lock }

def release (s : Machine C M) (c : C) (l : Lk) : Option (Machine C M) := do
  let lock ← Spinlock.release s.lock c l
  some { s with lock := lock }

def setProc (s : Machine C M) (q : ProcId) (p : Proc) : Machine C M :=
  { s with proc := update s.proc q p }

def setThread (s : Machine C M) (x : Tid) (th : Thread) : Machine C M :=
  s.setProc x.1 ((s.proc x.1).setThread x.2 th)

/-- The thread goes on at position `b`. -/
def goto (s : Machine C M) (x : Tid) (b : Base) : Machine C M :=
  { s with pos := update s.pos x (.here b) }

/-- `sched`: the thread is left at `p`, and the CPU is back in the scheduler. -/
def swtch (s : Machine C M) (c : C) (x : Tid) (p : Pos) : Machine C M :=
  { s with
    pos := update s.pos x p
    cpu := update s.cpu c (.pick x.1 (x.2.val + 1)) }

/-- A new thread in slot `x`: its context starts at `forkret`. -/
def start (mon : Monitor M K) (s : Machine C M) (x : Tid) : Machine C M :=
  { s with pos := update s.pos x (.resumed (.body .user)), mem := mon.fresh s.mem x }

/-- The next child of process `q` from slot `k` on. -/
def nextChild (s : Machine C M) (q : ProcId) (k : ℕ) : Option ProcId :=
  (List.finRange NPROC).find? fun r => k ≤ r.val ∧ (s.proc r).parent = some q

/-- The next thread of process `q` with this id, from thread `k` on. -/
def nextThread (s : Machine C M) (q : ProcId) (id : ℤ) (k : ℕ) : Option ThreadId :=
  (List.finRange NTHREAD).find? fun t => k ≤ t.val ∧ ((s.proc q).threads t).id = id

/-- `reparent` from slot `k` on, and after it the wakeup of the parent. -/
def reparentFrom (s : Machine C M) (x : Tid) (k : ℕ) (e : Exiting) : Machine C M :=
  match s.nextChild x.1 k with
  | some r =>
    (s.setProc r { s.proc r with parent := some s.initproc }).goto x
      (.wake (some (.proc s.initproc)) 0 (.reparent (r.val + 1) e))
  | none => s.goto x (.wake ((s.proc x.1).parent.map .proc) 0 (.exit e))

/-- After the last slot of a `wakeup`. -/
def afterWake (s : Machine C M) (x : Tid) : Ret → Machine C M
  | .other w => s.goto x (.body w)
  | .kexit => s.goto x .kexit3
  | .reparent k e => s.reparentFrom x k e
  | .exit e => s.goto x (.exit1 e)

/-- The turn of `wakeup` for slot `q`, by the thread `x` or in the scheduler. -/
def wakeSlot (s : Machine C M) (x : Option Tid) (q : ProcId) (chan : Option Chan) : Machine C M :=
  s.setProc q ((s.proc q).wakeupThreads (x.bind fun x => if x.1 = q then some x.2 else none) chan)

/-- The scan of `kthread_join` from thread `k` on, when it finds nothing further. -/
def joinFrom (s : Machine C M) (x : Tid) (id : ℤ) (k : ℕ) (otherwise : Base) : Machine C M :=
  match s.nextThread x.1 id k with
  | some t => s.goto x (.joinAt id t)
  | none => s.goto x otherwise

/-- The scan of `wait` from slot `k` on. -/
def waitFrom (s : Machine C M) (x : Tid) (k : ℕ) (otherwise : Base) : Machine C M :=
  match s.nextChild x.1 k with
  | some np => s.goto x (.waitAt np)
  | none => s.goto x otherwise

/-- No other thread of the process is left. -/
def lastThread (s : Machine C M) (x : Tid) : Bool :=
  decide (∀ t, t ≠ x.2 → s.state (x.1, t) = .unused ∨ s.state (x.1, t) = .zombie)

section

variable (mon : Monitor M K) (s : Machine C M) (c : C) (x : Tid)

/-- `yield`, from position `b`. -/
def yieldStep (b : Base) : Option (Machine C M) := do
  let s ← s.acquire c (.proc x.1)
  some ((s.setThread x { s.thread x with state := .runnable }).swtch c x (.resumed b))

/-- `kthread_create` with `p->lock` held; `allocthread` releases it if it fails. -/
def createStep (start stack : Word) (page : Option Trapframe) : Option (Machine C M) := do
  let s ← s.acquire c (.proc x.1)
  match (s.proc x.1).allocthread s.nexttid page with
  | (none, p, tid) => some ({ s.setProc x.1 p with nexttid := tid }.goto x .unlock)
  | (some nt, p, tid) => do
    let f ← (p.threads x.2).trapframe
    let s := { s.setProc x.1 (p.startThread f nt start stack) with nexttid := tid }
    some ((s.start mon (x.1, nt)).goto x .unlock)

/-- `kthread_exit` with `p->lock` held. -/
def kexitStep (status : ℤ) : Option (Machine C M) := do
  let s ← s.acquire c (.proc x.1)
  some ((s.setThread x { s.thread x with state := .zombie, xstate := status }).goto x
    (.kexit1 ⟨s.lastThread x, status⟩))

/-- The system calls at the boundary to user mode. -/
def syscallStep : Choice K → Option (Machine C M)
  | .kthreadCreate start stack page => s.createStep mon c x start stack page
  | .kthreadExit status => s.kexitStep c x status
  | .kthreadJoin id =>
    if id = 0 ∨ id = (s.thread x).id then some s
    else do
      let s ← s.acquire c .wait
      some (s.joinFrom x id 0 .joinEnd)
  | .fork => some (s.goto x (.fork1 0))
  | .exit status =>
    if x.1 = s.initproc then none else some (s.goto x (.body (.closing ⟨false, status⟩)))
  | .wait => do
    let s ← s.acquire c .wait
    some (s.waitFrom x 0 .waitEnd)
  | .exec => do
    let s ← s.acquire c (.proc x.1)
    some ((s.setProc x.1 ((s.proc x.1).execMark x.2)).goto x .unlock)
  | .sigkill => do
    let s ← s.acquire c (.proc x.1)
    some ((s.setProc x.1 (s.proc x.1).sigKillHandler).goto x .unlock)
  | _ => none

/-- The next step of a thread outside the code of this file. -/
def bodyStep (w : Body) (ch : Choice K) : Option (Machine C M) :=
  match w, ch with
  | .user, .yield => s.yieldStep c x (.body .user)
  -- a timer interrupt in the kernel
  | w, .yield => if s.state x = .running then s.yieldStep c x (.body w) else none
  | w, .sleep chan => do
    let s ← s.acquire c (.proc x.1)
    some (s.goto x (.sleep1 chan (.other w)))
  | w, .wakeup chan => some (s.goto x (.wake (some chan) 0 (.other w)))
  | _, .other k => do
    let m ← mon.step s.mem x k
    some { s with mem := m }
  | .user, ch => if mon.busy s.mem x then none else syscallStep mon s c x ch
  | .closing e, .go =>
    if mon.busy s.mem x then none
    else do
      let s ← s.acquire c .wait
      some (s.reparentFrom x 0 e)
  | _, _ => none

/-- `kthread_join` on the thread it has found, with both locks held. -/
def joinStep (id : ℤ) (t : ThreadId) (copied : Bool) : Option (Machine C M) := do
  let s ← s.acquire c (.proc x.1)
  if s.state (x.1, t) = .zombie then
    if copied then
      some ((s.setThread (x.1, t) (freethread (s.thread (x.1, t)))).goto x (.joinChecked id t true))
    else some (s.goto x (.joinChecked id t true))
  else some (s.goto x (.joinChecked id t false))

/-- `wait` on the child it has found, with both locks held. -/
def waitStep (np : ProcId) (copied : Bool) : Option (Machine C M) := do
  let s ← s.acquire c (.proc np)
  if (s.proc np).state = .zombie then
    if copied then some ((s.setProc np (s.proc np).freeproc).goto x (.waitChecked np true))
    else some (s.goto x (.waitChecked np true))
  else some (s.goto x (.waitChecked np false))

/-- `exit` with both locks held. -/
def exitStep (e : Exiting) : Option (Machine C M) := do
  let s ← s.acquire c (.proc x.1)
  some ((s.setProc x.1 ((s.proc x.1).exitMark e.status)).goto x .exit2)

/-- `allocproc` and `fork` on slot `q`, with its lock held. -/
def forkStep (q : ProcId) (k : Pages) : Option (Machine C M) := do
  let s ← s.acquire c (.proc q)
  if (s.proc q).state = .unused then
    match (s.proc q).allocprocLocked s.nextpid s.nexttid k with
    | (none, child, tid) =>
      some ({ s.setProc q child with nextpid := s.nextpid + 1, nexttid := tid }.goto x
        (.fork3 q none (k.trapframe.isSome && k.pagetable)))
    | (some nt, child, tid) =>
      if k.copy then do
        let f ← (s.thread x).trapframe
        let s := { s.setProc q ((s.proc x.1).forkInto f child nt) with
          nextpid := s.nextpid + 1, nexttid := tid }
        some ((s.start mon (q, nt)).goto x (.fork3 q (some nt) false))
      else
        some ({ s.setProc q child.freeproc with nextpid := s.nextpid + 1, nexttid := tid }.goto x
          (.fork3 q none false))
  else some (s.goto x (.fork2 q))

/-- The next step of a thread at position `b`. -/
def baseStep : Base → Choice K → Option (Machine C M)
  | .body w, ch => bodyStep mon s c x w ch
  -- a timer interrupt in the kernel
  | b, .yield => if b.locks x.1 = [] ∧ s.state x = .running then s.yieldStep c x b else none
  | .sleep1 chan k, .go => do
    let s ← if k.locks = [] then some s else s.release c .wait
    some ((s.setThread x { s.thread x with chan := some chan, state := .sleeping }).swtch c x
      (.slept k))
  | .reacquire (.other w), .go => some (s.goto x (.body w))
  | .reacquire .wait, .go => do
    let s ← s.acquire c .wait
    some (s.waitFrom x 0 .waitEnd)
  | .reacquire (.join id), .go => do
    let s ← s.acquire c .wait
    some (s.joinFrom x id 0 .joinEnd)
  | .wake chan q r, .go => do
    let s ← s.acquire c (.proc q)
    some ((s.wakeSlot (some x) q chan).goto x (.waking chan q r))
  | .waking chan q r, .go => do
    let s ← s.release c (.proc q)
    match nextSlot q with
    | some q' => some (s.goto x (.wake chan q' r))
    | none => some (s.afterWake x r)
  | .unlock, .go => do
    let s ← s.release c (.proc x.1)
    some (s.goto x (.body .user))
  | .kexit1 e, .go => do
    let s ← s.release c (.proc x.1)
    if e.last then if x.1 = s.initproc then none else some (s.goto x (.body (.closing e)))
    else some (s.goto x .kexit2)
  | .kexit2, .go => do
    let s ← s.acquire c .wait
    some (s.goto x (.wake (some (.thread x.1 x.2)) 0 .kexit))
  | .kexit3, .go => do
    let s ← s.release c .wait
    some (s.goto x .kexit4)
  | .kexit4, .go => do
    let s ← s.acquire c (.proc x.1)
    some (s.swtch c x .dead)
  | .joinAt id t, .flag copied => s.joinStep c x id t copied
  | .joinChecked id t done, .flag killed => do
    let s ← s.release c (.proc x.1)
    if done then some (s.goto x .joinEnd)
    else some (s.joinFrom x id (t.val + 1) (if killed then .joinEnd else .joinSleep id t))
  | .joinSleep id t, .go => do
    let s ← s.acquire c (.proc x.1)
    some (s.goto x (.sleep1 (.thread x.1 t) (.join id)))
  | .joinEnd, .go => do
    let s ← s.release c .wait
    some (s.goto x (.body .user))
  | .waitAt np, .flag copied => s.waitStep c x np copied
  | .waitChecked np done, .flag killed => do
    let s ← s.release c (.proc np)
    if done then some (s.goto x .waitEnd)
    else some (s.waitFrom x (np.val + 1) (if killed then .waitEnd else .waitSleep))
  | .waitSleep, .go => do
    let s ← s.acquire c (.proc x.1)
    some (s.goto x (.sleep1 (.proc x.1) .wait))
  | .waitEnd, .go => do
    let s ← s.release c .wait
    some (s.goto x (.body .user))
  | .exit1 e, .go => s.exitStep c x e
  | .exit2, .go => do
    let s ← s.release c .wait
    some (s.swtch c x .dead)
  | .fork1 q, .pages k => s.forkStep mon c x q k
  | .fork2 q, .go => do
    let s ← s.release c (.proc q)
    match nextSlot q with
    | some q' => some (s.goto x (.fork1 q'))
    | none => some (s.goto x (.body .user))
  | .fork3 np nt again, .go => do
    let s ← s.release c (.proc np)
    match nt with
    | some nt => some (s.goto x (.fork4 np nt))
    | none => some (s.goto x (if again then .forkFree np else .body .user))
  | .forkFree np, .go => some ((s.setProc np (s.proc np).freeproc).goto x (.body .user))
  | .fork4 np nt, .go => do
    let s ← s.acquire c .wait
    some ((s.setProc np { s.proc np with parent := some x.1 }).goto x (.fork5 np nt))
  | .fork5 np nt, .go => do
    let s ← s.release c .wait
    some (s.goto x (.fork6 np nt))
  | .fork6 np nt, .go => do
    let s ← s.acquire c (.proc np)
    some ((s.setProc np ((s.proc np).makeRunnable nt)).goto x (.fork7 np))
  | .fork7 np, .go => do
    let s ← s.release c (.proc np)
    some (s.goto x (.body .user))
  | _, _ => none

/-- The next step of the thread in slot `x`. -/
def threadStep (ch : Choice K) : Option (Machine C M) :=
  match s.pos x, ch with
  | .here b, ch => baseStep mon s c x b ch
  | .resumed b, .go => do
    let s ← s.release c (.proc x.1)
    some (s.goto x b)
  | .slept k, .go => do
    let s := s.setThread x { s.thread x with chan := none }
    let s ← s.release c (.proc x.1)
    some (s.goto x (.reacquire k))
  | _, _ => none

end

/-- The next runnable thread of process `q`, from thread `k` on; a free slot has none. -/
def nextRunnable (s : Machine C M) (q : ProcId) (k : ℕ) : Option ThreadId :=
  if k = 0 ∧ (s.proc q).state = .unused then none
  else (List.finRange NTHREAD).find? fun t => k ≤ t.val ∧ s.state (q, t) = .runnable

/-- CPU `c` goes on in the scheduler at `p`. -/
def setCpu (s : Machine C M) (c : C) (p : CpuPos) : Machine C M :=
  { s with cpu := update s.cpu c p }

/-- The next step of CPU `c`. -/
def step (mon : Monitor M K) (s : Machine C M) (a : C × Choice K) : Option (Machine C M) :=
  let c := a.1
  match s.cpu c, a.2 with
  | .run x, ch => threadStep mon s c x ch
  | .sched q, .go => do
    let s ← s.acquire c (.proc q)
    some (s.setCpu c (.pick q 0))
  | .sched q, .wakeup chan => some (s.setCpu c (.wake chan 0 q))
  | .pick q k, .go =>
    match s.nextRunnable q k with
    | some t =>
      some ((s.setThread (q, t) { s.thread (q, t) with state := .running }).setCpu c (.run (q, t)))
    | none => do
      let s ← s.release c (.proc q)
      some (s.setCpu c (.sched ((nextSlot q).getD 0)))
  | .wake chan q back, .go => do
    let s ← s.acquire c (.proc q)
    some ((s.wakeSlot none q (some chan)).setCpu c (.waking chan q back))
  | .waking chan q back, .go => do
    let s ← s.release c (.proc q)
    match nextSlot q with
    | some q' => some (s.setCpu c (.wake chan q' back))
    | none => some (s.setCpu c (.sched back))
  | _, _ => none

end Machine

/-- The machine after `userinit`, with all CPUs at the start of the scheduler. -/
def boot {C M : Type} (t : Table) (m : M) : Machine C M where
  proc := t.proc
  initproc := t.initproc
  nextpid := t.nextpid
  nexttid := t.nexttid
  pos := fun _ => .resumed (.body .user)
  cpu := fun _ => .sched 0
  lock := fun _ => none
  mem := m

end Smp
end Xv6
