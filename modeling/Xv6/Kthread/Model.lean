import Xv6.Lib.Run
import Xv6.Lib.Spinlock
import Xv6.Proc.Struct

/-!
# The threads of one process

`kthread_create`, `kthread_exit` and `kthread_join` of `kernel/proc.c`, the start of `exec`, and
the timer interrupts of `kernel/trap.c`, for the threads of one process on any number of CPUs.  A
thread is named by the id `alloctid` has given it and keeps its position; the slot `p->threads[k]`
it lives in goes to others later.  What `swtch` has saved in `t->context` is the thread that goes on
when the slot is scheduled.

A step is one lock operation with the statements that the lock protects, or one access to a slot
without the lock.  `copyout` and `kalloc` may fail.  A thread inside another system call is `busy`;
the other processes show only in the ids they take.

The model ends with the process: a failed `kalloc` in `kthread_create` calls `freeproc`, and a
thread that calls `exit` stays there.
-/

namespace Xv6.Kthread

open Function

/-- The fields of `struct thread` that these functions use. -/
structure Slot where
  id : ℤ
  state : ProcState
  xstate : ℤ
  chan : Option ThreadId
  killed : Bool
  context : ℤ -- The thread whose registers are in `t->context`
  deriving DecidableEq, Repr

/-- `freethread`. -/
def Slot.freethread (sl : Slot) : Slot :=
  { sl with id := 0, chan := none, killed := false, xstate := 0, state := .unused }

/-- `UNUSED` or `ZOMBIE`. -/
def Gone (st : ProcState) : Prop := st = .unused ∨ st = .zombie

instance (st : ProcState) : Decidable (Gone st) := inferInstanceAs (Decidable (_ ∨ _))

inductive Lk
  | proc
  | wait
  deriving DecidableEq, Repr

/-- The arguments of `kthread_join`: the id, and whether `addr` is not null. -/
structure Join where
  id : ℤ
  addr : Bool
  deriving DecidableEq, Repr

/-- Where a thread executes. -/
inductive Base
  | user
  | busy -- In another system call
  | ret -- `usertrap`: the test of `t->killed` after `syscall()`
  | create0 -- `kthread_create`: `acquire(&p->lock)`
  | create1 -- `kthread_create`: `release(&p->lock)`
  | kexit0 (status : ℤ) -- `kthread_exit`: `acquire(&p->lock)`
  /-- `kthread_exit`: `release(&p->lock)`; `last` if no running thread was found. -/
  | kexit1 (last : Bool) (status : ℤ)
  | exiting (status : ℤ) -- In `exit(status)`
  | kexit2 -- `kthread_exit`: `acquire(&wait_lock)`
  | kexit3 -- `kthread_exit`: `acquire(&p->lock)` in `wakeup`
  | kexit4 -- `kthread_exit`: `release(&p->lock)` in `wakeup`
  | kexit5 -- `kthread_exit`: `release(&wait_lock)`
  | kexit6 -- `kthread_exit`: `acquire(&p->lock)` before `sched`
  | join0 (a : Join) -- `kthread_join`: `acquire(&wait_lock)`
  | joinScan (a : Join) (k : ℕ) (found : Option ThreadId) -- `kthread_join`: the loop, at slot `k`
  /-- `kthread_join`: `acquire(&p->lock)` for slot `k`, whose id matches. -/
  | joinAt (a : Join) (k : ThreadId)
  | joinLook (a : Join) (k : ThreadId) -- `kthread_join`: the test for `ZOMBIE`
  | joinNext (a : Join) (k : ThreadId) -- `kthread_join`: `release(&p->lock)`, and on with the loop
  | joinDone -- `kthread_join`: `release(&p->lock)`, and return
  | joinEnd -- `kthread_join`: `release(&wait_lock)`, and return
  | joinSleep (a : Join) (k : ThreadId) -- `sleep` in `kthread_join`: `acquire(&p->lock)`
  | sleep1 (a : Join) (k : ThreadId) -- `sleep` in `kthread_join`: `release(lk)`
  /-- `sleep` in `kthread_join`: `t->chan = chan; t->state = SLEEPING`. -/
  | sleep2 (a : Join) (k : ThreadId)
  | exec0 -- `exec`: `acquire(&p->lock)`
  | exec1 -- `exec`: `release(&p->lock)`
  | execScan (k : ℕ) (live : Bool) -- `exec`: the waiting loop, at slot `k`
  | execBody -- `exec`: after the waiting loop
  deriving DecidableEq, Repr

/-- Where a thread that has switched to the scheduler goes on. -/
inductive Wait
  | start -- At `forkret`
  | slept (a : Join) -- In the `sleep` of `kthread_join`
  | yielded (b : Base) -- In `yield`, called from an interrupt
  | dead -- At the end of `kthread_exit`
  deriving DecidableEq, Repr

inductive Pc
  | absent
  | here (b : Base)
  | yield0 (b : Base) -- `yield`: `acquire(&p->lock)`
  | sched (w : Wait) -- `sched`, with `p->lock` held
  | out (w : Wait) -- Switched out
  | back (w : Wait) -- Scheduled again: `release(&p->lock)`
  deriving DecidableEq, Repr

def Base.locks : Base → List Lk
  | .create1 | .kexit1 _ _ | .sleep2 _ _ | .exec1 => [.proc]
  | .kexit3 | .kexit5 | .joinScan _ _ _ | .joinAt _ _ | .joinEnd | .joinSleep _ _ => [.wait]
  | .kexit4 | .joinLook _ _ | .joinNext _ _ | .joinDone | .sleep1 _ _ => [.proc, .wait]
  | _ => []

def Pc.locks : Pc → List Lk
  | .here b => b.locks
  | .sched _ | .back _ => [.proc]
  | _ => []

inductive Event
  | exited (c status : ℤ) -- `kthread_exit(status)` has marked thread `c`
  /-- `kthread_join` by thread `c` returns 0; what it has copied out. -/
  | joined (c : ℤ) (a : Join) (stored : Option ℤ)
  | notJoined (c : ℤ) (a : Join) -- `kthread_join` by thread `c` returns -1
  deriving DecidableEq, Repr

/-- The system calls. -/
inductive Call
  | create
  | exit (status : ℤ)
  | join (a : Join)
  | exec
  | other
  deriving DecidableEq, Repr

structure Sys where
  slot : ThreadId → Slot
  nexttid : ℤ -- An `int`: this is for runs in which it does not overflow
  lock : Lk → Option ℤ
  pc : ℤ → Pc
  home : ℤ → ThreadId -- `mythread()`
  live : Bool -- The process has not been freed
  panic : Bool
  events : List Event

inductive Act
  | call (c : ℤ) (f : Call)
  /-- The next step of thread `c`; `ok` says whether `kalloc` or `copyout` succeeds in it. -/
  | go (c : ℤ) (ok : Bool)
  | timer (c : ℤ) -- A timer interrupt on the CPU of thread `c`
  | run (k : ThreadId) -- A CPU schedules slot `k`
  | tid -- `alloctid` for another process
  deriving DecidableEq, Repr

namespace Sys

/-- A process with one thread, which is runnable. -/
def init (m : ℕ) : Sys where
  slot := fun k =>
    if k = 0 then ⟨m + 1, .runnable, 0, none, false, m + 1⟩ else ⟨0, .unused, 0, none, false, 0⟩
  nexttid := m + 2
  lock := fun _ => none
  pc := fun c => if c = m + 1 then .out .start else .absent
  home := fun _ => 0
  live := true
  panic := false
  events := []

/-- The slot of thread `c`. -/
def my (s : Sys) (c : ℤ) : Slot := s.slot (s.home c)

def goto (s : Sys) (c : ℤ) (b : Base) : Sys := { s with pc := update s.pc c (.here b) }

def setPc (s : Sys) (c : ℤ) (p : Pc) : Sys := { s with pc := update s.pc c p }

def setSlot (s : Sys) (k : ThreadId) (sl : Slot) : Sys :=
  { s with slot := update s.slot k sl }

def record (s : Sys) (e : Event) : Sys := { s with events := e :: s.events }

def acquire (s : Sys) (c : ℤ) (l : Lk) : Option Sys := do
  let lock ← Spinlock.acquire s.lock c l
  some { s with lock := lock }

def release (s : Sys) (c : ℤ) (l : Lk) : Option Sys := do
  let lock ← Spinlock.release s.lock c l
  some { s with lock := lock }

/-- The slot `allocthread` finds. -/
def freeSlot (s : Sys) : Option ThreadId :=
  (List.finRange NTHREAD).find? fun k => (s.slot k).state = .unused

/-- `allocthread` on slot `k`, and what `kthread_create` does to the new thread. -/
def newThread (s : Sys) (k : ThreadId) : Sys :=
  { s with
    slot := update s.slot k
      { s.slot k with id := s.nexttid, state := .runnable, context := s.nexttid }
    nexttid := s.nexttid + 1
    pc := update s.pc s.nexttid (.out .start)
    home := update s.home s.nexttid k }

/-- `freeproc`, as far as the threads are concerned. -/
def freeproc (s : Sys) : Sys :=
  { s with
    slot := fun k =>
      if (s.slot k).state ≠ .unused ∧ (s.slot k).state ≠ .running then (s.slot k).freethread
      else s.slot k
    live := false }

/-- `kthread_create` with `p->lock` held. -/
def create (s : Sys) (ok : Bool) : Sys :=
  match s.freeSlot with
  | none => s
  | some k => if ok then s.newThread k else s.freeproc

/-- `kthread_exit` finds no other thread running. -/
def lastThread (s : Sys) (c : ℤ) : Bool := decide (∀ k, k ≠ s.home c → Gone (s.slot k).state)

/-- `wakeup(myt)` in `kthread_exit`. -/
def wakeJoiners (s : Sys) (c : ℤ) : Sys :=
  { s with slot := fun k =>
      if k ≠ s.home c ∧ (s.slot k).state = .sleeping ∧ (s.slot k).chan = some (s.home c) then
        { s.slot k with state := .runnable }
      else s.slot k }

/-- What `exec` does to the other threads. -/
def execMark (s : Sys) (c : ℤ) : Sys :=
  { s with slot := fun k =>
      if (s.slot k).state ≠ .unused ∧ k ≠ s.home c then
        { s.slot k with
          killed := true
          state := if (s.slot k).state = .sleeping then .runnable else (s.slot k).state }
      else s.slot k }

/-- The entry of a system call. -/
def callStep (s : Sys) (c : ℤ) (f : Call) : Sys :=
  if (s.my c).killed then s.goto c (.kexit0 (-1))
  else
    match f with
    | .create => s.goto c .create0
    | .exit status => s.goto c (.kexit0 status)
    | .join a =>
      if a.id = 0 ∨ a.id = (s.my c).id then (s.record (.notJoined c a)).goto c .ret
      else s.goto c (.join0 a)
    | .exec => s.goto c .exec0
    | .other => s.goto c .busy

/-- `kthread_join` with both locks held, at a slot with the right id. -/
def look (s : Sys) (c : ℤ) (a : Join) (k : ThreadId) (ok : Bool) : Sys :=
  if (s.slot k).state = .zombie then
    if a.addr && !ok then (s.record (.notJoined c a)).goto c .joinDone
    else
      ((s.setSlot k (s.slot k).freethread).record
        (.joined c a (if a.addr then some (s.slot k).xstate else none))).goto c .joinDone
  else s.goto c (.joinNext a k)

/-- The next step of thread `c` at `b`. -/
def baseStep (s : Sys) (c : ℤ) (ok : Bool) : Base → Option Sys
  | .user => none
  | .busy => some (s.goto c .ret)
  | .ret => some (s.goto c (if (s.my c).killed then .kexit0 (-1) else .user))
  | .create0 => (s.acquire c .proc).map fun s => (s.create ok).goto c .create1
  | .create1 => (s.release c .proc).map (·.goto c .ret)
  | .kexit0 status =>
    (s.acquire c .proc).map fun s =>
      ((s.setSlot (s.home c) { s.my c with state := .zombie, xstate := status }).record
        (.exited c status)).goto c (.kexit1 (s.lastThread c) status)
  | .kexit1 last status =>
    (s.release c .proc).map (·.goto c (if last then .exiting status else .kexit2))
  | .exiting _ => none
  | .kexit2 => (s.acquire c .wait).map (·.goto c .kexit3)
  | .kexit3 => (s.acquire c .proc).map fun s => (s.wakeJoiners c).goto c .kexit4
  | .kexit4 => (s.release c .proc).map (·.goto c .kexit5)
  | .kexit5 => (s.release c .wait).map (·.goto c .kexit6)
  | .kexit6 => (s.acquire c .proc).map (·.setPc c (.sched .dead))
  | .join0 a => (s.acquire c .wait).map (·.goto c (.joinScan a 0 none))
  | .joinScan a k found =>
    if h : k < NTHREAD then
      some (s.goto c
        (if (s.slot ⟨k, h⟩).id = a.id then .joinAt a ⟨k, h⟩ else .joinScan a (k + 1) found))
    else
      match found with
      | some k =>
        if (s.my c).killed then some ((s.record (.notJoined c a)).goto c .joinEnd)
        else some (s.goto c (.joinSleep a k))
      | none => some ((s.record (.notJoined c a)).goto c .joinEnd)
  | .joinAt a k => (s.acquire c .proc).map (·.goto c (.joinLook a k))
  | .joinLook a k => some (s.look c a k ok)
  | .joinNext a k => (s.release c .proc).map (·.goto c (.joinScan a (k.val + 1) (some k)))
  | .joinDone => (s.release c .proc).map (·.goto c .joinEnd)
  | .joinEnd => (s.release c .wait).map (·.goto c .ret)
  | .joinSleep a k => (s.acquire c .proc).map (·.goto c (.sleep1 a k))
  | .sleep1 a k => (s.release c .wait).map (·.goto c (.sleep2 a k))
  | .sleep2 a k =>
    some ((s.setSlot (s.home c) { s.my c with chan := some k, state := .sleeping }).setPc c
      (.sched (.slept a)))
  | .exec0 => (s.acquire c .proc).map fun s => (s.execMark c).goto c .exec1
  | .exec1 => (s.release c .proc).map (·.goto c (.execScan 0 false))
  | .execScan k live =>
    if h : k < NTHREAD then
      some (s.goto c (.execScan (k + 1)
        (live || decide (¬ Gone (s.slot ⟨k, h⟩).state ∧ (⟨k, h⟩ : ThreadId) ≠ s.home c))))
    else some (s.goto c (if live then .execScan 0 false else .execBody))
  | .execBody => some (s.goto c .ret)

/-- Where a thread goes on that has been scheduled, after `release(&p->lock)`. -/
def backStep (s : Sys) (c : ℤ) : Wait → Option Sys
  | .start => (s.release c .proc).map (·.goto c .user)
  | .slept a =>
    ((s.setSlot (s.home c) { s.my c with chan := none }).release c .proc).map (·.goto c (.join0 a))
  | .yielded b => (s.release c .proc).map (·.goto c b)
  -- `panic("thread zombie exit")`
  | .dead => some { s with panic := true }

/-- The next step of thread `c`. -/
def goStep (s : Sys) (c : ℤ) (ok : Bool) : Option Sys :=
  match s.pc c with
  | .here b => s.baseStep c ok b
  | .yield0 b =>
    (s.acquire c .proc).map fun s =>
      (s.setSlot (s.home c) { s.my c with state := .runnable }).setPc c (.sched (.yielded b))
  | .sched w =>
    -- `panic("sched running")`
    if (s.my c).state = .running then some { s with panic := true }
    else
      ((s.setSlot (s.home c) { s.my c with context := c }).release c .proc).map (·.setPc c (.out w))
  | .back w => s.backStep c w
  | _ => none

/-- A timer interrupt: from user mode it tests `t->killed` and yields, in the kernel it yields if
it finds the state of the slot to be `RUNNING`. -/
def timerStep (s : Sys) (c : ℤ) : Option Sys :=
  match s.pc c with
  | .here .user =>
    some (if (s.my c).killed then s.goto c (.kexit0 (-1)) else s.setPc c (.yield0 .user))
  | .here b =>
    if b.locks = [] ∧ (s.my c).state = .running then some (s.setPc c (.yield0 b)) else none
  | _ => none

/-- A CPU schedules slot `k`. -/
def runStep (s : Sys) (k : ThreadId) : Option Sys :=
  if (s.slot k).state = .runnable then
    match s.pc (s.slot k).context with
    | .out w =>
      (s.acquire (s.slot k).context .proc).map fun t =>
        (t.setSlot k { t.slot k with state := .running }).setPc (s.slot k).context (.back w)
    | _ => none
  else none

def step (s : Sys) (a : Act) : Option Sys :=
  if s.live && !s.panic then
    match a with
    | .call c f => if s.pc c = .here .user then some (s.callStep c f) else none
    | .go c ok => s.goStep c ok
    | .timer c => s.timerStep c
    | .run k => s.runStep k
    | .tid => some { s with nexttid := s.nexttid + 1 }
  else none

/-- `kthread_join` reaps a thread only if it has switched away for the last time. -/
def Careful (s : Sys) : Act → Prop
  | .go c _ =>
    match s.pc c with
    | .here (.joinLook _ k) =>
      (s.slot k).state = .zombie → s.pc (s.slot k).id = .out .dead
    | _ => True
  | _ => True

instance (s : Sys) (a : Act) : Decidable (s.Careful a) := by
  unfold Careful
  split
  · split <;> infer_instance
  · infer_instance

end Sys

end Xv6.Kthread
