import Xv6.Lib.Spinlock
import Xv6.Proc.Table
import Xv6.Vm.PageTable

/-!
# `fork`, `exit` and `wait` on physical memory (`kernel/proc.c`)

Processes that fork, exit and wait, on any number of CPUs, with the physical pages that they take
and give back.  One step of a thread is a lock operation with the code up to the next one, or one of
the places in `fork` where memory is allocated or freed: the trapframe page, the page table, the
thread with its backup page, one page of `uvmcopy`, `freeproc`.

A slot has the fields that these functions use for memory, for finding a free slot and for finding
children.  A wait that sleeps gives back `wait_lock` and starts again at some later time.

`Call` is not in the source: it notes, for the last call of `fork` of a thread, the slot it claimed,
how often it released the lock of this slot, and the pages it took and has not given back.
-/

namespace Xv6.Fork

open Function Vm
open Vm (Mem Panic)

/-- The spinlocks of the process table. -/
inductive Lk
  | wait
  | proc (q : ProcId)
  deriving DecidableEq, Repr

/-- A thread slot: its state, and the page for the trapframe backup. -/
structure Thread where
  state : ProcState
  backup : Option ℕ
  deriving DecidableEq, Repr

/-- A slot of the process table; pages are given by their numbers. -/
structure Slot where
  state : ProcState
  pid : ℤ
  parent : Option ProcId
  trapframe : Option ℕ
  pagetable : Option ℕ
  sz : ℕ
  threads : ThreadId → Thread

/-- A thread slot that is not in use. -/
def Thread.free : Thread := ⟨.unused, none⟩

/-- A slot that is not in use, but for what its threads are. -/
def Slot.cleared (threads : ThreadId → Thread) : Slot :=
  { state := .unused, pid := 0, parent := none, trapframe := none, pagetable := none, sz := 0,
    threads := threads }

/-- A slot that is not in use. -/
def Slot.free : Slot := .cleared fun _ => .free

def Slot.setThread (p : Slot) (t : ThreadId) (th : Thread) : Slot :=
  { p with threads := update p.threads t th }

/-! ### Freeing -/

/-- `kfree` of a page, if there is one. -/
def kfreeIf (m : Mem) : Option ℕ → Except Panic Mem
  | none => .ok m
  | some p => m.kfree p

/-- The loop of `freeproc` over the threads. -/
def freeThreads : List ThreadId → Mem → (ThreadId → Thread) →
    Except Panic (Mem × (ThreadId → Thread))
  | [], m, threads => .ok (m, threads)
  | t :: ts, m, threads =>
    if (threads t).state ≠ .unused ∧ (threads t).state ≠ .running then
      -- `freethread`
      (kfreeIf m (threads t).backup).bind fun m =>
        freeThreads ts m (update threads t .free)
    else freeThreads ts m threads

/-- `proc_freepagetable` of the page table, if there is one. -/
def freeTable (m : Mem) (p : Slot) : Except Panic Mem :=
  match p.pagetable with
  | none => .ok m
  | some pagetable => procFreepagetable m pagetable p.sz

/-- `freeproc`. -/
def freeproc (m : Mem) (p : Slot) : Except Panic (Mem × Slot) :=
  (freeThreads (List.finRange NTHREAD) m p.threads).bind fun r =>
    (kfreeIf r.1 p.trapframe).bind fun m =>
      (freeTable m p).map fun m => (m, .cleared r.2)

/-! ### The machine -/

/-- Where a thread stands, by what it does next. -/
inductive Pos
  | user -- Outside these functions
  | scan (q : ProcId) -- `allocproc`: `acquire(&p->lock)` of slot `q`
  | busy (q : ProcId) -- `allocproc`: `release(&p->lock)` of slot `q`, which is in use
  | frame (q : ProcId) -- `allocproc`: the trapframe page of slot `q`
  | table (q : ProcId) -- `allocproc`: `proc_pagetable`
  | thread (q : ProcId) -- `allocproc`: `allocthread`
  /-- `fork`: page `i` of `uvmcopy`, for a child with thread `t`. -/
  | copy (q : ProcId) (t : ThreadId) (i : ℕ)
  /-- `freeproc(p)` with the lock held; `again` if this is in `allocthread`. -/
  | undo (q : ProcId) (again : Bool)
  | drop (q : ProcId) (again : Bool) -- `release(&p->lock)` after it
  | again (q : ProcId) -- `allocproc`: `freeproc(p)` after `allocthread` has failed
  | made (q : ProcId) (t : ThreadId) -- `fork`: `release(&np->lock)`
  | adopt (q : ProcId) (t : ThreadId) -- `fork`: `acquire(&wait_lock)`
  | adopted (q : ProcId) (t : ThreadId) -- `fork`: `release(&wait_lock)`
  | start (q : ProcId) (t : ThreadId) -- `fork`: `acquire(&np->lock)`
  | started (q : ProcId) -- `fork`: `release(&np->lock)`
  | closing -- `exit`: `acquire(&wait_lock)`
  | exiting -- `exit`: `acquire(&p->lock)`
  | exited -- `exit`: `release(&wait_lock)`
  | gone -- `scheduler`: `release(&p->lock)` after the thread has left
  | dead -- There is no thread
  | waiting -- `wait`: `acquire(&wait_lock)`
  | check (np : ProcId) -- `wait`: `acquire(&np->lock)`
  | passed (np : ProcId) -- `wait`: `release(&np->lock)` of a child that has not exited
  | reaped (np : ProcId) -- `wait`: `release(&np->lock)` of a child that has exited
  | waited (sleep : Bool) -- `wait`: `release(&wait_lock)`, and `sleep` if it waits on
  deriving DecidableEq, Repr

/-- The locks held at a position by a thread of process `q`. -/
def Pos.locks (q : ProcId) : Pos → List Lk
  | .busy r | .frame r | .table r | .thread r | .copy r _ _ | .undo r _ | .drop r _ | .made r _
  | .started r => [.proc r]
  | .adopted _ _ | .exiting | .check _ | .waited _ => [.wait]
  | .exited => [.proc q, .wait]
  | .gone => [.proc q]
  | .passed np | .reaped np => [.proc np, .wait]
  | _ => []

/-- What a call of `fork` has done so far. -/
structure Call where
  slot : Option ProcId
  pid : ℤ
  releases : ℕ
  pages : Finset ℕ
  ret : Option ℤ
  deriving DecidableEq

def Call.start : Call := ⟨none, 0, 0, ∅, none⟩

structure Kernel where
  mem : Mem
  slot : ProcId → Slot
  initproc : ProcId
  nextpid : ℤ
  pos : Tid → Pos
  lock : Lk → Option (Tid)
  call : Tid → Call

/-- Which thread does something, and what. -/
inductive Action
  | dispatch (x : Tid) -- The scheduler switches to the thread
  | yield (x : Tid) -- `yield`
  | fork (x : Tid)
  | exit (x : Tid)
  | wait (x : Tid)
  /-- The next step; `flag` says whether `copyout` succeeds in `wait`, or whether the process has
  been killed. -/
  | go (x : Tid) (flag : Bool)
  deriving DecidableEq, Repr

/-- The slot after `q`. -/
def nextSlot (q : ProcId) : Option ProcId :=
  if h : q.val + 1 < NPROC then some ⟨q.val + 1, h⟩ else none

namespace Kernel

variable (k : Kernel) (x : Tid)

/-- The thread in slot `x`. -/
def thread : Thread := (k.slot x.1).threads x.2

def goto (p : Pos) : Kernel := { k with pos := update k.pos x p }

def acquire (l : Lk) : Option Kernel := do
  let lock ← Spinlock.acquire k.lock x l
  some { k with lock := lock }

def release (l : Lk) : Option Kernel := do
  let lock ← Spinlock.release k.lock x l
  some { k with lock := lock }

def setSlot (q : ProcId) (p : Slot) : Kernel := { k with slot := update k.slot q p }

def setThreadState (st : ProcState) : Kernel :=
  k.setSlot x.1 ((k.slot x.1).setThread x.2 { k.thread x with state := st })

def setCall (c : Call) : Kernel := { k with call := update k.call x c }

/-- The call of `fork` goes on with memory `m`. -/
def setMem (m : Mem) : Kernel :=
  { k with
    mem := m
    call := update k.call x { k.call x with
      pages := ((k.call x).pages ∪ k.mem.free.toFinset) \ m.free.toFinset } }

/-- The lock of the slot that `fork` has claimed is released. -/
def releaseSlot (q : ProcId) : Option Kernel := do
  let k ← k.release x (.proc q)
  some (k.setCall x { k.call x with releases := (k.call x).releases + 1 })

/-- `fork` returns. -/
def ret (v : ℤ) : Kernel := (k.setCall x { k.call x with ret := some v }).goto x .user

/-- The next child of process `q`, from slot `n` on. -/
def nextChild (q : ProcId) (n : ℕ) : Option ProcId :=
  (List.finRange NPROC).find? fun r => n ≤ r.val ∧ (k.slot r).parent = some q

/-- The scan of `wait`, from slot `n` on. -/
def waitFrom (n : ℕ) (otherwise : Pos) : Kernel :=
  match k.nextChild x.1 n with
  | some np => k.goto x (.check np)
  | none => k.goto x otherwise

/-- `reparent`. -/
def reparent (q : ProcId) : Kernel :=
  { k with slot := fun r =>
      if (k.slot r).parent = some q then { k.slot r with parent := some k.initproc } else k.slot r }

/-- `exit` marks the process and its threads. -/
def exitMark (p : Slot) : Slot :=
  { p with
    state := .zombie
    threads := fun t =>
      if (p.threads t).state ≠ .unused ∧ (p.threads t).state ≠ .zombie then
        { p.threads t with state := .zombie }
      else p.threads t }

/-- The first thread slot that is not in use. -/
def freeThread (p : Slot) : Option ThreadId :=
  (List.finRange NTHREAD).find? fun t => (p.threads t).state = .unused

/-- `freeproc` of slot `q`, on behalf of a call of `fork`. -/
def freeSlot (q : ProcId) : Option Kernel :=
  match freeproc k.mem (k.slot q) with
  | .error _ => none
  | .ok (m, p) => some ((k.setMem x m).setSlot q p)

/-- One turn of the loop of `uvmcopy`, or its end. -/
def copyStep (q : ProcId) (t : ThreadId) (i : ℕ) : Option Kernel := do
  let old ← (k.slot x.1).pagetable
  let new ← (k.slot q).pagetable
  let sz := (k.slot x.1).sz
  if i * PGSIZE < sz then
    match copyPage k.mem old new (i * PGSIZE) with
    | .error _ => none
    | .ok (true, m) => some ((k.setMem x m).goto x (.copy q t (i + 1)))
    | .ok (false, m) =>
      match uvmunmap m new 0 i true with
      | .error _ => none
      | .ok m => some ((k.setMem x m).goto x (.undo q false))
  else
    let k := k.setSlot q { k.slot q with sz := sz }
    some ((k.setCall x { k.call x with pid := (k.slot q).pid }).goto x (.made q t))

/-- The next step of the thread in slot `x`. -/
def go (flag : Bool) : Option Kernel :=
  match k.pos x with
  | .scan q => do
    let k ← k.acquire x (.proc q)
    if (k.slot q).state = .unused then
      let k := { k.setSlot q { k.slot q with pid := k.nextpid, state := .used } with
        nextpid := k.nextpid + 1 }
      some ((k.setCall x { Call.start with slot := some q }).goto x (.frame q))
    else some (k.goto x (.busy q))
  | .busy q => do
    let k ← k.release x (.proc q)
    match nextSlot q with
    | some q' => some (k.goto x (.scan q'))
    | none => some (k.ret x (-1))
  | .frame q =>
    match k.mem.kalloc with
    | (none, m) => some ((k.setMem x m).goto x (.undo q false))
    | (some p, m) =>
      some (((k.setMem x m).setSlot q { k.slot q with trapframe := some p }).goto x (.table q))
  | .table q => do
    let tf ← (k.slot q).trapframe
    match procPagetable k.mem tf with
    | .error _ => none
    | .ok (none, m) => some ((k.setMem x m).goto x (.undo q false))
    | .ok (some r, m) =>
      some (((k.setMem x m).setSlot q { k.slot q with pagetable := some r }).goto x (.thread q))
  | .thread q =>
    match freeThread (k.slot q) with
    | none => do
      let k ← k.releaseSlot x q
      some (k.goto x (.again q))
    | some t =>
      match k.mem.kalloc with
      | (none, m) =>
        some (((k.setMem x m).setSlot q ((k.slot q).setThread t ⟨.used, none⟩)).goto x
          (.undo q true))
      | (some p, m) =>
        some (((k.setMem x m).setSlot q ((k.slot q).setThread t ⟨.used, some p⟩)).goto x
          (.copy q t 0))
  | .copy q t i => k.copyStep x q t i
  | .undo q again => do
    let k ← k.freeSlot x q
    some (k.goto x (.drop q again))
  | .drop q again => do
    let k ← k.releaseSlot x q
    if again then some (k.goto x (.again q)) else some (k.ret x (-1))
  | .again q => do
    let k ← k.freeSlot x q
    some (k.ret x (-1))
  | .made q t => do
    let k ← k.releaseSlot x q
    some (k.goto x (.adopt q t))
  | .adopt q t => do
    let k ← k.acquire x .wait
    some ((k.setSlot q { k.slot q with parent := some x.1 }).goto x (.adopted q t))
  | .adopted q t => do
    let k ← k.release x .wait
    some (k.goto x (.start q t))
  | .start q t => do
    let k ← k.acquire x (.proc q)
    let p := { k.slot q with state := .runnable }
    let k := k.setSlot q (p.setThread t { p.threads t with state := .runnable })
    some ((k.goto (q, t) .user).goto x (.started q))
  | .started q => do
    let k ← k.release x (.proc q)
    some (k.ret x (k.call x).pid)
  | .closing => do
    let k ← k.acquire x .wait
    some ((k.reparent x.1).goto x .exiting)
  | .exiting => do
    let k ← k.acquire x (.proc x.1)
    some ((k.setSlot x.1 (exitMark (k.slot x.1))).goto x .exited)
  | .exited => do
    let k ← k.release x .wait
    some (k.goto x .gone)
  | .gone => do
    let k ← k.release x (.proc x.1)
    some (k.goto x .dead)
  | .waiting => do
    let k ← k.acquire x .wait
    some (k.waitFrom x 0 (.waited false))
  | .check np => do
    let k ← k.acquire x (.proc np)
    if (k.slot np).state = .zombie then
      if flag then
        match freeproc k.mem (k.slot np) with
        | .error _ => none
        | .ok (m, p) => some (({ k with mem := m }.setSlot np p).goto x (.reaped np))
      else some (k.goto x (.reaped np))
    else some (k.goto x (.passed np))
  | .passed np => do
    let k ← k.release x (.proc np)
    some (k.waitFrom x (np.val + 1) (.waited !flag))
  | .reaped np => do
    let k ← k.release x (.proc np)
    some (k.goto x (.waited false))
  | .waited sleep => do
    let k ← k.release x .wait
    some (k.goto x (if sleep then .waiting else .user))
  | .user | .dead => none

/-- The thread is on a CPU: it is `RUNNING`, or on its way out of `exit`. -/
def OnCpu : Prop := (k.thread x).state = .running ∨ k.pos x = .exited ∨ k.pos x = .gone

instance : Decidable (k.OnCpu x) := by
  unfold OnCpu
  infer_instance

/-- One step. -/
def step (k : Kernel) : Action → Option Kernel
  | .dispatch x =>
    if k.lock (.proc x.1) = none ∧ (k.slot x.1).state ≠ .unused ∧
      (k.thread x).state = .runnable then
      some (k.setThreadState x .running)
    else none
  | .yield x =>
    -- interrupts are off while a spinlock is held
    if k.lock (.proc x.1) = none ∧ (k.pos x).locks x.1 = [] ∧ (k.thread x).state = .running then
      some (k.setThreadState x .runnable)
    else none
  | .fork x =>
    if (k.thread x).state = .running ∧ k.pos x = .user then
      some ((k.setCall x .start).goto x (.scan 0))
    else none
  | .exit x =>
    -- `panic("init exiting")`
    if (k.thread x).state = .running ∧ k.pos x = .user ∧ x.1 ≠ k.initproc then
      some (k.goto x .closing)
    else none
  | .wait x =>
    if (k.thread x).state = .running ∧ k.pos x = .user then some (k.goto x .waiting) else none
  | .go x flag => if k.OnCpu x then k.go x flag else none

/-- `uvminit`, for a page table with no user memory.  It does not look at the result of `mappages`;
a boot with so little memory is left out here. -/
def uvminit (m : Mem) (pagetable : ℕ) (code : Vm.Idx → Vm.Pte) : Option Mem :=
  match m.kalloc with
  | (none, _) => none
  | (some mem, m) =>
    match mappages (m.memset mem 0) pagetable 0 PGSIZE mem
        (Vm.PTE_W ||| Vm.PTE_R ||| Vm.PTE_X ||| Vm.PTE_U) with
    | .ok (0, m) => some { m with word := update m.word mem code }
    | _ => none

/-- `userinit`: the first process, in slot 0, with the program `code`. -/
def userinit (m : Mem) (code : Vm.Idx → Vm.Pte) : Option Kernel :=
  match m.kalloc with
  | (none, _) => none
  | (some tf, m) =>
    match procPagetable m tf with
    | .ok (some r, m) =>
      match m.kalloc with
      | (none, _) => none
      | (some backup, m) => do
        let m ← uvminit m r code
        some
          { mem := m
            slot := update (fun _ => Slot.free) 0
              { state := .runnable, pid := 1, parent := none, trapframe := some tf
                pagetable := some r, sz := PGSIZE
                threads := update (fun _ => Thread.free) 0 ⟨.runnable, some backup⟩ }
            initproc := 0
            nextpid := 2
            pos := update (fun _ => .dead) (0, 0) .user
            lock := fun _ => none
            call := fun _ => .start }
    | _ => none

/-- A free slot is claimed only while nobody is about to free it a second time. -/
def Unhurried (k : Kernel) : Action → Prop
  | .go x _ => ∀ q, k.pos x = .scan q → (k.slot q).state = .unused → ∀ y, k.pos y ≠ .again q
  | _ => True

end Kernel

end Xv6.Fork
