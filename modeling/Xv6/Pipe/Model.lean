import Xv6.Lib.Ring
import Xv6.Lib.Run
import Xv6.Param
import Xv6.Vm.UserMem

/-!
# Pipes (`kernel/pipe.c`)

`pipewrite`, `piperead` and `pipeclose` on one pipe, by any number of threads.  A step is one turn
of a loop, or one of the lock operations around it.  `sleep` gives back the lock and puts the
thread to sleep in one step: the wakeups of this file are made by threads that hold the lock.

A thread that sleeps may also be made runnable from outside, as `kill` does, and a process may be
marked as killed at any moment.  Whether a copy succeeds, and the byte that `copyin` finds, are
given with the step.
-/

namespace Xv6

open Function

/-- Where a thread stands. -/
inductive Pipe.Pos
  | idle -- Outside the calls
  | writeCall (n : ℤ) -- `pipewrite`: `acquire(&pi->lock)`
  | writing (n : ℤ) (i : ℕ) -- `pipewrite`: the test of the loop; `i` bytes are written
  | writeSleep (n : ℤ) (i : ℕ) -- `pipewrite`: sleeping on `&pi->nwrite`
  | writeWoken (n : ℤ) (i : ℕ) -- `pipewrite`: woken up, before `sleep` takes the lock again
  | readCall (n : ℤ) -- `piperead`: `acquire(&pi->lock)`
  | waiting (n : ℤ) -- `piperead`: the test of the first loop
  | readSleep (n : ℤ) -- `piperead`: sleeping on `&pi->nread`
  | readWoken (n : ℤ) -- `piperead`: woken up, before `sleep` takes the lock again
  | copying (n : ℤ) (i : ℕ) -- `piperead`: the test of the second loop; `i` bytes are read
  deriving DecidableEq, Repr

/-- `struct pipe`, with the threads of type `T` that use it and their processes of type `P`. -/
structure Pipe (T P : Type) where
  data : ℕ → Byte
  nread : UInt
  nwrite : UInt
  readopen : Bool
  writeopen : Bool
  lock : Option T
  killed : P → Bool
  pos : T → Pipe.Pos
  ret : T → ℤ -- What the last call of a thread has returned
  accepted : List Byte -- The bytes that have been taken from the memory of writers
  delivered : List Byte -- The bytes that have been stored into the memory of readers

namespace Pipe

inductive Act (T P : Type)
  | pipewrite (t : T) (n : ℤ)
  | piperead (t : T) (n : ℤ)
  /-- The next step of a thread in one of these calls.  If it copies a byte: what `copyin` finds,
  and whether `copyout` succeeds. -/
  | go (t : T) (copyin : Option Byte) (copyout : Bool)
  | pipeclose (t : T) (writable : Bool)
  | kill (p : P) -- A process is marked as killed
  | rouse (t : T) -- A thread is made runnable from outside

variable {T P : Type}

/-- A pipe after `k` bytes have gone through it; `pipealloc` makes one with `k = 0`. -/
def start (k : UInt) : Pipe T P where
  data _ := 0
  nread := k
  nwrite := k
  readopen := true
  writeopen := true
  lock := none
  killed _ := false
  pos _ := .idle
  ret _ := 0
  accepted := []
  delivered := []

/-- What `wakeup(&pi->nread)` does to a thread. -/
def Pos.wakeRead : Pos → Pos
  | .readSleep n => .readWoken n
  | p => p

/-- What `wakeup(&pi->nwrite)` does to a thread. -/
def Pos.wakeWrite : Pos → Pos
  | .writeSleep n i => .writeWoken n i
  | p => p

/-- `wakeup(&pi->nread)`. -/
def wakeRead (s : Pipe T P) : Pipe T P := { s with pos := fun t => (s.pos t).wakeRead }

/-- `wakeup(&pi->nwrite)`. -/
def wakeWrite (s : Pipe T P) : Pipe T P := { s with pos := fun t => (s.pos t).wakeWrite }

variable [DecidableEq T] [DecidableEq P]

def goto (s : Pipe T P) (t : T) (p : Pos) : Pipe T P := { s with pos := update s.pos t p }

/-- `acquire(&pi->lock)`, and on to `p`. -/
def acquire (s : Pipe T P) (t : T) (p : Pos) : Option (Pipe T P) :=
  if s.lock.isNone then some ({ s with lock := some t }.goto t p) else none

/-- `sleep`, up to the switch. -/
def sleep (s : Pipe T P) (t : T) (p : Pos) : Pipe T P := { s with lock := none }.goto t p

/-- `release(&pi->lock)` and `return r`. -/
def leave (s : Pipe T P) (t : T) (r : ℤ) : Pipe T P :=
  { s with lock := none, ret := update s.ret t r }.goto t .idle

section

variable (proc : T → P)

/-- A turn of the loop of `pipewrite`. -/
def writeStep (s : Pipe T P) (t : T) (n : ℤ) (i : ℕ) (copyin : Option Byte) : Pipe T P :=
  if i < n then
    if s.readopen = false ∨ s.killed (proc t) = true then s.leave t (-1)
    else if s.nwrite = s.nread + BitVec.ofNat 32 PIPESIZE then
      s.wakeRead.sleep t (.writeSleep n i)
    else
      match copyin with
      | none => s.wakeRead.leave t i
      | some ch =>
        { s with
          data := update s.data (s.nwrite.toNat % PIPESIZE) ch
          nwrite := s.nwrite + 1
          accepted := s.accepted ++ [ch] }.goto t (.writing n (i + 1))
  else s.wakeRead.leave t i

/-- A turn of the first loop of `piperead`. -/
def waitStep (s : Pipe T P) (t : T) (n : ℤ) : Pipe T P :=
  if s.nread = s.nwrite ∧ s.writeopen = true then
    if s.killed (proc t) = true then s.leave t (-1) else s.sleep t (.readSleep n)
  else s.goto t (.copying n 0)

/-- A turn of the second loop of `piperead`. -/
def copyStep (s : Pipe T P) (t : T) (n : ℤ) (i : ℕ) (copyout : Bool) : Pipe T P :=
  if i < n ∧ s.nread ≠ s.nwrite then
    let ch := s.data (s.nread.toNat % PIPESIZE)
    let s := { s with nread := s.nread + 1 }
    if copyout then { s with delivered := s.delivered ++ [ch] }.goto t (.copying n (i + 1))
    else s.wakeWrite.leave t i
  else s.wakeWrite.leave t i

/-- The next step of a thread. -/
def go (s : Pipe T P) (t : T) (copyin : Option Byte) (copyout : Bool) : Option (Pipe T P) :=
  match s.pos t with
  | .writeCall n => s.acquire t (.writing n 0)
  | .writing n i => some (s.writeStep proc t n i copyin)
  | .writeWoken n i => s.acquire t (.writing n i)
  | .readCall n => s.acquire t (.waiting n)
  | .waiting n => some (s.waitStep proc t n)
  | .readWoken n => s.acquire t (.waiting n)
  | .copying n i => some (s.copyStep t n i copyout)
  | _ => none

/-- `pipeclose`.  The page is not reused while a call is in progress. -/
def pipeclose (s : Pipe T P) (writable : Bool) : Pipe T P :=
  if writable then { s with writeopen := false }.wakeRead
  else { s with readopen := false }.wakeWrite

def step (s : Pipe T P) : Act T P → Option (Pipe T P)
  | .pipewrite t n => if s.pos t = .idle then some (s.goto t (.writeCall n)) else none
  | .piperead t n => if s.pos t = .idle then some (s.goto t (.readCall n)) else none
  | .go t copyin copyout => s.go proc t copyin copyout
  | .pipeclose t writable =>
    if s.pos t = .idle ∧ s.lock.isNone then some (s.pipeclose writable) else none
  | .kill p => some { s with killed := update s.killed p true }
  | .rouse t =>
    match s.pos t with
    | .readSleep n => some (s.goto t (.readWoken n))
    | .writeSleep n i => some (s.goto t (.writeWoken n i))
    | _ => none

end

end Pipe
end Xv6
