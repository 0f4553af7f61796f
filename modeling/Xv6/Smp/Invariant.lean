import Xv6.Proc.Coherent
import Xv6.Proc.FreeSlots
import Xv6.Smp.Machine

/-!
# The invariant of the multiprocessor machine

For each position: the thread states in which a CPU executes there, and the locks (`Base.locks`).
`Inv` relates positions, CPUs, locks and states; `Careful` is the condition on the steps under
which it holds.
-/

namespace Xv6.Smp

/-! ### Positions and thread states -/

/-- In `exit` a thread is running, or it is the last one and was marked by `kthread_exit`. -/
def Exiting.Allows (e : Exiting) (st : ProcState) : Prop :=
  st = .running ∨ st = .zombie ∧ e.last = true

def Body.Allows : Body → ProcState → Prop
  | .user, st => st = .running
  | .closing e, st => e.Allows st

def Sleeper.Allows : Sleeper → ProcState → Prop
  | .other w, st => w.Allows st
  | _, st => st = .running

def Ret.Allows : Ret → ProcState → Prop
  | .other w, st => w.Allows st
  | .kexit, st => st = .zombie
  | .reparent _ e, st => e.Allows st
  | .exit e, st => e.Allows st

/-- The states of a thread that executes at a position.  The second `freeproc` of `allocproc` is
not reached in careful runs. -/
def Base.Allows : Base → ProcState → Prop
  | .body w, st => w.Allows st
  | .sleep1 _ k, st => k.Allows st
  | .reacquire k, st => k.Allows st
  | .wake _ _ r, st => r.Allows st
  | .waking _ _ r, st => r.Allows st
  | .kexit1 _, st => st = .zombie
  | .kexit2, st => st = .zombie
  | .kexit3, st => st = .zombie
  | .kexit4, st => st = .zombie
  | .exit1 e, st => e.Allows st
  | .exit2, st => st = .zombie
  | .fork3 _ _ again, st => again = false ∧ st = .running
  | .forkFree _, _ => False
  | _, st => st = .running

/-- A thread of process `q` in state `st` may execute at this position. -/
def Pos.Runs (q : ProcId) : Pos → ProcState → Prop
  | .here b, st => b.Allows st
  | .resumed b, st => (b.locks q = [] ∧ b.Allows .running) ∧ st = .running
  | .slept _, st => st = .running
  | .dead, _ => False

/-- A thread slot of process `q` in state `st` that no CPU executes may be left at this
position. -/
def Pos.Parked (q : ProcId) : Pos → ProcState → Prop
  | .here _, _ => False
  | .resumed b, _ => b.locks q = [] ∧ b.Allows .running
  | .slept _, _ => True
  | .dead, st => st = .unused ∨ st = .zombie

def Body.last : Body → Bool
  | .user => false
  | .closing e => e.last

def Sleeper.last : Sleeper → Bool
  | .other w => w.last
  | _ => false

def Ret.last : Ret → Bool
  | .other w => w.last
  | .kexit => false
  | .reparent _ e => e.last
  | .exit e => e.last

/-- The position is on the way of the last thread from `kthread_exit` through `exit`. -/
def Base.last : Base → Bool
  | .body w => w.last
  | .sleep1 _ k => k.last
  | .reacquire k => k.last
  | .wake _ _ r => r.last
  | .waking _ _ r => r.last
  | .kexit1 e => e.last
  | .exit1 e => e.last
  | _ => false

def Pos.last : Pos → Bool
  | .here b => b.last
  | .resumed b => b.last
  | .slept k => k.last
  | .dead => false

def Body.exits : Body → Bool
  | .user => false
  | .closing _ => true

def Sleeper.exits : Sleeper → Bool
  | .other w => w.exits
  | _ => false

def Ret.exits : Ret → Bool
  | .other w => w.exits
  | .kexit => false
  | .reparent _ _ => true
  | .exit _ => true

/-- The position is in `exit`, before it has marked the threads, or on the way there in
`kthread_exit`. -/
def Base.exits : Base → Bool
  | .body w => w.exits
  | .sleep1 _ k => k.exits
  | .reacquire k => k.exits
  | .wake _ _ r => r.exits
  | .waking _ _ r => r.exits
  | .kexit1 e => e.last
  | .exit1 _ => true
  | _ => false

def Pos.exits : Pos → Bool
  | .here b => b.exits
  | .resumed b => b.exits
  | .slept k => k.exits
  | .dead => false

/-- The child that `fork` has set up and not yet made runnable. -/
def Base.forking : Base → Option (ProcId × ThreadId)
  | .fork3 np (some nt) _ => some (np, nt)
  | .fork4 np nt => some (np, nt)
  | .fork5 np nt => some (np, nt)
  | .fork6 np nt => some (np, nt)
  | _ => none

def Pos.forking : Pos → Option (ProcId × ThreadId)
  | .here b => b.forking
  | .resumed b => b.forking
  | _ => none

def Sleeper.inner : Sleeper → Bool
  | .other _ => true
  | _ => false

def Ret.inner : Ret → Bool
  | .other _ => true
  | _ => false

/-- The position is in the rest of the kernel, or in a `sleep` or `wakeup` called from there. -/
def Base.inner : Base → Bool
  | .body _ => true
  | .sleep1 _ k => k.inner
  | .reacquire k => k.inner
  | .wake _ _ r => r.inner
  | .waking _ _ r => r.inner
  | _ => false

def Pos.inner : Pos → Bool
  | .here b => b.inner
  | .resumed b => b.inner
  | .slept k => k.inner
  | .dead => false

/-- Free or a zombie. -/
def Gone (st : ProcState) : Prop := st = .unused ∨ st = .zombie

variable {st : ProcState}

theorem Exiting.Allows.cases {e : Exiting} (h : e.Allows st) :
    st = .running ∨ st = .zombie := h.imp_right And.left

theorem Body.Allows.cases {w : Body} (h : w.Allows st) : st = .running ∨ st = .zombie := by
  cases w with
  | user => exact .inl h
  | closing e => exact Exiting.Allows.cases h

theorem Base.Allows.cases {b : Base} (h : b.Allows st) : st = .running ∨ st = .zombie := by
  cases b <;> first
    | exact .inl h
    | exact .inr h
    | exact .inl h.2
    | exact h.elim
    | exact Body.Allows.cases h
    | exact Exiting.Allows.cases h
    | skip
  case sleep1 _ k => cases k <;> first | exact .inl h | exact Body.Allows.cases h
  case reacquire k => cases k <;> first | exact .inl h | exact Body.Allows.cases h
  case wake _ _ r =>
    cases r <;> first | exact .inr h | exact Body.Allows.cases h | exact Exiting.Allows.cases h
  case waking _ _ r =>
    cases r <;> first | exact .inr h | exact Body.Allows.cases h | exact Exiting.Allows.cases h

/-- A thread that executes is running or has been marked as a zombie. -/
theorem Pos.Runs.cases {q : ProcId} {p : Pos} (h : p.Runs q st) : st = .running ∨ st = .zombie := by
  cases p with
  | here b => exact Base.Allows.cases h
  | resumed b => exact .inl h.2
  | slept k => exact .inl h
  | dead => exact h.elim

/-! ### The invariant -/

variable {C M K : Type} [DecidableEq C]

/-- The locks that CPU `c` holds, by its position. -/
def Machine.held (s : Machine C M) (c : C) : List Lk :=
  match s.cpu c with
  | .run x => (s.pos x).locks x.1
  | p => p.locks

structure Machine.Inv (s : Machine C M) : Prop where
  /-- A lock is held by the CPU whose position says so. -/
  locks : Spinlock.Consistent s.lock fun c l => l ∈ s.held c
  /-- No two CPUs execute on one kernel stack. -/
  uniq : ∀ c c' x, s.cpu c = .run x → s.cpu c' = .run x → c = c'
  runs : ∀ c x, s.cpu c = .run x → (s.pos x).Runs x.1 (s.state x)
  parked : ∀ x, (∀ c, s.cpu c ≠ .run x) → (s.pos x).Parked x.1 (s.state x)
  coherent : ∀ q, (s.proc q).Coherent
  /-- Only the thread that is about to leave `exit` executes in a zombie process. -/
  zombie : ∀ c x, s.cpu c = .run x → (s.proc x.1).state = .zombie → s.pos x = .here .exit2
  /-- The last thread of a process is the only one left. -/
  last : ∀ x, (s.pos x).last = true → (s.proc x.1).Live ∧
    ∀ t, t ≠ x.2 → Gone (s.state (x.1, t)) ∧ (s.pos (x.1, t)).last = false
  /-- A parent in `fork` has its child to itself. -/
  forking : ∀ x np nt, (s.pos x).forking = some (np, nt) → ¬ Gone (s.state x) →
    (s.proc np).state = .used ∧ s.state (np, nt) = .used ∧
      ∀ y nt', (s.pos y).forking = some (np, nt') → ¬ Gone (s.state y) → y = x

/-- The condition on the steps of a careful run:
* `exit` marks the threads of its process while no CPU executes another one of them;
* `kthread_join` looks at a thread that is not between two critical sections of `kthread_exit`;
* the page for a new thread can be allocated. -/
def Machine.Careful (s : Machine C M) (a : C × Choice K) : Prop :=
  match s.cpu a.1 with
  | .run x =>
    match s.pos x, a.2 with
    | .here (.exit1 _), _ => ∀ c t, t ≠ x.2 → s.cpu c ≠ .run (x.1, t)
    | .here (.joinAt _ t), _ =>
      s.pos (x.1, t) ≠ .here .kexit2 ∧ s.pos (x.1, t) ≠ .here .kexit4
    | .here (.body .user), .kthreadCreate _ _ page => page ≠ none
    | .here (.fork1 _), .pages k => k.backup ≠ none
    | _, _ => True
  | _ => True

end Xv6.Smp
