import Xv6.Kthread.Model

/-!
# The invariant of the threads of a process

In a careful run every slot belongs to the thread whose id it holds, from `allocthread` until
`kthread_join` reaps it, and the state of the slot is determined by the position of that thread.
On top of this stands what a thread knows at its position: a thread in `kthread_join` has found
the id it looks for and has not missed the wakeup, and a thread that is about to call `exit` is
the last one.
-/

namespace Xv6.Kthread

/-! ### Positions -/

/-- `kthread_exit` has marked the thread. -/
def Base.left : Base → Bool
  | .kexit1 _ _ | .exiting _ | .kexit2 | .kexit3 | .kexit4 | .kexit5 | .kexit6 => true
  | _ => false

def Pc.Left : Pc → Prop
  | .here b => b.left = true
  | .sched w | .out w | .back w => w = .dead
  | _ => False

/-- `kthread_exit` has woken the joiners. -/
def Pc.Past : Pc → Prop
  | .here b => b = .kexit4 ∨ b = .kexit5 ∨ b = .kexit6
  | .sched w | .out w | .back w => w = .dead
  | _ => False

/-- A position at which a timer interrupt may come. -/
def Base.Open (b : Base) : Prop := b.locks = [] ∧ b.left = false

/-- The states of the slot of a thread at a position. -/
def Pc.Allows : Pc → ProcState → Prop
  | .absent, _ => False
  | .here b, st => st = if b.left then .zombie else .running
  | .yield0 b, st => b.Open ∧ st = .running
  | .sched .start, _ => False
  | .sched (.slept _), st => st = .sleeping
  | .sched (.yielded b), st => b.Open ∧ st = .runnable
  | .sched .dead, st => st = .zombie
  | .out .start, st => st = .runnable
  | .out (.slept _), st => st = .sleeping ∨ st = .runnable
  | .out (.yielded b), st => b.Open ∧ st = .runnable
  | .out .dead, st => st = .zombie
  | .back (.yielded b), st => b.Open ∧ st = .running
  | .back .dead, _ => False
  | .back _, st => st = .running

theorem Pc.Allows.ne_unused {p : Pc} {st : ProcState} (h : p.Allows st) : st ≠ .unused := by
  rintro rfl
  cases p with
  | absent => exact h
  | here b =>
    simp only [Allows] at h
    split_ifs at h
  | yield0 b => cases h.2
  | sched w | out w | back w => cases w <;> simp [Allows] at h

/-- A marked thread is a zombie, and the others are not. -/
theorem Pc.Allows.gone_iff {p : Pc} {st : ProcState} (h : p.Allows st) : Gone st ↔ p.Left := by
  cases p with
  | absent => exact h.elim
  | here b =>
    simp only [Allows] at h
    split_ifs at h with hb <;> subst h <;> simp [Gone, Left, hb]
  | yield0 b => obtain ⟨-, rfl⟩ := h; simp [Gone, Left]
  | sched w =>
    cases w <;> simp only [Allows] at h
    · subst h; simp [Gone, Left]
    · obtain ⟨-, rfl⟩ := h; simp [Gone, Left]
    · subst h; simp [Gone, Left]
  | out w =>
    cases w <;> simp only [Allows] at h
    · subst h; simp [Gone, Left]
    · rcases h with rfl | rfl <;> simp [Gone, Left]
    · obtain ⟨-, rfl⟩ := h; simp [Gone, Left]
    · subst h; simp [Gone, Left]
  | back w =>
    cases w <;> simp only [Allows] at h
    · subst h; simp [Gone, Left]
    · subst h; simp [Gone, Left]
    · obtain ⟨-, rfl⟩ := h; simp [Gone, Left]

/-- A thread whose slot is runnable waits to be scheduled, or holds `p->lock` in `yield`. -/
theorem Pc.Allows.of_runnable {p : Pc} (h : p.Allows .runnable) :
    (∃ w, p = .out w ∧ w ≠ .dead) ∨ .proc ∈ p.locks := by
  cases p with
  | absent => exact h.elim
  | here b =>
    simp only [Allows] at h
    split_ifs at h
  | yield0 b => cases h.2
  | sched w | back w => exact .inr (by simp [locks])
  | out w => exact .inl ⟨w, rfl, by rintro rfl; simp [Allows] at h⟩

/-! ### Histories -/

/-- What may follow a history: a thread exits once; a join that succeeds is of another thread,
which has exited with the status that is stored, and which nobody has joined. -/
def Event.Follows (h : List Event) : Event → Prop
  | .exited c _ => ∀ status, .exited c status ∉ h
  | .joined c a stored =>
    c ≠ a.id ∧ (∀ d b v, b.id = a.id → .joined d b v ∉ h) ∧
      ∃ status, .exited a.id status ∈ h ∧ stored = if a.addr then some status else none
  | .notJoined _ _ => True

def Valid : List Event → Prop
  | [] => True
  | e :: h => e.Follows h ∧ Valid h

namespace Sys

/-- The slot of the thread is still its own. -/
def Owns (s : Sys) (c : ℤ) : Prop := (s.my c).id = c

/-- Slot `k` belongs to the thread that is to be joined, and the wakeup is still to come. -/
def Watch (s : Sys) (a : Join) (k : ThreadId) : Prop :=
  (s.slot k).id = a.id ∧ ¬ (s.pc a.id).Past

/-- No other thread of the process is left. -/
def Alone (s : Sys) (c : ℤ) : Prop := ∀ k, k ≠ s.home c → Gone (s.slot k).state

end Sys

/-- `kthread_join` is for another thread. -/
def Join.Other (a : Join) (c : ℤ) : Prop := a.id ≠ 0 ∧ a.id ≠ c

def Base.Knows (s : Sys) (c : ℤ) : Base → Prop
  | .join0 a | .joinScan a _ none => a.Other c
  | .joinAt a k | .joinLook a k => a.Other c ∧ (s.slot k).id = a.id
  | .joinScan a _ (some k) | .joinNext a k | .joinSleep a k | .sleep1 a k | .sleep2 a k =>
    a.Other c ∧ s.Watch a k
  | .kexit1 last status => .exited c status ∈ s.events ∧ (last = true → s.Alone c)
  | .exiting status => .exited c status ∈ s.events ∧ s.Alone c
  | _ => True

def Pc.Knows (s : Sys) (c : ℤ) : Pc → Prop
  | .here b | .yield0 b | .sched (.yielded b) | .out (.yielded b) | .back (.yielded b) =>
    b.Knows s c
  | .sched (.slept a) | .out (.slept a) =>
    a.Other c ∧ ((s.my c).state = .sleeping → ∃ k, (s.my c).chan = some k ∧ s.Watch a k)
  | .back (.slept a) => a.Other c
  | _ => True

namespace Sys

def Locks (s : Sys) : Prop := Spinlock.Consistent s.lock fun c l => l ∈ (s.pc c).locks

/-- Some thread has not left, or the last one is on its way into `exit`. -/
def Someone (s : Sys) : Prop :=
  (∃ c, s.pc c ≠ .absent ∧ ¬ (s.pc c).Left) ∨
    ∃ c status, s.pc c = .here (.kexit1 true status) ∨ s.pc c = .here (.exiting status)

structure Inv (s : Sys) : Prop where
  locks : s.Locks
  born : ∀ c, s.pc c ≠ .absent → 0 < c ∧ c < s.nexttid
  /-- A thread has its slot, in a state that goes with its position, until it is reaped. -/
  owner : ∀ c, s.pc c ≠ .absent →
    s.Owns c ∧ (s.pc c).Allows (s.my c).state ∨ s.pc c = .out .dead ∧ ¬ s.Owns c
  slots : ∀ k, (s.slot k).state = .unused ∧ (s.slot k).id = 0 ∨
    (s.slot k).state ≠ .unused ∧ s.pc (s.slot k).id ≠ .absent ∧ s.home (s.slot k).id = k
  context : ∀ c w, s.pc c = .out w → s.Owns c → (s.my c).context = c
  knows : ∀ c, (s.pc c).Knows s c
  zombies : ∀ k, (s.slot k).state = .zombie → .exited (s.slot k).id (s.slot k).xstate ∈ s.events
  exits : ∀ c status, .exited c status ∈ s.events → (s.pc c).Left
  reaped : ∀ c a v, .joined c a v ∈ s.events → s.pc a.id = .out .dead ∧ ¬ s.Owns a.id
  valid : Valid s.events
  someone : s.Someone
  noPanic : s.panic = false

end Sys

end Xv6.Kthread
