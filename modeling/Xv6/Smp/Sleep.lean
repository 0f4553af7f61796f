import Xv6.Lib.Run
import Xv6.Lib.Spinlock
import Xv6.Proc.Table

/-!
# `sleep` and `wakeup` (`kernel/proc.c`)

`sleep`, `wakeup`, `yield`, `sched` and `scheduler`, on any number of CPUs, with the lock of each
process and any other locks that threads take, hand to `sleep` and give back.  A step is one lock
operation, one write of `t->state` or `t->chan`, one look at a thread in `scheduler` or `wakeup`, or
one switch.  A thread may be preempted wherever it holds no lock.

Ghost state says what a wakeup owes.  `since x y`: thread `y` has taken the lock of the call of
`sleep` that `x` is in, after `x` gave it back there.  `due y x`: `y` is in a call of `wakeup`, and
when it made the call `x` was in `sleep` on the same channel and `since x y` was true; it stays so
until one of the two calls returns.  `roused x`: the call of `sleep` has been woken.
-/

namespace Xv6.Sleep

open Function

/-- Where a thread stands when it holds no lock of a process. -/
inductive Base (L : Type)
  | run -- Outside `sleep` and `wakeup`
  | wake (chan : Chan) (q : ℕ) -- `wakeup`: `acquire(&p->lock)` of slot `q`, or the end of the loop
  | reacquire (chan : Chan) (lk : L) -- `sleep`: `acquire(lk)` after waking up
  deriving DecidableEq, Repr

/-- Where a thread stands, by what it does next. -/
inductive Pos (L : Type)
  | here (b : Base L)
  | sleep1 (chan : Chan) (lk : L) -- `sleep`: `acquire(&p->lock)`
  | sleep2 (chan : Chan) (lk : L) -- `sleep`: `release(lk)`
  | sleep3 (chan : Chan) (lk : L) -- `sleep`: `t->chan = chan`
  | sleep4 (chan : Chan) (lk : L) -- `sleep`: `t->state = SLEEPING`
  | sleep5 (chan : Chan) (lk : L) -- `sleep`: `sched()`
  | slept (chan : Chan) (lk : L) -- In that `sched`; when it comes back, `t->chan = 0`
  | sleep6 (chan : Chan) (lk : L) -- `sleep`: `release(&p->lock)`
  /-- `wakeup`: look at thread `t` of slot `q`, or `release(&p->lock)` after the last one. -/
  | waking (chan : Chan) (q : ProcId) (t : ℕ)
  | yield1 (b : Base L) -- `yield`: `acquire(&p->lock)`
  | yield2 (b : Base L) -- `yield`: `t->state = RUNNABLE`
  | yield3 (b : Base L) -- `yield`: `sched()`
  | yielded (b : Base L) -- In that `sched`, or not yet started; then `release(&p->lock)`
  deriving DecidableEq, Repr

/-- What a CPU does next. -/
inductive Cpu
  | idle (q : ProcId) -- `scheduler`: `acquire(&p->lock)` of slot `q`
  /-- `scheduler`: look at thread `t` of slot `q`, or `release(&p->lock)` after the last one. -/
  | scan (q : ProcId) (t : ℕ)
  | picked (x : Tid) -- `scheduler`: `swtch` to thread `x`
  | run (x : Tid) -- The CPU executes thread `x`
  deriving DecidableEq, Repr

structure State (C L : Type) where
  cpu : C → Cpu
  pos : Tid → Pos L
  state : Tid → ProcState
  chan : Tid → Option Chan
  used : ProcId → Bool -- `p->state != UNUSED`
  plock : ProcId → Option C -- The locks of the processes
  lock : L → Option C
  noff : C → ℕ
  since : Tid → Tid → Bool
  due : Tid → Tid → Bool
  roused : Tid → Bool

/-- The steps; those of a thread outside `sleep` and `wakeup` are its own choice. -/
inductive Act (C L : Type)
  | go (c : C)
  | acquire (c : C) (lk : L)
  | release (c : C) (lk : L)
  | sleep (c : C) (chan : Chan) (lk : L)
  | wakeup (c : C) (chan : Chan)
  | yield (c : C) -- A timer interrupt

def Base.asleep {L : Type} : Base L → Option (Chan × L)
  | .reacquire chan lk => some (chan, lk)
  | _ => none

/-- The channel and lock of a call of `sleep` that has given back its lock. -/
def Pos.asleep {L : Type} : Pos L → Option (Chan × L)
  | .sleep3 chan lk | .sleep4 chan lk | .sleep5 chan lk | .slept chan lk | .sleep6 chan lk =>
    some (chan, lk)
  | .here b | .yield1 b | .yield2 b | .yield3 b | .yielded b => b.asleep
  | _ => none

namespace State

variable {C L : Type} [DecidableEq C] [DecidableEq L]

def goto (s : State C L) (x : Tid) (p : Pos L) : State C L :=
  { s with pos := update s.pos x p }

def setCpu (s : State C L) (c : C) (p : Cpu) : State C L :=
  { s with cpu := update s.cpu c p }

/-- `acquire(&p->lock)`. -/
def acquireProc (s : State C L) (c : C) (q : ProcId) : Option (State C L) :=
  (Spinlock.acquire s.plock c q).map fun plock =>
    { s with plock := plock, noff := update s.noff c (s.noff c + 1) }

/-- `release(&p->lock)`. -/
def releaseProc (s : State C L) (c : C) (q : ProcId) : Option (State C L) :=
  (Spinlock.release s.plock c q).map fun plock =>
    { s with plock := plock, noff := update s.noff c (s.noff c - 1) }

/-- `acquire(lk)` by thread `y`. -/
def acquireLk (s : State C L) (c : C) (y : Tid) (lk : L) : Option (State C L) :=
  (Spinlock.acquire s.lock c lk).map fun lock =>
    { s with
      lock := lock, noff := update s.noff c (s.noff c + 1)
      since := fun x z =>
        if z = y ∧ ((s.pos x).asleep.map Prod.snd) = some lk then true else s.since x z }

/-- `release(lk)`. -/
def releaseLk (s : State C L) (c : C) (lk : L) : Option (State C L) :=
  (Spinlock.release s.lock c lk).map fun lock =>
    { s with lock := lock, noff := update s.noff c (s.noff c - 1) }

/-- `sched` up to the switch; it panics unless the CPU holds `p->lock` and no other lock and the
thread has changed its state. -/
def sched (s : State C L) (c : C) (y : Tid) (p : Pos L) : Option (State C L) :=
  if s.plock y.1 = some c ∧ s.noff c = 1 ∧ s.state y ≠ .running then
    some ((s.goto y p).setCpu c (.scan y.1 (y.2 + 1)))
  else none

/-- The body of the inner loop of `wakeup(chan)`, called by `y`, for thread `x`. -/
def wakeThread (s : State C L) (y : Tid) (chan : Chan) (x : Tid) : State C L :=
  if x ≠ y ∧ s.state x = .sleeping ∧ s.chan x = some chan then
    { s with
      state := update s.state x .runnable
      roused := update s.roused x true }
  else s

/-- The next step of thread `y` on CPU `c`. -/
def threadStep (s : State C L) (c : C) (y : Tid) : Option (State C L) :=
  match s.pos y with
  | .here .run => none
  | .here (.wake chan q) =>
    if h : q < NPROC then (s.acquireProc c ⟨q, h⟩).map fun s => s.goto y (.waking chan ⟨q, h⟩ 0)
    else some ({ s with due := update s.due y fun _ => false }.goto y (.here .run))
  | .here (.reacquire _ lk) =>
    (s.acquireLk c y lk).map fun s =>
      { s with due := fun z x => if x = y then false else s.due z x }.goto y (.here .run)
  | .sleep1 chan lk => (s.acquireProc c y.1).map fun s => s.goto y (.sleep2 chan lk)
  | .sleep2 chan lk =>
    (s.releaseLk c lk).map fun s =>
      { s with
        since := update s.since y fun _ => false
        roused := update s.roused y false }.goto y (.sleep3 chan lk)
  | .sleep3 chan lk =>
    some ({ s with chan := update s.chan y (some chan) }.goto y (.sleep4 chan lk))
  | .sleep4 chan lk =>
    some ({ s with state := update s.state y .sleeping }.goto y (.sleep5 chan lk))
  | .sleep5 chan lk => s.sched c y (.slept chan lk)
  | .slept chan lk =>
    some ({ s with chan := update s.chan y none }.goto y (.sleep6 chan lk))
  | .sleep6 chan lk => (s.releaseProc c y.1).map fun s => s.goto y (.here (.reacquire chan lk))
  | .waking chan q t =>
    if h : t < NTHREAD then some ((s.wakeThread y chan (q, ⟨t, h⟩)).goto y (.waking chan q (t + 1)))
    else (s.releaseProc c q).map fun s => s.goto y (.here (.wake chan (q + 1)))
  | .yield1 b => (s.acquireProc c y.1).map fun s => s.goto y (.yield2 b)
  | .yield2 b =>
    some ({ s with state := update s.state y .runnable }.goto y (.yield3 b))
  | .yield3 b => s.sched c y (.yielded b)
  | .yielded b => (s.releaseProc c y.1).map fun s => s.goto y (.here b)

/-- The next step of CPU `c`. -/
def go (s : State C L) (c : C) : Option (State C L) :=
  match s.cpu c with
  | .idle q =>
    (s.acquireProc c q).map fun s => s.setCpu c (.scan q (if s.used q then 0 else NTHREAD))
  | .scan q t =>
    if h : t < NTHREAD then
      if s.state (q, ⟨t, h⟩) = .runnable then
        some ({ s with state := update s.state (q, ⟨t, h⟩) .running }.setCpu c
          (.picked (q, ⟨t, h⟩)))
      else some (s.setCpu c (.scan q (t + 1)))
    else (s.releaseProc c q).map fun s => s.setCpu c (.idle (q + 1))
  | .picked x => some (s.setCpu c (.run x))
  | .run x => s.threadStep c x

/-- The thread that CPU `c` executes outside `sleep` and `wakeup`. -/
def outside (s : State C L) (c : C) : Option Tid :=
  match s.cpu c with
  | .run y => if s.pos y = .here .run then some y else none
  | _ => none

/-- The sleepers on `chan` whose lock `y` has taken after they gave it back. -/
def owes (s : State C L) (y : Tid) (chan : Chan) (x : Tid) : Bool :=
  (s.pos x).asleep.map Prod.fst = some chan && s.since x y

def step (s : State C L) : Act C L → Option (State C L)
  | .go c => s.go c
  | .acquire c lk => (s.outside c).bind fun y => s.acquireLk c y lk
  | .release c lk => (s.outside c).bind fun _ => s.releaseLk c lk
  | .sleep c chan lk =>
    (s.outside c).bind fun y =>
      if s.lock lk = some c then some (s.goto y (.sleep1 chan lk)) else none
  | .wakeup c chan =>
    (s.outside c).map fun y =>
      { s with due := update s.due y (s.owes y chan) }.goto y (.here (.wake chan 0))
  | .yield c =>
    match s.cpu c with
    | .run y =>
      match s.pos y with
      | .here b => if s.noff c = 0 then some (s.goto y (.yield1 b)) else none
      | _ => none
    | _ => none

end State

/-! ### The invariant -/

section

variable {L : Type}

/-- The thread of a CPU. -/
def Cpu.thread : Cpu → Option Tid
  | .picked x => some x
  | .run x => some x
  | _ => none

/-- The process lock that a thread of process `p` holds while a CPU executes it. -/
def Pos.holds (p : ProcId) : Pos L → Option ProcId
  | .here _ | .sleep1 _ _ | .yield1 _ => none
  | .waking _ q _ => some q
  | _ => some p

/-- Switched out in `sched`, or back from it on a CPU and before its next step. -/
def Pos.parked : Pos L → Bool
  | .slept _ _ => true
  | .yielded _ => true
  | _ => false

/-- A thread on its way out of `sleep` has been woken and has no channel. -/
def Base.Returns (ch : Option Chan) (roused : Bool) : Base L → Prop
  | .reacquire _ _ => ch = none ∧ roused = true
  | _ => True

/-- What holds of a thread with a CPU: of its state, its channel and the ghost flag. -/
def Pos.Runs (st : ProcState) (ch : Option Chan) (roused : Bool) : Pos L → Prop
  | .here b | .yield1 b | .yield2 b | .yielded b => st = .running ∧ b.Returns ch roused
  | .yield3 b => st = .runnable ∧ b.Returns ch roused
  | .sleep1 _ _ | .sleep2 _ _ | .waking _ _ _ => st = .running
  | .sleep3 _ _ => st = .running ∧ roused = false
  | .sleep4 chan _ => st = .running ∧ ch = some chan ∧ roused = false
  | .sleep5 chan _ => st = .sleeping ∧ ch = some chan ∧ roused = false
  | .slept _ _ => st = .running ∧ roused = true
  | .sleep6 _ _ => st = .running ∧ ch = none ∧ roused = true

/-- What holds of a thread without a CPU. -/
def Pos.Off (st : ProcState) (ch : Option Chan) (roused : Bool) : Pos L → Prop
  | .slept chan _ => st = .sleeping ∧ ch = some chan ∧ roused = false ∨
      st = .runnable ∧ roused = true
  | .yielded b => (st = .runnable ∨ b = .run ∧ st ≠ .running ∧ st ≠ .sleeping) ∧
      b.Returns ch roused
  | _ => False

def Base.wakes : Base L → Option (Chan × ℕ)
  | .wake chan q => some (chan, q)
  | _ => none

/-- The channel of a call of `wakeup`. -/
def Pos.wakes : Pos L → Option Chan
  | .waking chan _ _ => some chan
  | .here b | .yield1 b | .yield2 b | .yield3 b | .yielded b => b.wakes.map Prod.fst
  | _ => none

/-- The call of `wakeup` has looked at thread `x`. -/
def Pos.Passed (x : Tid) : Pos L → Prop
  | .waking _ q t => x.1 < q ∨ x.1 = q ∧ x.2.val < t
  | .here b | .yield1 b | .yield2 b | .yield3 b | .yielded b =>
    ∃ chan q, b.wakes = some (chan, q) ∧ x.1.val < q
  | _ => False

/-- At `p` a thread is in the same call as at `p'`, and no further in it. -/
def Pos.Like (p p' : Pos L) : Prop :=
  p.wakes = p'.wakes ∧ p.asleep = p'.asleep ∧ ∀ x, p.Passed x → p'.Passed x

end

namespace State

variable {C L : Type}

/-- The process lock that CPU `c` holds, by its position. -/
def holds (s : State C L) (c : C) : Option ProcId :=
  match s.cpu c with
  | .idle _ => none
  | .scan q _ => some q
  | .picked x => some x.1
  | .run x => (s.pos x).holds x.1

/-- A sleeper that a wakeup owes is in its call, and has been woken if the wakeup has passed. -/
def Owed (s : State C L) : Prop :=
  ∀ y x, s.due y x = true → y ≠ x ∧
    (∃ chan lk, (s.pos y).wakes = some chan ∧ (s.pos x).asleep = some (chan, lk)) ∧
    ((s.pos y).Passed x → s.roused x = true)

structure Inv (s : State C L) : Prop where
  locks : Spinlock.Consistent s.plock fun c q => s.holds c = some q
  uniq : ∀ c c' x, (s.cpu c).thread = some x → (s.cpu c').thread = some x → c = c'
  picked : ∀ c x, s.cpu c = .picked x → (s.pos x).parked = true
  runs : ∀ c x, (s.cpu c).thread = some x → (s.pos x).Runs (s.state x) (s.chan x) (s.roused x)
  off : ∀ x, (∀ c, (s.cpu c).thread ≠ some x) →
    (s.pos x).Off (s.state x) (s.chan x) (s.roused x)
  due : s.Owed

/-- The threads wait to be started, or their slots are not in use; no lock is held. -/
structure Start (s : State C L) : Prop where
  cpu : ∀ c, ∃ q, s.cpu c = .idle q
  pos : ∀ x, s.pos x = .yielded .run
  state : ∀ x, s.state x ≠ .running ∧ s.state x ≠ .sleeping
  plock : ∀ q, s.plock q = none
  due : ∀ y x, s.due y x = false

variable {s s' : State C L} {c : C} {x y : Tid}

theorem Start.inv (h : s.Start) : s.Inv where
  locks c q := by
    obtain ⟨q', hc⟩ := h.cpu c
    have hnone : s.holds c = none := by simp only [holds, hc]
    simp only [h.plock, hnone]
    exact iff_of_false nofun nofun
  uniq c c' x hc := by
    obtain ⟨q, hq⟩ := h.cpu c
    rw [hq] at hc
    cases hc
  picked c x hc := by
    obtain ⟨q, hq⟩ := h.cpu c
    rw [hq] at hc
    cases hc
  runs c x hc := by
    obtain ⟨q, hq⟩ := h.cpu c
    rw [hq] at hc
    cases hc
  off x _ := by
    rw [h.pos x]
    exact ⟨.inr ⟨rfl, h.state x⟩, trivial⟩
  due y x hd := by
    rw [h.due y x] at hd
    cases hd

namespace Inv

theorem holds_run (hc : s.cpu c = .run y) : s.holds c = (s.pos y).holds y.1 := by
  simp only [holds, hc]

/-- Two threads that hold the lock of one process are the same. -/
theorem same_holder (h : s.Inv) {c' : C} {q : ProcId} (hc : s.cpu c = .run y)
    (hc' : s.cpu c' = .run x) (hy : (s.pos y).holds y.1 = some q)
    (hx : (s.pos x).holds x.1 = some q) : y = x := by
  have heq : c = c' :=
    h.locks.exclusive (l := q) ((holds_run hc).trans hy) ((holds_run hc').trans hx)
  subst heq
  rw [hc] at hc'
  cases hc'
  rfl

/-- A thread with a CPU that is not parked is executed. -/
theorem runs_of_thread (h : s.Inv) (hc : (s.cpu c).thread = some x)
    (hp : (s.pos x).parked = false) : s.cpu c = .run x := by
  cases hcpu : s.cpu c with
  | idle q | scan q t => rw [hcpu] at hc; cases hc
  | run z => rw [hcpu] at hc; cases hc; rfl
  | picked z =>
    have hpark := h.picked c z hcpu
    rw [hcpu] at hc
    cases hc
    rw [hp] at hpark
    cases hpark

/-- **The hand-over of the locks.**  While a CPU that executes `y` holds the lock of the process of
`x`, a thread `x` in `sleep` that has given back its lock has been woken, or it is switched out and
sleeps on its channel. -/
theorem asleep_or_roused (h : s.Inv) {chan : Chan} {lk : L} (hc : s.cpu c = .run y)
    (hq : (s.pos y).holds y.1 = some x.1) (hne : y ≠ x) (hx : (s.pos x).asleep = some (chan, lk)) :
    s.roused x = true ∨ s.state x = .sleeping ∧ s.chan x = some chan := by
  by_cases hcpu : ∃ c', (s.cpu c').thread = some x
  · obtain ⟨c', hc'⟩ := hcpu
    have hruns := h.runs c' x hc'
    -- between `release(lk)` and the switch the sleeper holds the lock itself
    have hwindow : (s.pos x).parked = false → (s.pos x).holds x.1 = some x.1 → False :=
      fun hp hholds => hne (h.same_holder hc (h.runs_of_thread hc' hp) hq hholds)
    have hbase : ∀ b : Base L, b.asleep = some (chan, lk) →
        b.Returns (s.chan x) (s.roused x) → s.roused x = true := fun b hb hret => by
      cases b with
      | reacquire chan' lk' => exact hret.2
      | run | wake chan' q => cases hb
    cases hp : s.pos x with
    | sleep3 _ _ | sleep4 _ _ | sleep5 _ _ => rw [hp] at hwindow; exact (hwindow rfl rfl).elim
    | slept _ _ => rw [hp] at hruns; exact .inl hruns.2
    | sleep6 _ _ => rw [hp] at hruns; exact .inl hruns.2.2
    | here b | yield1 b | yield2 b | yield3 b | yielded b =>
      rw [hp] at hx hruns; exact .inl (hbase b hx hruns.2)
    | sleep1 _ _ | sleep2 _ _ | waking _ _ _ => rw [hp] at hx; cases hx
  · have hoff := h.off x (not_exists.1 hcpu)
    cases hp : s.pos x with
    | slept chan' lk' =>
      rw [hp] at hx hoff
      cases hx
      rcases hoff with ⟨hst, hch, -⟩ | ⟨-, hr⟩
      · exact .inr ⟨hst, hch⟩
      · exact .inl hr
    | yielded b =>
      rw [hp] at hx hoff
      cases b with
      | reacquire chan' lk' => exact .inl hoff.2.2
      | run | wake chan' q => cases hx
    | _ => rw [hp] at hoff; exact hoff.elim

/-- A thread that `wakeup` makes runnable is switched out in `sleep`. -/
theorem off_of_sleeping (h : s.Inv) (hc : s.cpu c = .run y)
    (hq : (s.pos y).holds y.1 = some x.1) (hne : y ≠ x) (hx : s.state x = .sleeping) :
    (∀ c, (s.cpu c).thread ≠ some x) ∧ ∃ chan lk, s.pos x = .slept chan lk := by
  have hoff : ∀ c, (s.cpu c).thread ≠ some x := fun c' hc' => by
    have hruns := h.runs c' x hc'
    cases hp : s.pos x with
    | sleep5 _ _ =>
      refine hne (h.same_holder hc (h.runs_of_thread hc' ?_) hq ?_) <;> rw [hp] <;> rfl
    | _ =>
      rw [hp] at hruns
      simp only [Pos.Runs, hx, reduceCtorEq, false_and] at hruns
  have hrest := h.off x hoff
  refine ⟨hoff, ?_⟩
  cases hp : s.pos x with
  | slept chan lk => exact ⟨chan, lk, rfl⟩
  | yielded b => rw [hp, hx] at hrest; exact absurd hrest.1 (by simp)
  | _ => rw [hp] at hrest; exact hrest.elim

/-- A sleeper that has been woken and has not yet returned is `RUNNABLE` or `RUNNING`. -/
theorem roused_state (h : s.Inv) {chan : Chan} {lk : L} (hx : (s.pos x).asleep = some (chan, lk))
    (hr : s.roused x = true) : s.state x = .runnable ∨ s.state x = .running := by
  by_cases hcpu : ∃ c, (s.cpu c).thread = some x
  · obtain ⟨c, hc⟩ := hcpu
    have hruns := h.runs c x hc
    cases hp : s.pos x with
    | sleep3 _ _ => rw [hp, hr] at hruns; cases hruns.2
    | sleep4 _ _ | sleep5 _ _ => rw [hp, hr] at hruns; cases hruns.2.2
    | yield3 b => rw [hp] at hruns; exact .inl hruns.1
    | slept _ _ | sleep6 _ _ | here b | yield1 b | yield2 b | yielded b =>
      rw [hp] at hruns; exact .inr hruns.1
    | sleep1 _ _ | sleep2 _ _ | waking _ _ _ => rw [hp] at hx; cases hx
  · have hoff := h.off x (not_exists.1 hcpu)
    cases hp : s.pos x with
    | slept _ _ =>
      rw [hp, hr] at hoff
      exact .inl (hoff.elim (fun hs => nomatch hs.2.2) And.left)
    | yielded b =>
      rw [hp] at hx hoff
      refine .inl (hoff.1.resolve_right fun hrun => ?_)
      rw [hrun.1] at hx
      cases hx
    | _ => rw [hp] at hoff; exact hoff.elim

end Inv

end State

end Xv6.Sleep
