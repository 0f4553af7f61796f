import Xv6.Smp.Invariant

/-!
# What one step of the machine can do

`Effect` lists what a step does to the states of threads and processes, the positions, the CPUs
and the locks; `step_effect` says that every careful step from a state with the invariant is one
of these.  That the invariant is kept, and what follows for the freeing of slots, is then read
off `Effect`, not off the code.
-/

namespace Xv6.Smp

open Function Proc List Option Machine

variable {C M K : Type} [DecidableEq C]

/-- What a step of CPU `c` does to the locks, with those it holds before and after. -/
inductive LockMove (c : C) (lock lock' : Lk → Option C) (held held' : List Lk) : Prop
  | same (hl : lock' = lock) (hh : ∀ l, l ∈ held' ↔ l ∈ held)
  | acquire (l : Lk) (hl : Spinlock.acquire lock c l = some lock')
      (hh : ∀ l', l' ∈ held' ↔ l' = l ∨ l' ∈ held)
  | release (l : Lk) (hl : Spinlock.release lock c l = some lock')
      (hh : ∀ l', l' ∈ held' ↔ l' ≠ l ∧ l' ∈ held)

def LockEffect (c : C) (s s' : Machine C M) : Prop :=
  LockMove c s.lock s'.lock (s.held c) (s'.held c)

/-- The state is kept, or a sleeper is made runnable. -/
def Woken (st st' : ProcState) : Prop := st' = st ∨ st = .sleeping ∧ st' = .runnable

/-- The page table and the trapframe page stay. -/
def KeepsPages (p p' : Proc) : Prop := p'.pagetable = p.pagetable ∧ p'.trapframe = p.trapframe

/-- Nothing but wakeups happens to the process. -/
structure Roused (p p' : Proc) : Prop where
  state : Woken p.state p'.state
  thread : ∀ t, Woken (p.threads t).state (p'.threads t).state
  pages : p.state ≠ .unused → KeepsPages p p'

/-- Nothing but wakeups happens to the table. -/
def Quiet (P P' : ProcId → Proc) : Prop := ∀ q, Roused (P q) (P' q)

/-- The thread in slot `x` gets the state `st`. -/
structure Sets (x : Tid) (st : ProcState) (P P' : ProcId → Proc) : Prop where
  self : ((P' x.1).threads x.2).state = st
  other : ∀ y : Tid, y ≠ x → ((P' y.1).threads y.2).state = ((P y.1).threads y.2).state
  proc : ∀ q, (P' q).state = (P q).state
  pages : ∀ q, KeepsPages (P q) (P' q)

/-- From position `p` a thread of process `q` may go to `b` without a change of its state. -/
structure Flow (q : ProcId) (p : Pos) (b : Base) : Prop where
  allows : ∀ st, p.Runs q st → b.Allows st
  last : b.last = true → p.last = true
  forking : ∀ r, b.forking = some r → p.forking = some r
  leaving : p ≠ .here .exit2
  exits : b.exits = true → p.exits = true ∨ p = .here (.body .user) ∧ ∃ e, b = .body (.closing e)

/-- What a careful step of CPU `c` can do. -/
inductive Effect (mon : Monitor M K) (c : C) (s s' : Machine C M) : Prop
  /-- The CPU is in the scheduler. -/
  | idle (hc : ∀ x, s.cpu c ≠ .run x) (hc' : ∀ x, s'.cpu c ≠ .run x)
      (hcpu : ∀ c', c' ≠ c → s'.cpu c' = s.cpu c') (hpos : s'.pos = s.pos) (hmem : s'.mem = s.mem)
      (hq : Quiet s.proc s'.proc) (hl : LockEffect c s s')
  /-- The thread goes on. -/
  | stay (x : Tid) (b : Base) (hx : s.cpu c = .run x) (hcpu : s'.cpu = s.cpu)
      (hpos : s'.pos = update s.pos x (.here b)) (hmem : s'.mem = s.mem)
      (hq : Quiet s.proc s'.proc) (hl : LockEffect c s s') (hflow : Flow x.1 (s.pos x) b)
      (hbusy : b.inner = true ∨ (s.pos x).inner = false ∨ mon.busy s.mem x = false)
  /-- A step of the rest of the kernel. -/
  | monitor (x : Tid) (w : Body) (k : K) (m : M) (hx : s.cpu c = .run x)
      (hp : s.pos x = .here (.body w)) (hm : mon.step s.mem x k = some m)
      (hs : s' = { s with mem := m })
  /-- The thread is switched out, to run again. -/
  | leave (x : Tid) (b : Base) (p : Pos) (st : ProcState) (hx : s.cpu c = .run x)
      (hp : s.pos x = .here b) (hb : b.Allows .running)
      (hcpu : s'.cpu = update s.cpu c (.pick x.1 (x.2.val + 1)))
      (hpos : s'.pos = update s.pos x p) (hmem : s'.mem = s.mem) (hsets : Sets x st s.proc s'.proc)
      (hst : st = .runnable ∨ st = .sleeping) (hl : LockEffect c s s')
      (hpark : p.Parked x.1 st) (hlast : p.last = b.last) (hfork : p.forking = b.forking)
      (hinner : p.inner = b.inner) (hexits : p.exits = b.exits)
  /-- The thread is switched out for good. -/
  | die (x : Tid) (b : Base) (hx : s.cpu c = .run x) (hp : s.pos x = .here b)
      (hb : b = .kexit4 ∨ b = .exit2)
      (hcpu : s'.cpu = update s.cpu c (.pick x.1 (x.2.val + 1)))
      (hpos : s'.pos = update s.pos x .dead) (hmem : s'.mem = s.mem)
      (hproc : s'.proc = s.proc) (hl : LockEffect c s s')
  /-- The scheduler switches to a thread. -/
  | dispatch (x : Tid) (k : ℕ) (hc : s.cpu c = .pick x.1 k) (hst : s.state x = .runnable)
      (hcpu : s'.cpu = update s.cpu c (.run x)) (hpos : s'.pos = s.pos)
      (hmem : s'.mem = s.mem) (hsets : Sets x .running s.proc s'.proc) (hlock : s'.lock = s.lock)
  /-- `kthread_exit` marks the thread. -/
  | kexit (x : Tid) (e : Exiting) (hx : s.cpu c = .run x) (hp : s.pos x = .here (.body .user))
      (hbusy : mon.busy s.mem x = false) (hcpu : s'.cpu = s.cpu)
      (hpos : s'.pos = update s.pos x (.here (.kexit1 e))) (hmem : s'.mem = s.mem)
      (hsets : Sets x .zombie s.proc s'.proc) (hl : LockEffect c s s')
      (hlast : e.last = true → ∀ t, t ≠ x.2 → Gone (s.state (x.1, t)))
  /-- `exit` marks all threads. -/
  | exit (x : Tid) (e : Exiting) (hx : s.cpu c = .run x) (hp : s.pos x = .here (.exit1 e))
      (hcpu : s'.cpu = s.cpu) (hpos : s'.pos = update s.pos x (.here .exit2))
      (hmem : s'.mem = s.mem)
      (hproc : s'.proc = update s.proc x.1 ((s.proc x.1).exitMark e.status))
      (hl : LockEffect c s s') (halone : ∀ c' t, t ≠ x.2 → s.cpu c' ≠ .run (x.1, t))
  /-- `kthread_create` starts the thread `nt`. -/
  | create (x : Tid) (nt : ThreadId) (hx : s.cpu c = .run x)
      (hp : s.pos x = .here (.body .user)) (hbusy : mon.busy s.mem x = false)
      (hfree : s.state (x.1, nt) = .unused) (hcpu : s'.cpu = s.cpu)
      (hpos : s'.pos = update (update s.pos (x.1, nt)
        (.resumed (.body .user))) x (.here .unlock))
      (hmem : s'.mem = mon.fresh s.mem (x.1, nt)) (hsets : Sets (x.1, nt) .runnable s.proc s'.proc)
      (hl : LockEffect c s s')
  /-- `kthread_join` frees the thread `t`. -/
  | join (x : Tid) (id : ℤ) (t : ThreadId) (hx : s.cpu c = .run x)
      (hp : s.pos x = .here (.joinAt id t)) (hz : s.state (x.1, t) = .zombie)
      (hcpu : s'.cpu = s.cpu)
      (hpos : s'.pos = update s.pos x (.here (.joinChecked id t true)))
      (hmem : s'.mem = s.mem) (hsets : Sets (x.1, t) .unused s.proc s'.proc)
      (hl : LockEffect c s s')
      (hfree : s.lock (.proc x.1) = none)
      (hout : s.pos (x.1, t) ≠ .here .kexit2 ∧ s.pos (x.1, t) ≠ .here .kexit4)
  /-- `wait` frees the process `np`. -/
  | wait (x : Tid) (np : ProcId) (hx : s.cpu c = .run x) (hp : s.pos x = .here (.waitAt np))
      (hz : (s.proc np).state = .zombie) (hcpu : s'.cpu = s.cpu)
      (hpos : s'.pos = update s.pos x (.here (.waitChecked np true)))
      (hmem : s'.mem = s.mem) (hproc : s'.proc = update s.proc np (s.proc np).freeproc)
      (hl : LockEffect c s s') (hfree : s.lock (.proc np) = none)
  /-- `fork` sets up the process `np` with its thread `nt`. -/
  | fork (x : Tid) (np : ProcId) (nt : ThreadId) (child : Proc) (hx : s.cpu c = .run x)
      (hp : s.pos x = .here (.fork1 np)) (hfree : (s.proc np).state = .unused)
      (hcpu : s'.cpu = s.cpu)
      (hpos : s'.pos = update (update s.pos (np, nt)
        (.resumed (.body .user))) x (.here (.fork3 np (some nt) false)))
      (hmem : s'.mem = mon.fresh s.mem (np, nt))
      (hproc : s'.proc = update s.proc np child) (hused : child.state = .used)
      (hnt : (child.threads nt).state = .used)
      (hrest : ∀ t, t ≠ nt → (child.threads t).state = .unused) (hl : LockEffect c s s')
  /-- `fork` makes the child runnable. -/
  | forkRun (x : Tid) (np : ProcId) (nt : ThreadId) (hx : s.cpu c = .run x)
      (hp : s.pos x = .here (.fork6 np nt)) (hcpu : s'.cpu = s.cpu)
      (hpos : s'.pos = update s.pos x (.here (.fork7 np))) (hmem : s'.mem = s.mem)
      (hproc : s'.proc = update s.proc np ((s.proc np).makeRunnable nt))
      (hl : LockEffect c s s')

/-! ### Changes of one process -/

theorem Woken.refl (st : ProcState) : Woken st st := .inl rfl

variable {st : ProcState}

theorem Woken.eq {st' : ProcState} (h : Woken st st') (hne : st ≠ .sleeping) : st' = st :=
  h.resolve_right fun hs => hne hs.1

theorem Woken.eq' {st' : ProcState} (h : Woken st st') (hne : st' ≠ .runnable) : st' = st :=
  h.resolve_right fun hs => hne hs.2

theorem KeepsPages.refl (p : Proc) : KeepsPages p p := ⟨rfl, rfl⟩

namespace Roused

variable {p p' p'' : Proc}

theorem refl (p : Proc) : Roused p p := ⟨.refl _, fun _ => .refl _, fun _ => .refl p⟩

theorem of_eq (hstate : p'.state = p.state)
    (hthreads : ∀ t, (p'.threads t).state = (p.threads t).state) (hpages : KeepsPages p p') :
    Roused p p' := ⟨.inl hstate, fun t => .inl (hthreads t), fun _ => hpages⟩

theorem setThread (t : ThreadId) {th : Thread} (h : Woken (p.threads t).state th.state) :
    Roused p (p.setThread t th) := by
  refine ⟨.refl _, fun u => ?_, fun _ => .refl p⟩
  by_cases hu : u = t
  · subst hu
    rw [setThread_threads_self]
    exact h
  · have hkeep : (p.setThread t th).threads u = p.threads u := update_of_ne hu _ _
    rw [hkeep]
    exact .refl _

theorem wakeupThreads (p : Proc) (self : Option ThreadId) (chan : Option Chan) :
    Roused p (p.wakeupThreads self chan) := by
  refine ⟨.refl _, fun t => ?_, fun _ => .refl p⟩
  simp only [Proc.wakeupThreads]
  split_ifs with hc
  · exact .inr ⟨hc.2.1, rfl⟩
  · exact .refl _

theorem execMark (p : Proc) (t : ThreadId) : Roused p (p.execMark t) := by
  refine ⟨.refl _, fun u => ?_, fun _ => .refl p⟩
  simp only [Proc.execMark]
  by_cases hc : (p.threads u).state ≠ .unused ∧ u ≠ t
  · rw [if_pos hc]
    dsimp only
    split_ifs with hs
    · exact .inr ⟨hs, rfl⟩
    · exact .refl _
  · rw [if_neg hc]
    exact .refl _

theorem sigKillHandler (p : Proc) : Roused p p.sigKillHandler := by
  refine ⟨?_, fun t => ?_, fun _ => .refl p⟩
  · simp only [Proc.sigKillHandler]
    split_ifs with hs
    · exact .inr ⟨hs, rfl⟩
    · exact .refl _
  · simp only [Proc.sigKillHandler]
    split_ifs with hs
    · exact .inr ⟨hs, rfl⟩
    · exact .refl _

theorem of_unused (hp : p.state = .unused) (hp' : p'.state = .unused)
    (ht : ∀ t, (p.threads t).state = .unused) (ht' : ∀ t, (p'.threads t).state = .unused) :
    Roused p p' :=
  ⟨.inl (hp'.trans hp.symm), fun t => .inl ((ht' t).trans (ht t).symm), fun h => absurd hp h⟩

end Roused

theorem Quiet.refl (P : ProcId → Proc) : Quiet P P := fun q => .refl (P q)

variable {P : ProcId → Proc} {q : ProcId}

theorem Quiet.update {p : Proc} (h : Roused (P q) p) : Quiet P (update P q p) := by
  intro r
  by_cases hr : r = q
  · subst hr
    rw [update_self]
    exact h
  · rw [update_of_ne hr]
    exact .refl _

theorem Sets.update {x : Tid} {p : Proc} (hself : (p.threads x.2).state = st)
    (hother : ∀ t, t ≠ x.2 → (p.threads t).state = ((P x.1).threads t).state)
    (hstate : p.state = (P x.1).state) (hpages : KeepsPages (P x.1) p) :
    Sets x st P (update P x.1 p) where
  self := by rw [update_self]; exact hself
  other y hy := by
    by_cases hq : y.1 = x.1
    · rw [hq, update_self]
      exact hother y.2 fun ht => hy (Prod.ext hq ht)
    · rw [update_of_ne hq]
  proc q := by
    by_cases hq : q = x.1
    · rw [hq, update_self]
      exact hstate
    · rw [update_of_ne hq]
  pages q := by
    by_cases hq : q = x.1
    · rw [hq, update_self]
      exact hpages
    · rw [update_of_ne hq]
      exact .refl _

theorem Sets.setThread (P : ProcId → Proc) (x : Tid) (th : Thread) :
    Sets x th.state P (Function.update P x.1 ((P x.1).setThread x.2 th)) := by
  refine .update (by rw [Proc.setThread_threads_self]) (fun t ht => ?_) rfl (.refl _)
  have hkeep : ((P x.1).setThread x.2 th).threads t = (P x.1).threads t :=
    update_of_ne ht _ _
  rw [hkeep]

/-! ### `allocthread` and `allocproc` -/

variable {tid tid' : ℤ} {page : Option Trapframe} {nt : ThreadId}

/-- With memory for the page, `allocthread` fails only if no slot is free. -/
theorem allocthread_none {p p' : Proc} (hpage : page ≠ none)
    (h : p.allocthread tid page = (none, p', tid')) :
    p' = p ∧ ∀ t, (p.threads t).state ≠ .unused := by
  unfold allocthread at h
  split at h
  · next hnone =>
    cases h
    refine ⟨rfl, fun t ht => ?_⟩
    have := find?_eq_none.1 hnone t (mem_finRange t)
    simp [ht] at this
  · cases page with
    | none => exact absurd rfl hpage
    | some f => cases h

theorem startThread_sets {x : Tid} {p : Proc}
    (h : (P x.1).allocthread tid page = (some nt, p, tid')) (f : Trapframe) (start stack : Word) :
    Sets (x.1, nt) .runnable P (update P x.1 (p.startThread f nt start stack)) := by
  obtain ⟨-, rfl⟩ := allocthread_some h
  refine Sets.update (x := (x.1, nt)) ?_ (fun t ht => ?_) rfl (.refl _)
  · simp [startThread]
  · have ht : t ≠ nt := ht
    simp [startThread, setFrame, Proc.setThread, ht]

variable {k : Pages}

/-- `allocproc` succeeds on a free slot. -/
theorem allocprocLocked_some {p p' : Proc} {pid : ℤ} (hfree : ∀ t, (p.threads t).state = .unused)
    (h : p.allocprocLocked pid tid k = (some nt, p', tid')) :
    p'.state = .used ∧ (p'.threads nt).state = .used ∧
      ∀ t, t ≠ nt → (p'.threads t).state = .unused := by
  unfold allocprocLocked at h
  dsimp only at h
  split at h
  · cases h
  · split_ifs at h
    · obtain ⟨-, rfl⟩ := allocthread_some h
      refine ⟨rfl, by rw [setThread_threads_self], fun t ht => ?_⟩
      simpa [Proc.setThread, ht, emptySpace, setFrames] using hfree t
    · cases h

theorem freeproc_unused {p : Proc} (h : ∀ t, (p.threads t).state ≠ .running) (t : ThreadId) :
    (p.freeproc.threads t).state = .unused := freeproc_coherent h t

/-- `allocproc` fails on a free slot: it is free again, and it is not freed once more if there was
memory for the thread. -/
theorem allocprocLocked_none {p p' : Proc} {pid : ℤ} (hfree : ∀ t, (p.threads t).state = .unused)
    (hpage : k.backup ≠ none) (h : p.allocprocLocked pid tid k = (none, p', tid')) :
    p'.state = .unused ∧ (∀ t, (p'.threads t).state = .unused) ∧
      (k.trapframe.isSome && k.pagetable) = false := by
  have hidle : ∀ t, (p.threads t).state ≠ .running := fun t => by rw [hfree t]; decide
  unfold allocprocLocked at h
  dsimp only at h
  split at h
  · next hnone =>
    cases h
    exact ⟨rfl, freeproc_unused hidle, by rw [hnone]; rfl⟩
  · next frames hsome =>
    split_ifs at h with hpt
    · exact absurd (hfree 0) ((allocthread_none hpage h).2 0)
    · cases h
      exact ⟨rfl, freeproc_unused hidle, by simpa using fun _ => hpt⟩

/-! ### Steps of a thread -/

namespace LockMove

variable {c : C} {lock lock' : Lk → Option C} {l m : Lk} {rest : List Lk}

theorem acquire_cons (h : Spinlock.acquire lock c l = some lock') :
    LockMove c lock lock' rest (l :: rest) := .acquire l h fun _ => mem_cons

theorem release_cons (h : Spinlock.release lock c l = some lock') (hl : l ∉ rest) :
    LockMove c lock lock' (l :: rest) rest := by
  refine .release l h fun l' => ⟨fun hl' => ⟨?_, mem_cons_of_mem l hl'⟩, fun hl' => ?_⟩
  · rintro rfl
    exact hl hl'
  · exact (mem_cons.1 hl'.2).resolve_left hl'.1

theorem release_second (h : Spinlock.release lock c l = some lock') (hne : m ≠ l) :
    LockMove c lock lock' [m, l] [m] := by
  refine .release l h fun l' => ?_
  simp only [mem_cons, not_mem_nil, or_false]
  constructor
  · rintro rfl
    exact ⟨hne, .inl rfl⟩
  · rintro ⟨hl', hm | hl⟩
    · exact hm
    · exact absurd hl hl'

end LockMove

theorem Ret.proc_notMem_locks (q : ProcId) (r : Ret) : .proc q ∉ r.locks := by
  cases r <;> simp [Ret.locks]

theorem Exiting.allows_running (e : Exiting) : e.Allows .running := .inl rfl

theorem Body.allows_running (w : Body) : w.Allows .running := by
  cases w with
  | user => rfl
  | closing e => exact e.allows_running

theorem Sleeper.allows_running (k : Sleeper) : k.Allows .running := by
  cases k with
  | other w => exact w.allows_running
  | wait | join id => rfl

theorem Flow.here {b₀ b : Base} (hallows : ∀ st, b₀.Allows st → b.Allows st)
    (hlast : b.last = true → b₀.last = true) (hfork : ∀ r, b.forking = some r → b₀.forking = some r)
    (hne : b₀ ≠ .exit2) (hexits : b.exits = true → b₀.exits = true) : Flow q (.here b₀) b :=
  ⟨hallows, hlast, hfork, fun h => hne (by cases h; rfl), fun h => .inl (hexits h)⟩

section

variable {mon : Monitor M K} {s s₁ s' t : Machine C M} {c : C} {x : Tid} {l : Lk} {b b₀ : Base}

omit [DecidableEq C] in
theorem acquire_bind {f : Machine C M → Option (Machine C M)}
    (h : (s.acquire c l).bind f = some s') :
    ∃ lock, Spinlock.acquire s.lock c l = some lock ∧ f { s with lock := lock } = some s' := by
  obtain ⟨s₁, h1, h⟩ := bind_eq_some_iff.1 h
  obtain ⟨lock, hlock, ⟨⟩⟩ := bind_eq_some_iff.1 h1
  exact ⟨lock, hlock, h⟩

omit [DecidableEq C] in
theorem acquire_free {lock lock' : Lk → Option C} (h : Spinlock.acquire lock c l = some lock') :
    lock l = none := by
  unfold Spinlock.acquire at h
  split_ifs at h with hnone
  exact isNone_iff_eq_none.1 hnone

theorem release_bind {f : Machine C M → Option (Machine C M)}
    (h : (s.release c l).bind f = some s') :
    ∃ lock, Spinlock.release s.lock c l = some lock ∧ f { s with lock := lock } = some s' := by
  obtain ⟨s₁, h1, h⟩ := bind_eq_some_iff.1 h
  obtain ⟨lock, hlock, ⟨⟩⟩ := bind_eq_some_iff.1 h1
  exact ⟨lock, hlock, h⟩

omit [DecidableEq C] in
theorem held_run (hx : s.cpu c = .run x) : s.held c = (s.pos x).locks x.1 := by
  simp [held, hx]

omit [DecidableEq C] in
theorem held_idle {p : CpuPos} (hc : s.cpu c = p) (hp : ∀ x, p ≠ .run x) : s.held c = p.locks := by
  unfold held
  rw [hc]
  cases p with
  | run x => exact absurd rfl (hp x)
  | _ => rfl

theorem lockEffect_here (hx : s.cpu c = .run x) (hp : s.pos x = .here b₀)
    (hx' : s'.cpu c = .run x) (hp' : s'.pos x = .here b)
    (hl : LockMove c s.lock s'.lock (b₀.locks x.1) (b.locks x.1)) : LockEffect c s s' := by
  unfold LockEffect
  rw [held_run hx, held_run hx', hp, hp']
  exact hl

theorem lockEffect_swtch {k : ℕ} (hx : s.cpu c = .run x) (hp : s.pos x = .here b₀)
    (hx' : s'.cpu c = .pick x.1 k)
    (hl : LockMove c s.lock s'.lock (b₀.locks x.1) [.proc x.1]) : LockEffect c s s' := by
  unfold LockEffect
  rw [held_run hx, held_idle hx' nofun, hp]
  exact hl

/-- The thread goes on at `b` after a quiet change of the table and at most one lock operation. -/
theorem stay_here {p : Pos} (hx : s.cpu c = .run x) (hp : s.pos x = p) (hcpu : t.cpu = s.cpu)
    (hpos : t.pos = s.pos) (hmem : t.mem = s.mem) (hq : Quiet s.proc t.proc)
    (hl : LockMove c s.lock t.lock (p.locks x.1) (b.locks x.1)) (hflow : Flow x.1 p b)
    (hbusy : b.inner = true ∨ p.inner = false ∨ mon.busy s.mem x = false) :
    Effect mon c s (t.goto x b) := by
  subst hp
  refine .stay x b hx hcpu ?_ hmem hq ?_ hflow hbusy
  · simp [goto, hpos]
  · have hx' : (t.goto x b).cpu c = .run x := (congrFun hcpu c).trans hx
    have hp' : (t.goto x b).pos x = .here b := update_self _ _ _
    unfold LockEffect
    rw [held_run hx, held_run hx', hp']
    exact hl

theorem inner_or {d b : Base} {P : Prop} (h : b.inner = d.inner) :
    b.inner = true ∨ d.inner = false ∨ P := by
  cases hb : d.inner with
  | true => exact .inl (h.trans hb)
  | false => exact .inr (.inl rfl)

end

namespace Effect

theorem exitMark_gone (p : Proc) (status : ℤ) (t : ThreadId) :
    Gone ((p.exitMark status).threads t).state := exitMark_coherent status t

/-- What `makeRunnable` does to the threads. -/
theorem makeRunnable_thread {t : ThreadId} (p : Proc) (nt : ThreadId) (ht : t ≠ nt) :
    (p.makeRunnable nt).threads t = p.threads t := update_of_ne ht _ _

end Effect

end Xv6.Smp
