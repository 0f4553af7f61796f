import Xv6.Proc.Coherent
import Xv6.Proc.FreeSlots

/-!
# `SIGKILL` and sleeping processes

`kill` sets a bit and wakes nobody: `sigKillHandler` runs in the victim, when one of its threads
goes back to user mode.  Here: which steps leave a process with `SIGKILL` pending and no thread
that could get there without being woken.

`intr` says which channels are those of interruptible waits; it is arbitrary.  Every step but
`kill`, the sleeps and `kthread_exit` leaves the threads that can get on as they are (`Rouses`).
-/

namespace Xv6

open Transition Thread

/-- The thread is live and not asleep in an interruptible wait. -/
def Thread.Stirs (intr : Chan → Bool) (th : Thread) : Prop :=
  th.state ≠ .unused ∧ th.state ≠ .zombie ∧
    ¬ (th.state = .sleeping ∧ th.chan.any intr = true)

instance (intr : Chan → Bool) (th : Thread) : Decidable (th.Stirs intr) := by
  unfold Thread.Stirs; infer_instance

variable {th : Thread}

/-- A thread that is on its way, or in use and not yet started. -/
theorem Thread.stirs_of_state {intr : Chan → Bool}
    (h : th.state = .used ∨ th.state = .runnable ∨ th.state = .running) : th.Stirs intr := by
  unfold Thread.Stirs
  rcases h with h | h | h <;> simp [h]

/-- A pending `SIGKILL` of a live process has a thread that can act on it. -/
def Proc.Heard (intr : Chan → Bool) (p : Proc) : Prop :=
  p.Live → isSet p.penddingSignals SIGKILL = true → ∃ t, (p.threads t).Stirs intr

/-- No `SIGKILL` is added, and the threads that can get on still can. -/
structure Rouses (intr : Chan → Bool) (p p' : Proc) : Prop where
  live : p'.Live → p.Live
  pending : isSet p'.penddingSignals SIGKILL = true → isSet p.penddingSignals SIGKILL = true
  stirs : ∀ t, (p.threads t).Stirs intr → (p'.threads t).Stirs intr

variable {tid tid' : ℤ} {page : Option Trapframe}

namespace Rouses

variable {intr : Chan → Bool} {p p' : Proc} {t : ThreadId}

theorem heard (h : Rouses intr p p') (hp : p.Heard intr) : p'.Heard intr := fun hlive hset => by
  obtain ⟨t, ht⟩ := hp (h.live hlive) (h.pending hset)
  exact ⟨t, h.stirs t ht⟩

/-- The state of the process, the signals and the threads stay. -/
theorem of_eq (hstate : p'.state = p.state) (hpend : p'.penddingSignals = p.penddingSignals)
    (hthreads : p'.threads = p.threads) : Rouses intr p p' := by
  refine ⟨fun hl => ?_, fun hs => hpend ▸ hs, fun t ht => hthreads ▸ ht⟩
  unfold Proc.Live at hl ⊢
  rwa [hstate] at hl

theorem setThread (h : (p.threads t).Stirs intr → th.Stirs intr) :
    Rouses intr p (p.setThread t th) := by
  refine ⟨id, id, fun u hu => ?_⟩
  by_cases hut : u = t
  · subst hut
    rw [Proc.setThread_threads_self]
    exact h hu
  · simpa [Proc.setThread, hut] using hu

theorem setThread_same (hstate : th.state = (p.threads t).state)
    (hchan : th.chan = (p.threads t).chan) : Rouses intr p (p.setThread t th) := by
  refine setThread fun ht => ?_
  unfold Thread.Stirs
  rw [hstate, hchan]
  exact ht

theorem clearSignal (p : Proc) (i : Fin 32) : Rouses intr p (p.clearSignal i) := by
  refine ⟨id, fun hs => ?_, fun _ => id⟩
  simp only [Proc.clearSignal, isSet_clear, Bool.and_eq_true] at hs
  exact hs.1

theorem wakes (hstate : p'.state = p.state) (hpend : p'.penddingSignals = p.penddingSignals)
    (hthreads : ∀ t, ((p'.threads t).state = (p.threads t).state ∧
      (p'.threads t).chan = (p.threads t).chan) ∨ (p'.threads t).state = .runnable) :
    Rouses intr p p' := by
  refine ⟨fun hl => ?_, fun hs => hpend ▸ hs, fun t ht => ?_⟩
  · unfold Proc.Live at hl ⊢
    rwa [hstate] at hl
  · rcases hthreads t with ⟨hst, hchan⟩ | hst
    · unfold Thread.Stirs
      rw [hst, hchan]
      exact ht
    · exact stirs_of_state (.inr (.inl hst))

theorem wakeupThreads (p : Proc) (self : Option ThreadId) (chan : Option Chan) :
    Rouses intr p (p.wakeupThreads self chan) := by
  refine wakes rfl rfl fun t => ?_
  simp only [Proc.wakeupThreads]
  split_ifs
  · exact .inr rfl
  · exact .inl ⟨rfl, rfl⟩

theorem execMark (p : Proc) (t : ThreadId) : Rouses intr p (p.execMark t) := by
  refine wakes rfl rfl fun u => ?_
  simp only [Proc.execMark]
  split_ifs
  · exact .inr rfl
  · exact .inl ⟨rfl, rfl⟩
  · exact .inl ⟨rfl, rfl⟩

theorem sigKillHandler (p : Proc) : Rouses intr p p.sigKillHandler := by
  refine ⟨fun hl => ?_, id, fun t ht => ?_⟩
  · unfold Proc.Live at hl ⊢
    simp only [Proc.sigKillHandler] at hl
    split_ifs at hl with hs
    · rw [hs]
      exact ⟨by rintro ⟨⟩, by rintro ⟨⟩, by rintro ⟨⟩⟩
    · exact hl
  · simp only [Proc.sigKillHandler]
    split_ifs
    · exact stirs_of_state (.inr (.inl rfl))
    · exact ht

theorem setFrame (p : Proc) (t : ThreadId) (f : Trapframe) : Rouses intr p (p.setFrame t f) :=
  setThread_same rfl rfl

end Rouses

theorem Proc.Heard.of_dead {intr : Chan → Bool} {p : Proc} (h : ¬ p.Live) : p.Heard intr :=
  fun hl => absurd hl h

variable {k : Pages}

namespace Table

variable {intr : Chan → Bool} {s s' : Table}

def AllHeard (intr : Chan → Bool) (s : Table) : Prop := ∀ q, (s.proc q).Heard intr

/-- Another thread of the process of `x` can act on a pending `SIGKILL`. -/
def Spared (intr : Chan → Bool) (s : Table) (x : Tid) : Prop :=
  isSet (s.proc x.1).penddingSignals SIGKILL = true →
    ∃ t, t ≠ x.2 ∧ ((s.proc x.1).threads t).Stirs intr

/-- The condition on a step, in the state before it:
* `kill` sends `SIGKILL` to a process only if it has a live thread that is not asleep in an
  interruptible wait;
* a thread goes to sleep in such a wait, or ends itself in `kthread_exit`, only if its process
  has no `SIGKILL` pending or another such thread. -/
def Prompt (intr : Chan → Bool) (s : Table) (a : Act) : Prop :=
  (∀ xc ∈ s.naps a, intr xc.2 = true → s.Spared intr xc.1) ∧
    match a with
    | .kill _ _ signum (some q) =>
      signum = 9 → (s.proc q).Live → ∃ t, ((s.proc q).threads t).Stirs intr
    | .kthreadExit x _ false => s.Spared intr x
    | _ => True

variable {a : Act} {q : ProcId} {p p' : Proc}

theorem Change.heard (hg : s.Prompt intr a) (hx : ¬ a.Exits q) (hc : Change s a q p p')
    (h : p.Heard intr) : p'.Heard intr := by
  cases hc with
  | thread _ hnew => exact (Rouses.setThread fun _ => stirs_of_state (.inr hnew)).heard h
  | @sleep t chan _ hnap =>
    refine fun _ hset => ?_
    cases hintr : intr chan with
    | true =>
      obtain ⟨u, hut, hu⟩ := hg.1 _ hnap hintr hset
      exact ⟨u, by simpa [Proc.setThread, hut] using hu⟩
    | false =>
      refine ⟨t, ?_⟩
      rw [Proc.setThread_threads_self]
      refine ⟨by rintro ⟨⟩, by rintro ⟨⟩, fun hsleep => ?_⟩
      have hany : intr chan = true := hsleep.2
      rw [hintr] at hany
      cases hany
  | @zombie t status last _ ha =>
    subst ha
    cases last with
    | true => exact absurd rfl hx
    | false =>
      refine fun _ hset => ?_
      obtain ⟨u, hut, hu⟩ := hg.2 hset
      exact ⟨u, by simpa [Proc.setThread, hut] using hu⟩
  | join _ hz => exact (Rouses.setThread fun ht => absurd hz ht.2.1).heard h
  | frame => exact (Rouses.setFrame _ _ _).heard h
  | fields hthreads hstate _ hpend => exact (Rouses.of_eq hstate hpend hthreads).heard h
  | clear => exact (Rouses.clearSignal _ _).heard h
  | wakeup => exact (Rouses.wakeupThreads _ _ _).heard h
  | execMark => exact (Rouses.execMark _ _).heard h
  | sigKill => exact (Rouses.sigKillHandler _).heard h
  | @arrive x pid signum ha hfound =>
    subst ha
    intro hlive hset
    have hrange : ¬ (signum < 0 ∨ 31 < signum) := by
      intro hout
      simp [Table.killFinds, hout] at hfound
    have hset : isSet ((s.proc q).penddingSignals ||| sigBit (Fin.ofNat 32 signum.toNat)) SIGKILL =
      true := hset
    rw [isSet_or, isSet_sigBit, Bool.or_eq_true, decide_eq_true_iff] at hset
    rcases hset with hset | hsig
    · exact h hlive hset
    · refine hg.2 ?_ hlive
      have hval := congrArg Fin.val hsig
      simp only [SIGKILL, Fin.ofNat] at hval
      omega
  | exitMark => exact .of_dead fun hl => hl.2.2 rfl
  | free => exact .of_dead fun hl => hl.1 rfl
  | claim => exact .of_dead fun hl => hl.2.1 rfl
  | frames => exact h
  | newThread => exact (Rouses.setThread fun _ => stirs_of_state (.inl rfl)).heard h
  | start => exact (Rouses.setThread fun _ => stirs_of_state (.inr (.inl rfl))).heard h
  | makeRunnable _ nt =>
    refine fun _ _ => ⟨nt, stirs_of_state (.inr (.inl ?_))⟩
    simp [Proc.makeRunnable, Proc.setThread]

theorem AllHeard.step (h : s.AllHeard intr) (hg : s.Prompt intr a) (hs : s.step a = some s') :
    s'.AllHeard intr := by
  intro q
  by_cases hx : a.Exits q
  · exact .of_dead fun hl => hl.2.2 (state_of_exits hs hx)
  · exact (step_effect hs).invariant (fun hc => hc.heard hg hx) (h q)

/-- The first process has a runnable thread, and the other slots are free. -/
theorem AllHeard.userinit {mem : UserMem} (hboot : userinit k mem = some s) : s.AllHeard intr := by
  obtain ⟨s0, hzero, h⟩ := userinit_effect hboot
  have hg : s0.Prompt intr (.fork (0, 0) k (some 0)) := ⟨nofun, trivial⟩
  exact fun q => h.invariant (fun hc => hc.heard hg id) (hzero q ▸ .of_dead fun hl => hl.1 rfl)

end Table

/-- **`SIGKILL` and sleeping processes**, for every set `intr` of interruptible waits.  In every
run whose steps meet the condition, no live process with `SIGKILL` pending has all its live
threads asleep in interruptible waits. -/
theorem sigkill_finds_a_thread (intr : Chan → Bool) {mem : UserMem} {s₀ s : Table} {tr : List Act}
    (hboot : userinit k mem = some s₀) (h : Reach Table.step (Table.Prompt intr) s₀ tr s)
    (q : ProcId) (hlive : (s.proc q).Live)
    (hpend : isSet (s.proc q).penddingSignals SIGKILL = true) :
    ¬ ∀ t, (s.thread (q, t)).state ≠ .unused → (s.thread (q, t)).state ≠ .zombie →
      (s.thread (q, t)).state = .sleeping ∧
        ∃ c, (s.thread (q, t)).chan = some c ∧ intr c = true := by
  have hheard : s.AllHeard intr := h.state_invariant (Table.AllHeard.userinit hboot)
    fun s a s' hs hg hstep => hs.step hg hstep
  obtain ⟨t, hunused, hzombie, ht⟩ := hheard q hlive hpend
  refine fun hall => ht ((hall t hunused hzombie).imp_right fun ⟨c, hc, hintr⟩ => ?_)
  rw [Option.any_eq_true]
  exact ⟨c, hc, hintr⟩

instance (intr : Chan → Bool) (s : Table) (x : Tid) : Decidable (s.Spared intr x) := by
  unfold Table.Spared; infer_instance

instance (p : Proc) : Decidable p.Live := by
  unfold Proc.Live; infer_instance

instance (intr : Chan → Bool) (s : Table) (a : Act) : Decidable (s.Prompt intr a) := by
  unfold Table.Prompt
  refine @instDecidableAnd _ _ inferInstance ?_
  cases a with
  | kill y pid signum found =>
    cases found with
    | none => exact .isTrue trivial
    | some q =>
      exact inferInstanceAs (Decidable (signum = 9 → (s.proc q).Live →
        ∃ t, ((s.proc q).threads t).Stirs intr))
  | kthreadExit x status last =>
    cases last with
    | true => exact .isTrue trivial
    | false => exact inferInstanceAs (Decidable (s.Spared intr x))
  | _ => exact .isTrue trivial

/-- Every wait is interruptible. -/
def anyWait : Chan → Bool := fun _ => true

/-- The first process forks a child, sends it `SIGKILL` while it is runnable, and waits for it. -/
def killRunnable : List Act :=
  [.sched (0, 0), .fork (0, 0) zeroPages (some 1), .forkParent (0, 0), .forkRunnable (0, 0),
    .kill (0, 0) 2 9 (some 1), .wait (0, 0) true]

theorem sigkill_finds_runnable : ∃ s₀ s, userinit zeroPages (fun _ => none) = some s₀ ∧
    Reach Table.step (Table.Prompt anyWait) s₀ killRunnable.reverse s ∧
    (s.proc 1).Live ∧ isSet (s.proc 1).penddingSignals SIGKILL = true ∧
    ¬ ∀ t, (s.thread (1, t)).state ≠ .unused → (s.thread (1, t)).state ≠ .zombie →
      (s.thread (1, t)).state = .sleeping ∧
        ∃ c, (s.thread (1, t)).chan = some c ∧ anyWait c = true := by
  obtain ⟨s₀, hboot, s, hs, he⟩ : ∃ s₀ ∈ userinit zeroPages fun _ => none,
      ∃ s ∈ runWhen Table.step (Table.Prompt anyWait) s₀ killRunnable, (s.proc 1).Live ∧
      isSet (s.proc 1).penddingSignals SIGKILL = true := by decide +kernel
  have hreach := reach_of_runWhen hs
  exact ⟨s₀, s, hboot, hreach, he.1, he.2,
    sigkill_finds_a_thread _ hboot hreach 1 he.1 he.2⟩

/-- The child has a child of its own and waits for it when the first process sends it
`SIGKILL`. -/
def killWaiting : List Act :=
  [.sched (0, 0), .fork (0, 0) zeroPages (some 1), .forkParent (0, 0), .forkRunnable (0, 0),
    .sched (1, 0), .fork (1, 0) zeroPages (some 2), .forkParent (1, 0), .forkRunnable (1, 0),
    .wait (1, 0) true, .kill (0, 0) 2 9 (some 1)]

/-- Its only thread sleeps in `wait` with `SIGKILL` pending, and nothing wakes it but its own
child. -/
theorem sigkill_waits : ∃ s₀ s, userinit zeroPages (fun _ => none) = some s₀ ∧
    Reach Table.step Always s₀ killWaiting.reverse s ∧
    (s.proc 1).Live ∧ isSet (s.proc 1).penddingSignals SIGKILL = true ∧
    (s.thread (1, 0)).state = .sleeping ∧ (s.thread (1, 0)).chan = some (.proc 1) ∧
    ∀ t, t ≠ 0 → (s.thread (1, t)).state = .unused := by
  obtain ⟨s₀, hboot, s, hs, he⟩ : ∃ s₀ ∈ userinit zeroPages fun _ => none,
      ∃ s ∈ run Table.step s₀ killWaiting, (s.proc 1).Live ∧
      isSet (s.proc 1).penddingSignals SIGKILL = true ∧
      ((s.thread (1, 0)).state = .sleeping ∧ (s.thread (1, 0)).chan = some (.proc 1)) ∧
      (∀ t, t ≠ 0 → (s.thread (1, t)).state = .unused) := by decide +kernel
  exact ⟨s₀, s, hboot, reach_always hs, he.1, he.2.1,
    he.2.2.1.1, he.2.2.1.2, he.2.2.2⟩

end Xv6
