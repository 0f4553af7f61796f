import Xv6.Lib.Run
import Xv6.Proc.Steps

/-!
# Free thread slots

`freethread` leaves a slot with all its fields reset, and `allocthread` relies on it: it sets
`id`, `state` and the backup page only.  `sigKillHandler` marks all slots of the process, the
free ones too.  Here: as long as no process with a free slot is killed, free slots stay clean.
-/

namespace Xv6

open Transition

/-- The fields that `freethread` resets. -/
def Thread.Clean (th : Thread) : Prop :=
  th.id = 0 ∧ th.chan = none ∧ th.killed = 0 ∧ th.xstate = 0 ∧ th.userTrapFrameBackup = none

instance (th : Thread) : Decidable th.Clean := by unfold Thread.Clean; infer_instance

theorem clean_freethread (th : Thread) : (freethread th).Clean := ⟨rfl, rfl, rfl, rfl, rfl⟩

/-- The free thread slots of a process are clean. -/
def Proc.FreeClean (p : Proc) : Prop := ∀ t, (p.threads t).state = .unused → (p.threads t).Clean

variable {t : ThreadId} {th : Thread}

namespace Proc.FreeClean

variable {p : Proc}

theorem zero : Proc.zero.FreeClean := fun _ _ => ⟨rfl, rfl, rfl, rfl, rfl⟩

section

variable (h : p.FreeClean)

include h

theorem setThread (hth : th.state = .unused → th.Clean) : (p.setThread t th).FreeClean := by
  intro u hu
  by_cases hut : u = t
  · subst hut
    rw [setThread_threads_self] at hu ⊢
    exact hth hu
  · have hkeep : (p.setThread t th).threads u = p.threads u := Function.update_of_ne hut _ _
    rw [hkeep] at hu ⊢
    exact h u hu

theorem setFrame (t : ThreadId) (f : Trapframe) : (p.setFrame t f).FreeClean :=
  h.setThread fun ht => h t ht

theorem freeproc : p.freeproc.FreeClean := by
  intro t ht
  simp only [Proc.freeproc] at ht ⊢
  split_ifs with hc
  · exact clean_freethread (p.threads t)
  · rw [if_neg hc] at ht
    exact h t ht

theorem makeRunnable (nt : ThreadId) : (p.makeRunnable nt).FreeClean :=
  fun t ht => (h.setThread (t := nt) (by nofun) : (p.setThread nt
    { p.threads nt with state := .runnable }).FreeClean) t ht

theorem exitMark (status : ℤ) : (p.exitMark status).FreeClean := by
  intro t ht
  simp only [Proc.exitMark] at ht ⊢
  split_ifs with hc
  · rw [if_pos hc] at ht
    cases ht
  · rw [if_neg hc] at ht
    exact h t ht

theorem wakeupThreads (self : Option ThreadId) (chan : Option Chan) :
    (p.wakeupThreads self chan).FreeClean := by
  intro t ht
  simp only [Proc.wakeupThreads] at ht ⊢
  split_ifs with hc
  · rw [if_pos hc] at ht
    cases ht
  · rw [if_neg hc] at ht
    exact h t ht

theorem execMark (t : ThreadId) : (p.execMark t).FreeClean := by
  intro u hu
  simp only [Proc.execMark] at hu ⊢
  by_cases hc : (p.threads u).state ≠ .unused ∧ u ≠ t
  · rw [if_pos hc] at hu
    dsimp only at hu
    split_ifs at hu
    exact absurd hu hc.1
  · rw [if_neg hc] at hu ⊢
    exact h u hu

end

/-- The kill handler marks every slot, so no slot may be free. -/
theorem sigKillHandler (hused : ∀ t, (p.threads t).state ≠ .unused) :
    p.sigKillHandler.FreeClean := by
  intro t ht
  simp only [Proc.sigKillHandler] at ht
  split_ifs at ht
  exact absurd ht (hused t)

end Proc.FreeClean

variable {nt : ThreadId} {k : Pages} {p' : Proc}

namespace Table

variable {s s' : Table} {a : Act} {q : ProcId}

/-- The free thread slots of the whole table are clean. -/
def FreeClean (s : Table) : Prop := ∀ q, (s.proc q).FreeClean

/-- The step runs `sigKillHandler` only in a process without free thread slots. -/
def KillsFull (s : Table) : Act → Prop
  | .pass x => (s.proc x.1).frozen ≠ 1 → (∃ i, scan (s.proc x.1) = some (i, .kill)) →
      ∀ t, ((s.proc x.1).threads t).state ≠ .unused
  | _ => True

/-- The step is all that the code does with other threads around: `fork` has a page for the thread
that it makes (otherwise `allocproc` calls `freeproc` a second time, without the lock), and no other
thread of a process that exits is running (it would go on, as a zombie). -/
def Whole (s : Table) : Act → Prop
  | .fork _ k _ => k.backup ≠ none
  | .exit x _ => ∀ t ≠ x.2, (s.thread (x.1, t)).state ≠ .running
  | _ => True

theorem Change.freeClean {p : Proc} (hG : s.KillsFull a) (hc : Change s a q p p')
    (h : p.FreeClean) : p'.FreeClean := by
  cases hc with
  | thread _ hnew =>
    refine h.setThread fun hu => ?_
    rcases hnew with hn | hn <;> cases hn.symm.trans hu
  | sleep | zombie | newThread | start => exact h.setThread nofun
  | join => exact h.setThread fun _ => clean_freethread _
  | frame => exact h.setFrame _ _
  | fields hthreads =>
    intro t
    rw [hthreads]
    exact h t
  | clear | arrive | claim | frames => exact fun t ht => h t ht
  | wakeup => exact h.wakeupThreads _ _
  | execMark => exact h.execMark _
  | exitMark => exact h.exitMark _
  | free => exact h.freeproc
  | makeRunnable => exact h.makeRunnable _
  | sigKill _ ha hfrozen hscan hsame =>
    subst ha
    refine .sigKillHandler fun u => ?_
    rw [hsame]
    exact hG hfrozen ⟨_, hscan⟩ u

theorem FreeClean.step (h : s.FreeClean) (hG : s.KillsFull a) (hs : s.step a = some s') :
    s'.FreeClean := fun q => (step_effect hs).invariant (fun hc => hc.freeClean hG) (h q)

theorem FreeClean.userinit {mem : UserMem} {s0 : Table}
    (hboot : userinit k mem = some s0) : s0.FreeClean := by
  obtain ⟨s, hzero, h⟩ := userinit_effect hboot
  have hG : s.KillsFull (.fork (0, 0) k (some 0)) := trivial
  exact fun q => h.invariant (fun hc => hc.freeClean hG) (hzero q ▸ .zero)

end Table

/-! ### New threads -/

theorem allocthread_killed {p : Proc} {tid tid' : ℤ} {page : Option Trapframe} (h : p.FreeClean)
    (hal : p.allocthread tid page = (some nt, p', tid')) : (p'.threads nt).killed = 0 := by
  unfold Proc.allocthread at hal
  split at hal
  · cases hal
  · next t ht =>
    have hclean := h t (findThread_unused ht)
    cases page with
    | none => cases hal
    | some f =>
      cases hal
      simpa using hclean.2.2.1

theorem allocproc_killed {p : Proc} {pid tid tid' : ℤ} (h : p.FreeClean)
    (hal : p.allocproc pid tid k = (some nt, p', tid')) : (p'.threads nt).killed = 0 := by
  unfold Proc.allocproc at hal
  dsimp only at hal
  split at hal
  · cases hal
  · next frames _ =>
    have hspace : (({ p with pid := pid, state := .used } : Proc).setFrames
        frames).emptySpace.FreeClean := fun t ht => h t ht
    split_ifs at hal
    · split at hal
      · cases hal
      · exact allocthread_killed hspace hal
    · cases hal

/-- **Free thread slots are clean** in every state of every run of whole steps in which
`sigKillHandler` only runs in processes without a free thread slot; a thread that `allocthread`
returns, for `kthread_create` or for `fork`, is then not killed. -/
theorem free_slots_clean {mem : UserMem} {s₀ s : Table} {tr : List Act}
    (hboot : userinit k mem = some s₀)
    (h : Reach Table.step (fun s a => s.Whole a ∧ s.KillsFull a) s₀ tr s) (q : ProcId) :
    (∀ t, ((s.proc q).threads t).state = .unused →
      ((s.proc q).threads t).id = 0 ∧ ((s.proc q).threads t).chan = none ∧
      ((s.proc q).threads t).killed = 0 ∧ ((s.proc q).threads t).xstate = 0 ∧
      ((s.proc q).threads t).userTrapFrameBackup = none) ∧
    (∀ tid page nt p' tid', (s.proc q).allocthread tid page = (some nt, p', tid') →
      (p'.threads nt).killed = 0) ∧
    (∀ pid tid k nt p' tid', (s.proc q).allocproc pid tid k = (some nt, p', tid') →
      (p'.threads nt).killed = 0) := by
  have hclean : s.FreeClean :=
    h.state_invariant (Table.FreeClean.userinit hboot) fun _ _ _ hs hG hstep => hs.step hG.2 hstep
  exact ⟨hclean q, fun _ _ _ _ _ => allocthread_killed (hclean q),
    fun _ _ _ _ _ _ => allocproc_killed (hclean q)⟩

/-- Enough memory, with zeroed pages. -/
def zeroPages : Pages := ⟨some fun _ => default, true, some default, true⟩

/-- The first process creates a thread, which exits and is joined. -/
def createAndJoin : List Act :=
  [.sched (0, 0), .kthreadCreate (0, 0) 0 0 (some default), .sched (0, 1),
    .kthreadExit (0, 1) 7 false, .kthreadJoin (0, 0) 2 true]

theorem free_slots_clean_joined : ∃ s₀ s, userinit zeroPages (fun _ => none) = some s₀ ∧
    run Table.step s₀ createAndJoin = some s ∧
    (s.thread (0, 1)).state = .unused ∧ (s.thread (0, 1)).xstate = 0 := by
  obtain ⟨s₀, hboot, s, hs, hfree⟩ : ∃ s₀ ∈ userinit zeroPages fun _ => none,
      ∃ s ∈ run Table.step s₀ createAndJoin, (s.thread (0, 1)).state = .unused := by decide
  have hreach : Reach Table.step (fun s a => s.Whole a ∧ s.KillsFull a) s₀
      createAndJoin.reverse s :=
    reach_of_run (by simp [createAndJoin, Table.KillsFull, Table.Whole]) hs
  exact ⟨s₀, s, hboot, hs, hfree, ((free_slots_clean hboot hreach 0).1 1 hfree).2.2.2.1⟩

/-- The first process forks a child and kills it. -/
def forkAndKill : List Act :=
  [.sched (0, 0), .fork (0, 0) zeroPages (some 1), .forkParent (0, 0), .forkRunnable (0, 0),
    .kill (0, 0) 2 9 (some 1), .sched (1, 0), .pass (1, 0)]

/-- The free thread slots of the killed child are marked as killed. -/
theorem free_slot_killed : ∃ s₀ s, userinit zeroPages (fun _ => none) = some s₀ ∧
    Reach Table.step Always s₀ forkAndKill.reverse s ∧
    (s.thread (1, 1)).state = .unused ∧ (s.thread (1, 1)).killed = 1 := by
  obtain ⟨s₀, hboot, s, hs, hfree, hkilled⟩ : ∃ s₀ ∈ userinit zeroPages fun _ => none,
      ∃ s ∈ run Table.step s₀ forkAndKill, (s.thread (1, 1)).state = .unused ∧
      (s.thread (1, 1)).killed = 1 := by decide
  exact ⟨s₀, s, hboot, reach_always hs, hfree, hkilled⟩

end Xv6
