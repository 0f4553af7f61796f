import Xv6.Kthread.Preserve

/-!
# `kthread_join`

In a careful run at most one `kthread_join` of a thread succeeds, after its exit and with its
status; a join that cannot succeed returns -1; and no joiner sleeps on a thread that has woken its
joiners.

`kthread_join` reaps a thread as soon as it is a `ZOMBIE`, that is after the first critical section
of `kthread_exit`.  The slot may then go to a new thread while the old one still runs on, and an
interrupt of the old one makes the new one `RUNNABLE` again after it has exited
(`kthread_join_loses_wakeup`).
-/

namespace Xv6.Kthread

open Transition List Option Function

namespace Sys

variable {s s' : Sys} {c : ℤ} {a : Join}

/-! ### Runs -/

theorem live_of_step {x : Act} (hs : s.step x = some s') : s.live = true := by
  unfold step at hs
  split_ifs at hs with hlive
  exact (Bool.and_eq_true_iff.1 hlive).1

/-- A careful step, before which `nexttid`, an `int`, has room for another id. -/
def Numbered (s : Sys) (a : Act) : Prop := s.Careful a ∧ s.nexttid < 2 ^ 31 - 1

instance (s : Sys) (a : Act) : Decidable (s.Numbered a) := inferInstanceAs (Decidable (_ ∧ _))

theorem inv_of_reach {m : ℕ} {tr : List Act} (h : Reach step Numbered (init m) tr s)
    (hlive : s.live = true) : s.Inv :=
  h.state_invariant (I := fun s => s.live = true → s.Inv) (fun _ => inv_init m)
    (fun _ _ _ hi hG hs hl => (hi (live_of_step hs)).step hG.1 hs hl) hlive

/-- Steps of thread `c`, in which `kalloc` and `copyout` succeed. -/
def goes (c : ℤ) (n : ℕ) : List Act := replicate n (.go c true)

/-- Thread `c` is `SLEEPING` in `kthread_join`. -/
def Asleep (s : Sys) (c : ℤ) (a : Join) : Prop :=
  (s.pc c = .sched (.slept a) ∨ s.pc c = .out (.slept a)) ∧ (s.my c).state = .sleeping

theorem Inv.asleep (h : s.Inv) (hc : s.Asleep c a) :
    a.Other c ∧ ∃ k, (s.my c).chan = some k ∧ s.Watch a k := by
  obtain ⟨hpc, hst⟩ := hc
  have hk := h.knows c
  rcases hpc with hpc | hpc
  all_goals
    rw [hpc] at hk
    exact ⟨hk.1, hk.2 hst⟩

/-- **Threads keep apart.** In every state of such a run: there is no panic; a slot in use holds
a thread with an id that `alloctid` has given and that no other slot has; if the thread is switched
out, its own context is in the slot; and no two threads hold one lock. -/
theorem threads_apart {m : ℕ} {tr : List Act} (h : Reach step Numbered (init m) tr s)
    (hlive : s.live = true) : s.panic = false ∧
    (∀ k, (s.slot k).state ≠ .unused → 0 < (s.slot k).id ∧ (s.slot k).id < s.nexttid ∧
      (∀ j, (s.slot j).id = (s.slot k).id → j = k) ∧
      ∀ w, s.pc (s.slot k).id = .out w → (s.slot k).context = (s.slot k).id) ∧
    ∀ c d l, l ∈ (s.pc c).locks → l ∈ (s.pc d).locks → c = d := by
  have hinv := inv_of_reach h hlive
  refine ⟨hinv.noPanic, fun k hk => ?_, fun c d l => hinv.locks.exclusive⟩
  obtain ⟨hpc, hhome, howns, -⟩ := hinv.holder hk
  obtain ⟨hpos, hlt⟩ := hinv.born _ hpc
  refine ⟨hpos, hlt, fun j hj => ?_, fun w hw => ?_⟩
  · rcases hinv.slots j with ⟨-, hzero⟩ | ⟨-, -, hhome'⟩
    · omega
    · rw [← hhome', hj, hhome]
  · have hcontext := hinv.context _ w hw howns
    rwa [my, hhome] at hcontext

/-! ### Runs of three threads -/

/-- Thread `c` creates a thread. -/
def creates (c : ℤ) : List Act := .call c .create :: goes c 3

/-- The thread in slot `k`, with id `c`, is scheduled for the first time. -/
def starts (k : ThreadId) (c : ℤ) : List Act := .run k :: goes c 1

/-- The first thread creates two threads; the first of them starts. -/
def threeThreads : List Act := starts 0 1 ++ creates 1 ++ creates 1 ++ starts 1 2

/-- The third thread sleeps in `kthread_join` of the second one, which exits; the first thread joins
it. -/
def joinedRun : List Act :=
  threeThreads ++ starts 2 3 ++ (.call 3 (.join ⟨2, true⟩) :: goes 3 17) ++
    (.call 2 (.exit 5) :: goes 2 8) ++ (.call 1 (.join ⟨2, true⟩) :: goes 1 7)

theorem threads_apart_three : ∃ s, runWhen step Numbered (init 0) joinedRun = some s ∧
    (s.slot 2).state = .runnable ∧ ∀ j, (s.slot j).id = (s.slot 2).id → j = 2 := by
  obtain ⟨s, hs, hlive, hst⟩ : ∃ s ∈ runWhen step Numbered (init 0) joinedRun, s.live = true ∧
      (s.slot 2).state = .runnable := by decide
  exact ⟨s, hs, hst, ((threads_apart (reach_of_runWhen hs) hlive).2.1 2 (by simp [hst])).2.2.1⟩

end Sys

end Xv6.Kthread
