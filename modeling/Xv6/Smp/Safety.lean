import Xv6.Smp.Preserve

/-!
# Freeing threads and processes

In careful runs a thread slot is freed only after its thread has been switched out, and a process
is freed only when no CPU executes one of its threads; a zombie process never runs again.
-/

namespace Xv6.Smp

open Transition Machine

variable {C M K : Type} [DecidableEq C] {mon : Monitor M K} {s s' : Machine C M} {c : C} {x : Tid}

/-- The thread slots that become free are those that `kthread_join` and `wait` free. -/
theorem Effect.freed_thread (h : s.Inv) (he : Effect mon c s s') (hused : s.state x ≠ .unused)
    (hfree : s'.state x = .unused) : ∀ c', s.cpu c' ≠ .run x := by
  cases he.shift h x with
  | same hst => exact absurd (hst.symm.trans hfree) hused
  | leave _ _ _ _ hst' => rcases hst' with hst' | hst' <;> cases hst'.symm.trans hfree
  | woken _ hst' | dispatch _ hst' | kexit _ _ _ _ hst' | exit _ _ _ _ _ _ hst'
  | create _ _ _ _ _ hst' | fork _ _ hst' | forkRun _ _ _ _ _ hst' => cases hst'.symm.trans hfree
  | reap _ _ hidle => exact hidle

/-- The process gives up its slot, its page table or its trapframe page. -/
def Freed (p p' : Proc) : Prop :=
  p.state ≠ .unused ∧
    (p'.state = .unused ∨ p.pagetable ≠ none ∧ p'.pagetable = none ∨
      p.trapframe = true ∧ p'.trapframe = false)

theorem KeepsPages.not_freed {p p' : Proc} (h : KeepsPages p p')
    (hst : p'.state = .unused → p.state = .unused) : ¬ Freed p p' := by
  rintro ⟨hused, hfree | ⟨hsome, hnone⟩ | ⟨htrue, hfalse⟩⟩
  · exact hused (hst hfree)
  · exact hsome (h.1.symm.trans hnone)
  · exact Bool.false_ne_true (hfalse.symm.trans (h.2.trans htrue))

/-- The process that is freed is one that `wait` frees. -/
theorem Effect.freed_proc (h : s.Inv) (he : Effect mon c s s') {q : ProcId}
    (hf : Freed (s.proc q) (s'.proc q)) (c' : C) (t : ThreadId) : s.cpu c' ≠ .run (q, t) := by
  cases he.procShift h q with
  | kept hst hpages =>
    refine absurd hf ((hpages hf.1).not_freed fun hu => ?_)
    exact (hst.eq' (by rw [hu]; decide)).symm.trans hu
  | exit _ _ _ _ _ _ _ _ hst' hpages | forkRun _ _ _ _ _ _ hst' hpages =>
    exact absurd hf (hpages.not_freed fun hu => by cases hst'.symm.trans hu)
  | wait _ _ hidle => exact hidle c' t
  | fork hst => exact absurd hst hf.1

/-- The process has exited and been switched out: it is a zombie, its threads are free or zombies,
and no CPU executes one of them. -/
def Machine.Dead (s : Machine C M) (q : ProcId) : Prop :=
  (s.proc q).state = .zombie ∧ ∀ t, Gone (s.state (q, t)) ∧ ∀ c, s.cpu c ≠ .run (q, t)

/-- A dead process stays dead until its slot is freed. -/
theorem Effect.dead_keep (h : s.Inv) (he : Effect mon c s s') {q : ProcId} (hd : s.Dead q) :
    s'.Dead q ∨ (s'.proc q).state = .unused := by
  have hst : (s'.proc q).state = .zombie ∨ (s'.proc q).state = .unused := by
    cases he.procShift h q with
    | kept hst => exact .inl ((hst.eq (by rw [hd.1]; decide)).trans hd.1)
    | exit _ _ _ _ _ _ _ _ hst' => exact .inl hst'
    | wait _ hst' => exact .inr hst'
    | fork hst | forkRun _ _ _ _ _ hst => cases hd.1.symm.trans hst
  refine hst.imp_left fun hz => ⟨hz, fun t => ⟨(he.inv h).zombie_threads hz t, fun c' hc' => ?_⟩⟩
  -- a thread that starts to execute was runnable
  by_cases hcc : c' = c
  · subst hcc
    rcases he.cpu_self hc' with hold | hrun
    · exact (hd.2 t).2 c' hold
    · have hg := (hd.2 t).1
      rw [hrun] at hg
      rcases hg with hg | hg <;> cases hg
  · exact (hd.2 t).2 c' ((he.cpu_other hcc).symm.trans hc')

/-! ### Runs -/

section

variable {k : Pages} {mem : UserMem} {t₀ : Table} {m : M} {tr : List (C × Choice K)}
  {a : C × Choice K}

/-- **Thread slots are freed after the switch.** In a careful run, whenever a step makes a thread
slot free, the thread that occupied it has been switched out and no CPU executes on its kernel
stack. -/
theorem freed_thread_switched_out (h₀ : userinit k mem = some t₀)
    (h : Reach (step mon) Machine.Careful (boot t₀ m) tr s)
    (hG : s.Careful a) (hs : s.step mon a = some s') (x : Tid) (hused : s.state x ≠ .unused)
    (hfree : s'.state x = .unused) : (∀ c, s.cpu c ≠ .run x) ∧ ∀ b, s.pos x ≠ .here b := by
  have hinv := inv_of_reach h₀ h
  have hidle := (step_effect hinv hG hs).freed_thread hinv hused hfree
  refine ⟨hidle, fun b hb => ?_⟩
  have hpark := hinv.parked x hidle
  rw [hb] at hpark
  exact hpark

/-- **An exited process is dead.** In every state of a careful run, the threads of a zombie process
are free or zombies, and one that still executes is about to leave `exit`.  Once none executes,
this stays so until the slot is freed; and a process is freed only when no CPU executes a thread of
it. -/
theorem exited_process_dead (h₀ : userinit k mem = some t₀)
    (h : Reach (step mon) Machine.Careful (boot t₀ m) tr s) (q : ProcId) :
    ((s.proc q).state = .zombie → (∀ t, Gone (s.state (q, t))) ∧
      ∀ c t, s.cpu c = .run (q, t) → s.pos (q, t) = .here .exit2) ∧
    ∀ a s', s.Careful a → s.step mon a = some s' →
      (s.Dead q → s'.Dead q ∨ (s'.proc q).state = .unused) ∧
      (Freed (s.proc q) (s'.proc q) → ∀ c t, s.cpu c ≠ .run (q, t)) := by
  have hinv := inv_of_reach h₀ h
  refine ⟨fun hz => ⟨hinv.zombie_threads hz, fun c t hc => hinv.zombie c (q, t) hc hz⟩, ?_⟩
  intro a s' hG hs
  have he := step_effect hinv hG hs
  exact ⟨he.dead_keep hinv, he.freed_proc hinv⟩

/-- **CPUs keep apart.** In every state of a careful run, no two CPUs execute on one kernel stack;
a thread that a CPU executes is `RUNNING`, or a zombie at a position of `kthread_exit` or `exit`
that allows it; one that none executes is not in the middle of the code; and a lock is held by the
CPU that is at a position with that lock, so by one at most. -/
theorem cpus_apart (h₀ : userinit k mem = some t₀)
    (h : Reach (step mon) Machine.Careful (boot t₀ m) tr s) :
    (∀ c d x, s.cpu c = .run x → s.cpu d = .run x → c = d) ∧
    (∀ c x, s.cpu c = .run x → s.state x = .running ∨
      s.state x = .zombie ∧ ∃ b, s.pos x = .here b ∧ b.Allows .zombie) ∧
    (∀ x, (∀ c, s.cpu c ≠ .run x) → ∀ b, s.pos x ≠ .here b) ∧
    (∀ c l, s.lock l = some c ↔ l ∈ s.held c) ∧
    ∀ c d l, l ∈ s.held c → l ∈ s.held d → c = d := by
  have hinv := inv_of_reach h₀ h
  refine ⟨hinv.uniq, fun c x hx => ?_, fun x hx b hb => ?_, hinv.locks,
    fun c d l => hinv.locks.exclusive⟩
  · have hruns := hinv.runs c x hx
    refine hruns.cases.imp_right fun hz => ⟨hz, ?_⟩
    rw [hz] at hruns
    cases hp : s.pos x with
    | here b =>
      rw [hp] at hruns
      exact ⟨b, rfl, hruns⟩
    | resumed b =>
      rw [hp] at hruns
      cases hruns.2
    | slept k | dead =>
      rw [hp] at hruns
      cases hruns
  · have hpark := hinv.parked x hx
    rw [hb] at hpark
    exact hpark

end

/-! ### Runs on two and three CPUs -/

instance [Fintype C] (s : Machine C M) (a : C × Choice K) : Decidable (s.Careful a) := by
  unfold Machine.Careful
  split
  · split <;> infer_instance
  · infer_instance

/-- The rest of the kernel does nothing. -/
def idleKernel : Monitor Unit Empty where
  step _ _ _ := none
  busy _ _ := false
  fresh m _ := m

section

variable {C K : Type}

/-- The next `n` steps of a CPU. -/
def goes (c : C) (n : ℕ) : List (C × Choice K) := List.replicate n (c, .go)

/-- `fork` passes over `n` slots that are in use and comes to the next one, with this memory. -/
def forks (c : C) (n : ℕ) (k : Pages) : List (C × Choice K) :=
  (c, .fork) :: (List.replicate n [(c, .pages zeroPages), (c, .go)]).flatten ++ [(c, .pages k)]

/-- The first process forks a child. -/
def forkChild (c : C) : List (C × Choice K) := goes c 3 ++ forks c 1 zeroPages ++ goes c 5

/-- The child runs on CPU `c` and starts a second thread, which runs on CPU `d`. -/
def startThreads (c d : C) : List (C × Choice K) :=
  goes c 5 ++ [(c, .kthreadCreate 0 0 (some default)), (c, .go)] ++ goes d 5

end

/-- The first process creates a thread, which the second CPU runs to the point where it has
released `p->lock` in `kthread_exit`; the first thread joins it. -/
def joinEarly : List (Fin 2 × Choice Empty) :=
  goes 0 3 ++ [(0, .kthreadCreate 0 0 (some default)), (0, .go)] ++ goes 1 3 ++
    [(1, .kthreadExit 7), (1, .go), (0, .kthreadJoin 2)]

theorem cpus_apart_two : ∃ t₀ s, userinit zeroPages (fun _ => none) = some t₀ ∧
    runWhen (step idleKernel) Machine.Careful (boot t₀ ()) joinEarly = some s ∧
    s.cpu 1 = .run (0, 1) ∧ ∀ c, s.cpu c = .run (0, 1) → c = 1 := by
  obtain ⟨t₀, h₀, s, hs, hcpu⟩ : ∃ t₀ ∈ userinit zeroPages fun _ => none,
      ∃ s ∈ runWhen (step idleKernel) Machine.Careful (boot t₀ ()) joinEarly,
      s.cpu 1 = .run (0, 1) := by decide
  exact ⟨t₀, s, h₀, hs, hcpu, fun c hc => (cpus_apart h₀ (reach_of_runWhen hs)).1 c 1 _ hc hcpu⟩

/-- The same, but the thread has been switched out before it is joined. -/
def joinLate : List (Fin 2 × Choice Empty) :=
  goes 0 3 ++ [(0, .kthreadCreate 0 0 (some default)), (0, .go)] ++ goes 1 3 ++
    [(1, .kthreadExit 7)] ++ goes 1 (2 * NPROC + 5) ++ [(0, .kthreadJoin 2)]

theorem freed_thread_switched_out_join : ∃ t₀ s s', userinit zeroPages (fun _ => none) = some t₀ ∧
    runWhen (step idleKernel) Machine.Careful (boot t₀ ()) joinLate = some s ∧
    s.step idleKernel (0, .flag true) = some s' ∧ s.state (0, 1) = .zombie ∧
    s'.state (0, 1) = .unused ∧ ∀ c, s.cpu c ≠ .run (0, 1) := by
  obtain ⟨t₀, h₀, s, hs, s', hs', hG, hz, hfree⟩ : ∃ t₀ ∈ userinit zeroPages fun _ => none,
      ∃ s ∈ runWhen (step idleKernel) Machine.Careful (boot t₀ ()) joinLate,
      ∃ s' ∈ s.step idleKernel (0, .flag true), s.Careful (0, (.flag true : Choice Empty)) ∧
      s.state (0, 1) = .zombie ∧ s'.state (0, 1) = .unused := by decide +kernel
  refine ⟨t₀, s, s', h₀, hs, hs', hz, hfree, ?_⟩
  exact (freed_thread_switched_out h₀ (reach_of_runWhen hs) hG hs' (0, 1)
    (by rw [hz]; decide) hfree).1

/-- `kthread_join` frees a thread that the other CPU is still executing in `kthread_exit`. -/
theorem join_frees_executing : ∃ t₀ s s', userinit zeroPages (fun _ => none) = some t₀ ∧
    Reach (step idleKernel) Always (boot t₀ ()) joinEarly.reverse s ∧
    s.step idleKernel (0, .flag true) = some s' ∧ s.state (0, 1) = .zombie ∧
    s'.state (0, 1) = .unused ∧ s'.cpu 1 = .run (0, 1) ∧ s'.pos (0, 1) = .here .kexit2 := by
  obtain ⟨t₀, h₀, s, hs, s', hs', hstates⟩ : ∃ t₀ ∈ userinit zeroPages fun _ => none,
      ∃ s ∈ run (step idleKernel) (boot t₀ ()) joinEarly,
      ∃ s' ∈ s.step idleKernel (0, .flag true), s.state (0, 1) = .zombie ∧
      s'.state (0, 1) = .unused ∧ s'.cpu 1 = .run (0, 1) ∧
      s'.pos (0, 1) = .here .kexit2 := by decide
  exact ⟨t₀, s, s', h₀, reach_always hs, hs', hstates⟩

/-- The first process forks a child, which the second CPU runs until it exits; the parent comes to
`wait`. -/
def exitAlone : List (Fin 2 × Choice Empty) :=
  forkChild 0 ++ goes 1 5 ++ [(1, .exit 3)] ++ goes 1 (2 * NPROC + 4) ++ [(0, .wait)]

theorem exited_process_dead_reaped : ∃ t₀ s s', userinit zeroPages (fun _ => none) = some t₀ ∧
    runWhen (step idleKernel) Machine.Careful (boot t₀ ()) exitAlone = some s ∧
    s.step idleKernel (0, .flag true) = some s' ∧ (s.proc 1).state = .zombie ∧
    (∀ t, Gone (s.state (1, t))) ∧ (s'.proc 1).state = .unused ∧ ∀ c t, s.cpu c ≠ .run (1, t) := by
  obtain ⟨t₀, h₀, s, hs, s', hs', hG, hz, hfree⟩ : ∃ t₀ ∈ userinit zeroPages fun _ => none,
      ∃ s ∈ runWhen (step idleKernel) Machine.Careful (boot t₀ ()) exitAlone,
      ∃ s' ∈ s.step idleKernel (0, .flag true), s.Careful (0, (.flag true : Choice Empty)) ∧
      (s.proc 1).state = .zombie ∧ (s'.proc 1).state = .unused := by decide +kernel
  obtain ⟨hzombie, hstep⟩ := exited_process_dead h₀ (reach_of_runWhen hs) 1
  refine ⟨t₀, s, s', h₀, hs, hs', hz, (hzombie hz).1, hfree, ?_⟩
  exact (hstep (0, .flag true) s' hG hs').2 ⟨by rw [hz]; decide, .inl hfree⟩

/-- The child has a second thread, which the third CPU runs while the first one exits. -/
def exitBeside : List (Fin 3 × Choice Empty) :=
  forkChild 0 ++ startThreads 1 2 ++ [(1, .exit 3)] ++ goes 1 (2 * NPROC + 4) ++ [(0, .wait)]

/-- The process is a zombie and its first thread has been switched out, but the second thread still
executes.  If it yields, it is runnable again; if the parent's `wait` goes on first, it frees the
process under it. -/
theorem exited_process_runs : ∃ t₀ s, userinit zeroPages (fun _ => none) = some t₀ ∧
    Reach (step idleKernel) Always (boot t₀ ()) exitBeside.reverse s ∧
    (s.proc 1).state = .zombie ∧ s.pos (1, 0) = .dead ∧ s.cpu 2 = .run (1, 1) ∧
    (∃ s', s.step idleKernel (2, .yield) = some s' ∧ (s'.proc 1).state = .zombie ∧
      s'.state (1, 1) = .runnable) ∧
    ∃ s', s.step idleKernel (0, .flag true) = some s' ∧ (s'.proc 1).state = .unused ∧
      (s'.proc 1).pagetable.isNone ∧ s'.cpu 2 = .run (1, 1) := by
  obtain ⟨t₀, h₀, s, hs, s₁, hs₁, s₂, hs₂, ⟨hz, hdead, hcpu⟩, hyield, hwait⟩ :
      ∃ t₀ ∈ userinit zeroPages fun _ => none,
      ∃ s ∈ run (step idleKernel) (boot t₀ ()) exitBeside,
      ∃ s₁ ∈ s.step idleKernel (2, .yield), ∃ s₂ ∈ s.step idleKernel (0, .flag true),
      ((s.proc 1).state = .zombie ∧ s.pos (1, 0) = .dead ∧ s.cpu 2 = .run (1, 1)) ∧
      ((s₁.proc 1).state = .zombie ∧ s₁.state (1, 1) = .runnable) ∧ (s₂.proc 1).state = .unused ∧
      (s₂.proc 1).pagetable.isNone = true ∧ s₂.cpu 2 = .run (1, 1) := by decide +kernel
  exact ⟨t₀, s, h₀, reach_always hs, hz, hdead, hcpu,
    ⟨s₁, hs₁, hyield⟩, s₂, hs₂, hwait⟩

end Xv6.Smp
