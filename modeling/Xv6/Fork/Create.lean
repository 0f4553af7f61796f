import Xv6.Fork.Failure

/-!
# `kthread_create` and its thread slot (`allocthread` of `kernel/proc.c`)

The frames of the threads of a process are one after the other in its trapframe page.  When there
is no page for the backup of the new thread, `allocthread` calls `freeproc`.  This suits
`allocproc`, which is to give up a process that has not run yet; `kthread_create` calls it for the
process that is running.
-/

namespace Xv6.Fork

open Kernel

open Vm (Mem Panic Idx Pte)

/-- What is left of a call that begins with `p->lock` held: its result, how often it has released
the lock, memory and the process. -/
abbrev Ended := Option ThreadId × ℕ × Mem × Slot

/-- `allocthread`: the thread slot. -/
def allocthread (m : Mem) (p : Slot) : Except Panic Ended :=
  match freeThread p with
  | none => .ok (none, 1, m, p)
  | some t =>
    match m.kalloc with
    | (none, m) => (freeproc m (p.setThread t ⟨.used, none⟩)).map fun r => (none, 1, r)
    | (some b, m) => .ok (some t, 0, m, p.setThread t ⟨.used, some b⟩)

/-- Words of a trapframe. -/
def frameWords : ℕ := trapframeSize / 8

/-- Word `k` of the frame of thread `t`, in the trapframe page. -/
def frameIdx (t : ThreadId) (k : ℕ) : Idx := Fin.ofNat 512 (frameWords * t.val + k)

/-- The frame of the new thread `u` is that of `t`, but for `epc` and `sp`. -/
def startFrame (m : Mem) (page : ℕ) (t u : ThreadId) (startFunc stack : Word) : Mem :=
  { m with word := Function.update m.word page fun i =>
      if frameWords * u.val ≤ i.val ∧ i.val < frameWords * u.val + frameWords then
        let k := i.val - frameWords * u.val
        if k = 3 then Pte.ofWord startFunc
        else if k = 6 then Pte.ofWord (stack + BitVec.ofNat 64 MAX_STACK_SIZE - 16)
        else m.word page (frameIdx t k)
      else m.word page i }

/-- `kthread_create`, called by thread `t`: the thread slot, or `none` if it returns 0. -/
def kthreadCreate (m : Mem) (p : Slot) (t : ThreadId) (startFunc stack : Word) :
    Except Panic Ended :=
  (allocthread m p).map fun r =>
    match r with
    | (none, r) => (none, r)
    | (some u, releases, m, p) =>
      (some u, releases + 1, startFrame m (p.trapframe.getD 0) t u startFunc stack,
        p.setThread u { p.threads u with state := .runnable })

/-- A slot that `freeproc` has been through is free. -/
theorem state_of_freeproc {m : Mem} {p : Slot} {r : Mem × Slot} (h : freeproc m p = .ok r) :
    r.2.state = .unused := by
  obtain ⟨a, -, h⟩ := Outcome.bind_eq_ok.1 h
  obtain ⟨b, -, h⟩ := Outcome.bind_eq_ok.1 h
  obtain ⟨c, -, rfl⟩ := Outcome.map_eq_ok.1 h
  rfl

/-- `allocthread` finds no slot, or a slot and a page, or a slot and no page. -/
theorem allocthread_cases (m : Mem) (p : Slot) :
    freeThread p = none ∧ allocthread m p = .ok (none, 1, m, p) ∨
      m.free ≠ [] ∧ (∃ u m' p', allocthread m p = .ok (some u, 0, m', p')) ∨
      (m.free = [] ∧ freeThread p ≠ none) ∧
        ∀ r, allocthread m p = .ok r → r.1 = none ∧ r.2.2.2.state = .unused := by
  unfold allocthread
  cases freeThread p with
  | none => exact .inl ⟨rfl, rfl⟩
  | some u =>
    rcases Vm.kalloc_cases m with ⟨hnil, hk⟩ | ⟨b, m1, hk, ht⟩
    · refine .inr (.inr ⟨⟨hnil, nofun⟩, fun r hr => ?_⟩)
      simp only [hk] at hr
      obtain ⟨r', hr', rfl⟩ := Outcome.map_eq_ok.1 hr
      exact ⟨rfl, state_of_freeproc hr'⟩
    · simp only [hk]
      exact .inr (.inl ⟨by simp [ht.free], u, m1, _, rfl⟩)

/-- **When a failed `kthread_create` changes nothing**, in a process that is in use: if there is a
free page or no free thread slot, and only then, the call does not panic, releases `p->lock` once,
and creates a thread or leaves memory and the process, with all its threads, as before. -/
theorem kthreadCreate_clean_iff (m : Mem) (p : Slot) (t : ThreadId) (startFunc stack : Word)
    (huse : p.state ≠ .unused) :
    (kthreadCreate m p t startFunc stack = .ok (none, 1, m, p) ∨
      ∃ u m' p', kthreadCreate m p t startFunc stack = .ok (some u, 1, m', p')) ↔
    m.free ≠ [] ∨ freeThread p = none := by
  unfold kthreadCreate
  rcases allocthread_cases m p with ⟨hslot, h⟩ | ⟨hpage, u, m', p', h⟩ | ⟨⟨hpage, hslot⟩, h⟩
  · rw [h]
    exact ⟨fun _ => .inr hslot, fun _ => .inl rfl⟩
  · rw [h]
    exact ⟨fun _ => .inl hpage, fun _ => .inr ⟨u, _, _, rfl⟩⟩
  · refine ⟨fun hres => ?_, fun hcond => (hcond.elim (· hpage) hslot).elim⟩
    cases hr : allocthread m p with
    | error e => simp [hr, Except.map] at hres
    | ok r =>
      obtain ⟨o, n, m', q⟩ := r
      obtain ⟨rfl, hq⟩ : o = none ∧ q.state = .unused := h _ hr
      rw [hr] at hres
      rcases hres with hres | ⟨u, m', p', hres⟩
      · cases hres
        exact absurd hq huse
      · cases hres

/-- A process with eight threads, on a memory with one free page. -/
theorem kthreadCreate_clean_full :
    let p : Slot := { Slot.free with state := .runnable, threads := fun _ => ⟨.running, none⟩ }
    kthreadCreate (smallMem 1) p 0 0 0 = .ok (none, 1, smallMem 1, p) := by
  intro p
  rcases (kthreadCreate_clean_iff (smallMem 1) p 0 0 0 nofun).2 (.inl (by decide)) with
    h | ⟨u, m', p', h⟩
  · exact h
  · cases h

/-- The first process runs and has taken the last page.  `kthread_create` returns 0, and the
process has lost its trapframe, its page table and its memory: seven pages are free. -/
theorem kthreadCreate_frees_caller : ∃ k m p,
    (Kernel.userinit (smallMem 8) fun _ => .zero).bind (·.step (.dispatch (0, 0))) = some k ∧
    k.mem.free = [] ∧ (k.slot 0).state = .runnable ∧ (k.slot 0).pagetable.isSome ∧
    kthreadCreate k.mem (k.slot 0) 0 0 0 = .ok (none, 1, m, p) ∧
    p.state = .unused ∧ p.pid = 0 ∧ p.sz = 0 ∧ p.trapframe = none ∧ p.pagetable = none ∧
    m.free.length = 7 := by
  obtain ⟨k, hk, ⟨o, n, m, p⟩, hr, h1, h2, h3, rfl, rfl, hrest⟩ :
      ∃ k ∈ (Kernel.userinit (smallMem 8) fun _ => .zero).bind (·.step (.dispatch (0, 0))),
      ∃ r ∈ (kthreadCreate k.mem (k.slot 0) 0 0 0).toOption,
      k.mem.free = [] ∧ (k.slot 0).state = .runnable ∧ (k.slot 0).pagetable.isSome ∧
      r.1 = none ∧ r.2.1 = 1 ∧ r.2.2.2.state = .unused ∧ r.2.2.2.pid = 0 ∧ r.2.2.2.sz = 0 ∧
      r.2.2.2.trapframe = none ∧ r.2.2.2.pagetable = none ∧
      r.2.2.1.free.length = 7 := by decide +kernel
  refine ⟨k, m, p, hk, h1, h2, h3, ?_, hrest⟩
  cases hcall : kthreadCreate k.mem (k.slot 0) 0 0 0 with
  | error e =>
    rw [hcall] at hr
    cases hr
  | ok r =>
    rw [hcall] at hr
    cases hr
    rfl

end Xv6.Fork
