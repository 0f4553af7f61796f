import Xv6.Proc.Table

/-!
# The state of a process and the states of its threads

`p->state` is set by `allocproc`, `fork`, `exit` and `freeproc` only; while a process is neither
free, nor being set up, nor a zombie, its threads may be in any state.
-/

namespace Xv6

/-- Which thread states a process state allows. -/
def ProcState.Allows : ProcState → ProcState → Prop
  | .unused, ts => ts = .unused
  | .used, ts => ts = .unused ∨ ts = .used
  | .zombie, ts => ts = .unused ∨ ts = .zombie
  | _, _ => True

namespace Proc

/-- The threads are in states that the state of the process allows. -/
def Coherent (p : Proc) : Prop := ∀ t, p.state.Allows (p.threads t).state

/-- Neither free, nor being set up, nor a zombie. -/
def Live (p : Proc) : Prop := p.state ≠ .unused ∧ p.state ≠ .used ∧ p.state ≠ .zombie

variable {p : Proc}

theorem Live.allows (h : p.Live) (ts : ProcState) : p.state.Allows ts := by
  unfold ProcState.Allows
  split
  · next hs => exact absurd hs h.1
  · next hs => exact absurd hs h.2.1
  · next hs => exact absurd hs h.2.2
  · trivial

theorem Coherent.live (h : p.Coherent) {t : ThreadId}
    (ht : (p.threads t).state = .running ∨ (p.threads t).state = .runnable ∨
      (p.threads t).state = .sleeping) : p.Live := by
  have hallows := h t
  refine ⟨fun hs => ?_, fun hs => ?_, fun hs => ?_⟩ <;>
    rw [hs] at hallows <;> rcases ht with ht | ht | ht <;> simp [ProcState.Allows, ht] at hallows

theorem freeproc_coherent (h : ∀ t, (p.threads t).state ≠ .running) :
    p.freeproc.Coherent := by
  intro t
  show (p.freeproc.threads t).state = .unused
  simp only [Proc.freeproc]
  split_ifs with hc
  · rfl
  · by_contra hne
    exact hc ⟨hne, h t⟩

theorem not_running_of_used (h : p.Coherent) (hp : p.state = .used) (t : ThreadId) :
    (p.threads t).state ≠ .running := fun ht => (h.live (.inl ht)).2.1 hp

theorem setFrame_coherent (h : p.Coherent) (t : ThreadId) (f : Trapframe) :
    (p.setFrame t f).Coherent := by
  intro u
  by_cases hu : u = t
  · subst hu
    simpa [Proc.setFrame, Proc.setThread] using h u
  · simpa [Proc.setFrame, Proc.setThread, hu] using h u

theorem forkInto_coherent {p np : Proc} (h : np.Coherent) (f : Trapframe) (nt : ThreadId) :
    (p.forkInto f np nt).Coherent := fun t => setFrame_coherent h nt { f with a0 := 0 } t

theorem exitMark_coherent (status : ℤ) : (p.exitMark status).Coherent := by
  intro t
  show _ ∨ _
  simp only [Proc.exitMark]
  split_ifs with hc
  · exact .inr rfl
  · by_contra hne
    exact hc (not_or.1 hne)

end Proc

end Xv6
