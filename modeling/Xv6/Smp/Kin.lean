import Xv6.Smp.Effect

/-!
# What one step does to parents, children and those who wait

`Effect` says what a step does to states and positions.  Here is what it does to the fields that
`fork`, `exit` and `wait` use to keep track of families: `pid`, `parent` and `xstate`, and the
channels of the threads that sleep in `wait`.  `Deed` lists what the thread that a CPU executes
can do to them, and `step_kin` says that every careful step is one of these.
-/

namespace Xv6.Smp

open Function List Base Proc

variable {C M : Type}

/-! ### Positions -/

def Ret.kin : Ret → Bool
  | .reparent _ _ => true
  | .exit _ => true
  | _ => false

/-- The position is in `exit` or `wait`, with `wait_lock` held and what has been found out about
other processes still to be used. -/
def Base.kin : Base → Bool
  | .wake _ _ r => r.kin
  | .waking _ _ r => r.kin
  | .exit1 _ => true
  | .waitAt _ => true
  | .waitChecked _ done => !done
  | .waitSleep => true
  | .sleep1 _ .wait => true
  | _ => false

def Pos.kin : Pos → Bool
  | .here b => b.kin
  | .resumed b => b.kin
  | .slept .wait => true
  | _ => false

/-- The thread is in `exit` after `acquire(&wait_lock)`, and has not marked the threads. -/
def Base.parting : Base → Bool
  | .wake _ _ r => r.kin
  | .waking _ _ r => r.kin
  | .exit1 _ => true
  | _ => false

def Pos.parting : Pos → Bool
  | .here b => b.parting
  | _ => false

/-- The child that `fork` has set up and whose parent is not yet set. -/
def Base.fresh : Base → Option ProcId
  | .fork3 np (some _) _ => some np
  | .fork4 np _ => some np
  | _ => none

def Pos.fresh : Pos → Option ProcId
  | .here b => b.fresh
  | .resumed b => b.fresh
  | _ => none

/-- The child whose parent `fork` has set. -/
def Base.grown : Base → Option ProcId
  | .fork5 np _ => some np
  | .fork6 np _ => some np
  | _ => none

def Pos.grown : Pos → Option ProcId
  | .here b => b.grown
  | .resumed b => b.grown
  | _ => none

/-- The thread has called `exit`, and `exit` has let it through: the first process panics there,
also when `kthread_exit` of its last thread calls it. -/
def Pos.leaves (p : Pos) : Prop := p.exits = true ∧ ∀ e, p ≠ .here (.kexit1 e)

/-- In `exit`, the children with a smaller index have been given away. -/
def Ret.done : Ret → ℕ
  | .reparent k _ => k
  | .exit _ => NPROC
  | _ => 0

def Base.done : Base → ℕ
  | .wake _ _ r => r.done
  | .waking _ _ r => r.done
  | .exit1 _ => NPROC
  | _ => 0

/-- At all these positions `wait_lock` is held. -/
theorem Base.wait_mem_locks {b : Base} (q : ProcId) (h : b.kin = true) : .wait ∈ b.locks q := by
  cases b with
  | wake chan q' r | waking chan q' r =>
    cases r <;> simp_all [kin, Ret.kin, locks, Ret.locks]
  | sleep1 chan k => cases k <;> simp_all [kin, locks, Sleeper.locks]
  | exit1 | waitAt | waitChecked | waitSleep => simp [locks]
  | _ => cases h

variable {q : ProcId}

theorem kin_of_unlocked {b : Base} (h : b.locks q = []) : b.kin = false := by
  cases hb : b.kin with
  | false => rfl
  | true =>
    have := wait_mem_locks q hb
    rw [h] at this
    cases this

theorem Base.parting_of_kin {b : Base} (h : b.kin = false) : b.parting = false := by
  cases b <;> first | rfl | exact h

/-! ### Changes -/

/-- What the process is to its family stays the same. -/
structure Still (p p' : Proc) : Prop where
  state : Woken p.state p'.state
  pid : p'.pid = p.pid
  parent : p'.parent = p.parent
  xstate : p'.xstate = p.xstate

/-- Of the threads other than `x`, none starts to sleep, and a sleeper keeps its channel. -/
def Naps (x : Option Tid) (s s' : Machine C M) : Prop :=
  ∀ y, some y ≠ x → s'.state y = .sleeping →
    s.state y = .sleeping ∧ (s'.thread y).chan = (s.thread y).chan

/-- The thread `x` holds `wait_lock`, or it is free. -/
def Machine.Guarded (s : Machine C M) (x : Tid) : Prop :=
  s.lock .wait = none ∨ .wait ∈ (s.pos x).locks x.1

/-- `reparent` is about to look at the slots from `k` on. -/
def Reparenting (p : Pos) (k : ℕ) (e : Exiting) : Prop :=
  p = .here (.body (.closing e)) ∧ k = 0 ∨
    ∃ chan q, nextSlot q = none ∧ p = .here (.waking chan q (.reparent k e))

/-- What the thread `x` can do to the families, on its way from one position to the next. -/
inductive Deed (s s' : Machine C M) (x : Tid) : Pos → Pos → Prop
  | move {p p' : Pos} (hstill : ∀ q, Still (s.proc q) (s'.proc q)) (hparting : p.parting = false)
      (hkin : p'.kin = false)
      (hfresh : ∀ np, p'.fresh = some np → p.fresh = some np)
      (hgrown : ∀ np, p'.grown = some np → p.grown = some np)
      (hleaves : p'.leaves → p.leaves ∨ x.1 ≠ s.initproc) : Deed s s' x p p'
  /-- `wait` finds the next child. -/
  | scan {p : Pos} {np : ProcId} (k : ℕ)
      (hk : k = 0 ∧ p.parting = false ∨
        ∃ np₀ : ProcId, p = .here (.waitChecked np₀ false) ∧ k = np₀.val + 1)
      (hw : s.Guarded x) (hproc : s'.proc = s.proc) (hnext : s.nextChild x.1 k = some np) :
      Deed s s' x p (.here (.waitAt np))
  /-- `wait` has seen all slots. -/
  | scanned {np₀ : ProcId} (hproc : s'.proc = s.proc)
      (hnext : s.nextChild x.1 (np₀.val + 1) = none) :
      Deed s s' x (.here (.waitChecked np₀ false)) (.here .waitSleep)
  | checked {np : ProcId} (hproc : s'.proc = s.proc) (hz : (s.proc np).state ≠ .zombie) :
      Deed s s' x (.here (.waitAt np)) (.here (.waitChecked np false))
  | doze (hproc : s'.proc = s.proc) :
      Deed s s' x (.here .waitSleep) (.here (.sleep1 (.proc x.1) .wait))
  | sleep {chan : Chan} (hstill : ∀ q, Still (s.proc q) (s'.proc q))
      (hchan : (s'.thread x).chan = some chan) :
      Deed s s' x (.here (.sleep1 chan .wait)) (.slept .wait)
  /-- A turn of `wakeup` in `exit` or `reparent`. -/
  | rouse {chan : Option Chan} {q : ProcId} {r : Ret} (hr : r.kin = true)
      (hproc : s'.proc = (s.wakeSlot (some x) q chan).proc) :
      Deed s s' x (.here (.wake chan q r)) (.here (.waking chan q r))
  | next {chan : Option Chan} {q q' : ProcId} {r : Ret} (hr : r.kin = true)
      (hq : nextSlot q = some q') (hproc : s'.proc = s.proc) :
      Deed s s' x (.here (.waking chan q r)) (.here (.wake chan q' r))
  | woken {chan : Option Chan} {q : ProcId} {e : Exiting} (hq : nextSlot q = none)
      (hproc : s'.proc = s.proc) :
      Deed s s' x (.here (.waking chan q (.exit e))) (.here (.exit1 e))
  /-- `reparent` gives the child `r` to the first process. -/
  | disown {p : Pos} {k : ℕ} {e : Exiting} {r : ProcId} (hp : Reparenting p k e)
      (hw : s.Guarded x) (hnext : s.nextChild x.1 k = some r)
      (hproc : s'.proc =
        update s.proc r { s.proc r with parent := some s.initproc }) :
      Deed s s' x p (.here (.wake (some (.proc s.initproc)) 0 (.reparent (r.val + 1) e)))
  /-- `reparent` has seen all slots. -/
  | disowned {p : Pos} {k : ℕ} {e : Exiting} (hp : Reparenting p k e) (hw : s.Guarded x)
      (hnext : s.nextChild x.1 k = none) (hproc : s'.proc = s.proc) :
      Deed s s' x p (.here (.wake ((s.proc x.1).parent.map .proc) 0 (.exit e)))
  /-- `fork` fails on the slot `np`. -/
  | fail {np : ProcId} {child : Proc} (hfree : (s.proc np).state = .unused)
      (hproc : s'.proc = update s.proc np child) (hchild : child.state = .unused)
      (hparent : child.parent = none) :
      Deed s s' x (.here (.fork1 np)) (.here (.fork3 np none false))
  /-- `fork` sets up the child in slot `np`. -/
  | born {np : ProcId} {nt : ThreadId} {child : Proc}
      (hfree : (s.proc np).state = .unused)
      (hproc : s'.proc = update s.proc np child) (hused : child.state = .used)
      (hpid : child.pid = s.nextpid) (hparent : child.parent = (s.proc np).parent)
      (hnextpid : s'.nextpid = s.nextpid + 1) :
      Deed s s' x (.here (.fork1 np)) (.here (.fork3 np (some nt) false))
  /-- `fork` sets the parent of the child. -/
  | adopt {np : ProcId} {nt : ThreadId} (hw : s.Guarded x)
      (hproc : s'.proc = update s.proc np { s.proc np with parent := some x.1 }) :
      Deed s s' x (.here (.fork4 np nt)) (.here (.fork5 np nt))
  | run {np : ProcId} {nt : ThreadId}
      (hproc : s'.proc = update s.proc np ((s.proc np).makeRunnable nt)) :
      Deed s s' x (.here (.fork6 np nt)) (.here (.fork7 np))
  | mark {e : Exiting}
      (hproc : s'.proc = update s.proc x.1 ((s.proc x.1).exitMark e.status)) :
      Deed s s' x (.here (.exit1 e)) (.here .exit2)
  /-- `wait` frees the child `np`. -/
  | reap {np : ProcId} (hz : (s.proc np).state = .zombie)
      (hproc : s'.proc = update s.proc np (s.proc np).freeproc) :
      Deed s s' x (.here (.waitAt np)) (.here (.waitChecked np true))

/-- What a careful step of CPU `c` can do to the families. -/
inductive Kin (c : C) (s s' : Machine C M) : Prop
  | idle (hpos : s'.pos = s.pos) (hpid : s'.nextpid = s.nextpid) (hinit : s'.initproc = s.initproc)
      (hstill : ∀ q, Still (s.proc q) (s'.proc q)) (hnaps : Naps none s s')
  | act (x : Tid) (hx : s.cpu c = .run x)
      (hpos : ∀ y, y ≠ x →
        s'.pos y = s.pos y ∨ s.state y = .unused ∧ s'.pos y = .resumed (.body .user))
      (hpid : s.nextpid ≤ s'.nextpid) (hinit : s'.initproc = s.initproc)
      (hnaps : Naps (some x) s s') (hdeed : Deed s s' x (s.pos x) (s'.pos x))

/-! ### One process -/

variable {p' : Proc}

namespace Still

variable {p : Proc}

theorem refl (p : Proc) : Still p p := ⟨.refl _, rfl, rfl, rfl⟩

theorem of_eq {p : Proc} (h : p' = p) : Still p p' := h ▸ .refl p

theorem sigKillHandler (p : Proc) : Still p p.sigKillHandler :=
  ⟨(Roused.sigKillHandler p).state, rfl, rfl, rfl⟩

/-- One process changes, and stays what it is to its family. -/
theorem update {P : ProcId → Proc} (h : Still (P q) p') (r : ProcId) :
    Still (P r) (update P q p' r) := by
  by_cases hr : r = q
  · subst hr
    rw [update_self]
    exact h
  · rw [update_of_ne hr]
    exact .refl _

theorem live {p : Proc} (h : Still p p') (hp : p.Live) : p'.Live := by
  unfold Proc.Live
  rcases h.state with heq | ⟨-, heq⟩
  · rw [heq]
    exact hp
  · rw [heq]
    exact ⟨nofun, nofun, nofun⟩

/-- A process that is free, being set up or a zombie was so before. -/
theorem state_eq {p : Proc} (h : Still p p') {st : ProcState} (hst : p'.state = st)
    (hne : st ≠ .runnable) : p.state = st :=
  (h.state.eq' (by rw [hst]; exact hne)).symm.trans hst

end Still

variable {s s' : Machine C M}

theorem Naps.refl (x : Option Tid) (h : s'.proc = s.proc) : Naps x s s' := by
  intro y _ hy
  unfold Machine.state Machine.thread at *
  rw [h] at hy ⊢
  exact ⟨hy, rfl⟩

/-- Only threads of process `q` change, and none of them starts to sleep. -/
theorem Naps.update {x : Option Tid} {p : Proc}
    (h : s'.proc = update s.proc q p)
    (hp : ∀ t, some (q, t) ≠ x → (p.threads t).state = .sleeping →
      ((s.proc q).threads t).state = .sleeping ∧
        (p.threads t).chan = ((s.proc q).threads t).chan) : Naps x s s' := by
  rintro ⟨r, t⟩ hne hy
  unfold Machine.state Machine.thread at *
  dsimp only at hy ⊢
  by_cases hr : r = q
  · subst hr
    rw [h, update_self] at hy ⊢
    exact hp t hne hy
  · rw [h, update_of_ne hr] at hy ⊢
    exact ⟨hy, rfl⟩

/-- A thread record changes: another one's, and it does not sleep, or the thread's own. -/
theorem Naps.setThread {x : Option Tid} {y : Tid} {th : Thread}
    (h : s'.proc = Function.update s.proc y.1 ((s.proc y.1).setThread y.2 th))
    (hth : some y = x ∨ th.state ≠ .sleeping) : Naps x s s' := by
  refine .update h fun t hne hsl => ?_
  by_cases ht : t = y.2
  · subst ht
    rw [setThread_threads_self] at hsl
    exact absurd hsl (hth.resolve_left hne)
  · have hkeep : ((s.proc y.1).setThread y.2 th).threads t = (s.proc y.1).threads t :=
      update_of_ne ht _ _
    rw [hkeep] at hsl ⊢
    exact ⟨hsl, rfl⟩

variable {chan : Option Chan} {t : ThreadId}

/-- `wakeup` puts nobody to sleep. -/
theorem wakeupThreads_sleeping {p : Proc} {self : Option ThreadId}
    (h : ((p.wakeupThreads self chan).threads t).state = .sleeping) :
    (p.threads t).state = .sleeping ∧
      ((p.wakeupThreads self chan).threads t).chan = (p.threads t).chan ∧
      (self ≠ some t → (p.threads t).chan ≠ chan) := by
  simp only [wakeupThreads] at h ⊢
  split_ifs at h ⊢ with hc
  exact ⟨h, rfl, fun hself hchan => hc ⟨hself, h, hchan⟩⟩

theorem Naps.wakeSlot {x : Option Tid} {y : Option Tid}
    (h : s'.proc = (s.wakeSlot y q chan).proc) : Naps x s s' :=
  .update h fun _ _ hsl =>
    ⟨(wakeupThreads_sleeping hsl).1, (wakeupThreads_sleeping hsl).2.1⟩

theorem execMark_sleeping {p : Proc} {u t : ThreadId}
    (h : ((p.execMark u).threads t).state = .sleeping) :
    (p.threads t).state = .sleeping ∧ ((p.execMark u).threads t).chan = (p.threads t).chan := by
  simp only [execMark] at h ⊢
  by_cases hc : (p.threads t).state ≠ .unused ∧ t ≠ u
  · rw [if_pos hc] at h ⊢
    dsimp only at h ⊢
    split_ifs at h with hs
    exact absurd h hs
  · rw [if_neg hc] at h ⊢
    exact ⟨h, rfl⟩

theorem sigKillHandler_sleeping {p : Proc}
    (h : (p.sigKillHandler.threads t).state = .sleeping) :
    (p.threads t).state = .sleeping ∧ (p.sigKillHandler.threads t).chan = (p.threads t).chan := by
  simp only [Proc.sigKillHandler] at h ⊢
  split_ifs at h with hs
  exact absurd h hs

theorem exitMark_sleeping {p : Proc} {status : ℤ} :
    ((p.exitMark status).threads t).state ≠ .sleeping := by
  intro h
  rcases Effect.exitMark_gone p status t with hg | hg <;> rw [hg] at h <;> cases h

theorem freeproc_sleeping {p : Proc} : (p.freeproc.threads t).state ≠ .sleeping := by
  intro h
  simp only [freeproc] at h
  split_ifs at h with hc
  · cases h
  · exact hc ⟨by rw [h]; decide, by rw [h]; decide⟩

/-! ### `nextChild` -/

section

variable {s : Machine C M} {q r : ProcId} {k : ℕ}

theorem nextChild_none (h : s.nextChild q k = none) (hk : k ≤ r.val) :
    (s.proc r).parent ≠ some q := by
  have := find?_eq_none.1 h r (mem_finRange r)
  simpa [hk] using this

theorem nextChild_some (h : s.nextChild q k = some r) : k ≤ r.val ∧ (s.proc r).parent = some q := by
  have := find?_some h
  simpa using this

theorem nextChild_skip (h : s.nextChild q k = some r) {r' : ProcId} (hk : k ≤ r'.val)
    (hr : r'.val < r.val) : (s.proc r').parent ≠ some q := by
  intro hpar
  obtain ⟨-, as, bs, hsplit, hnot⟩ := find?_eq_some_iff_append.1 h
  have hsorted : (as ++ r :: bs).Pairwise (· < ·) := hsplit ▸ pairwise_lt_finRange NPROC
  have hmem : r' ∈ as ++ r :: bs := hsplit ▸ mem_finRange r'
  rcases mem_append.1 hmem with hleft | hright
  · simpa [hk, hpar] using hnot r' hleft
  · rcases mem_cons.1 hright with rfl | hright
    · exact lt_irrefl _ hr
    · have hlt := (pairwise_cons.1 (pairwise_append.1 hsorted).2.1).1 r' hright
      exact absurd hr (not_lt.2 (Fin.le_def.1 hlt.le))

end

/-! ### The thread that acts -/

section

variable {s s' t : Machine C M} {c : C} {x : Tid} {b : Base} {p : Pos}

theorem goto_other {y : Tid} (h : y ≠ x) : (t.goto x b).pos y = t.pos y := update_of_ne h _ _

theorem goto_self : (t.goto x b).pos x = .here b := update_self _ _ _

/-- The thread goes on at `b`. -/
theorem kin_goto (hx : s.cpu c = .run x) (hp : s.pos x = p) (hpos : t.pos = s.pos)
    (hpid : s.nextpid ≤ t.nextpid) (hinit : t.initproc = s.initproc)
    (hnaps : Naps (some x) s (t.goto x b)) (hdeed : Deed s (t.goto x b) x p (.here b)) :
    Kin c s (t.goto x b) := by
  refine .act x hx (fun y hy => .inl ?_) hpid hinit hnaps ?_
  · rw [goto_other hy, hpos]
  · rw [hp, goto_self]
    exact hdeed

/-- The thread goes on at `b`, and the thread `z` is new. -/
theorem kin_start {z : Tid} (hx : s.cpu c = .run x) (hp : s.pos x = p) (hz : s.state z = .unused)
    (hpos : t.pos = update s.pos z (.resumed (.body .user)))
    (hpid : s.nextpid ≤ t.nextpid) (hinit : t.initproc = s.initproc)
    (hnaps : Naps (some x) s (t.goto x b)) (hdeed : Deed s (t.goto x b) x p (.here b)) :
    Kin c s (t.goto x b) := by
  refine .act x hx (fun y hy => ?_) hpid hinit hnaps ?_
  · rw [goto_other hy, hpos]
    by_cases hyz : y = z
    · subst hyz
      exact .inr ⟨hz, update_self _ _ _⟩
    · exact .inl (update_of_ne hyz _ _)
  · rw [hp, goto_self]
    exact hdeed

theorem kin_swtch [DecidableEq C] {p' : Pos} (hx : s.cpu c = .run x) (hp : s.pos x = p)
    (hpos : t.pos = s.pos) (hpid : t.nextpid = s.nextpid) (hinit : t.initproc = s.initproc)
    (hnaps : Naps (some x) s (t.swtch c x p')) (hdeed : Deed s (t.swtch c x p') x p p') :
    Kin c s (t.swtch c x p') := by
  refine .act x hx (fun y hy => .inl ?_) hpid.ge hinit hnaps ?_
  · rw [← hpos]
    exact update_of_ne hy _ _
  · have hself : (t.swtch c x p').pos x = p' := update_self _ _ _
    rw [hp, hself]
    exact hdeed

/-- The threads of a slot that is being set up do not sleep. -/
theorem naps_fork {np : ProcId} {child : Proc} (hproc : s'.proc = update s.proc np child)
    (hthreads : ∀ u, (child.threads u).state = .unused ∨ (child.threads u).state = .used) :
    Naps (some x) s s' := by
  refine .update hproc fun u _ hsl => ?_
  rcases hthreads u with hu | hu <;> rw [hu] at hsl <;> cases hsl

end

/-- What `allocproc` leaves in the slot when it fails. -/
theorem allocprocLocked_fails {p : Proc} {pid tid tid' : ℤ} {k : Pages}
    (hfree : ∀ t, (p.threads t).state = .unused) (hpage : k.backup ≠ none)
    (h : p.allocprocLocked pid tid k = (none, p', tid')) : p'.parent = none := by
  unfold allocprocLocked at h
  dsimp only at h
  split at h
  · cases h
    rfl
  · split_ifs at h
    · exact absurd (hfree 0) ((allocthread_none hpage h).2 0)
    · cases h
      rfl

/-- What `allocproc` leaves in the slot when it succeeds. -/
theorem allocprocLocked_kin {p : Proc} {pid tid tid' : ℤ} {k : Pages} {nt : ThreadId}
    (h : p.allocprocLocked pid tid k = (some nt, p', tid')) :
    p'.pid = pid ∧ p'.parent = p.parent := by
  unfold allocprocLocked at h
  dsimp only at h
  split at h
  · cases h
  · split_ifs at h
    · obtain ⟨-, rfl⟩ := allocthread_some h
      exact ⟨rfl, rfl⟩
    · cases h

end Xv6.Smp
