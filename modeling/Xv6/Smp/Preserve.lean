import Xv6.Smp.Steps

/-!
# The invariant is kept

One lemma for each clause of `Inv`, by the effect of the step.
-/

namespace Xv6.Smp

open Function CpuPos Proc

variable {C M K : Type} {mon : Monitor M K} {s s' : Machine C M} {c c' : C} {x y : Tid}

/-! ### Consequences of the invariant -/

variable {b : Base}

/-- A zombie that executes is on the way of the last thread through `exit`, or it is at a
position for zombies only, where it holds one of the locks or is between two critical sections of
`kthread_exit`. -/
theorem Base.Allows.zombie (q : ProcId) (h : b.Allows .zombie) :
    b.last = true ∨ ¬ b.Allows .running ∧
      (.proc q ∈ b.locks q ∨ .wait ∈ b.locks q ∨ b = .kexit2 ∨ b = .kexit4) := by
  have hexiting : ∀ {e : Exiting}, e.Allows .zombie → e.last = true := fun h =>
    (h.resolve_left nofun).2
  have hbody : ∀ {w : Body}, w.Allows .zombie → w.last = true := fun {w} h => by
    cases w with
    | user => cases h
    | closing e => exact hexiting h
  cases b with
  | body w => exact .inl (hbody h)
  | sleep1 chan k | reacquire k =>
    cases k with
    | other w => exact .inl (hbody h)
    | _ => cases h
  | wake chan q' r | waking chan q' r =>
    cases r with
    | other w => exact .inl (hbody h)
    | kexit => simp [Base.locks, Ret.locks, Base.Allows, Ret.Allows]
    | reparent k e | exit e => exact .inl (hexiting h)
  | exit1 e => exact .inl (hexiting h)
  | kexit1 | kexit2 | kexit3 | kexit4 | exit2 => simp [Base.locks, Base.Allows]
  | fork3 np nt again => cases h.2
  | forkFree np => exact h.elim
  | _ => cases h

variable {t nt : ThreadId} {np q : ProcId}

namespace Machine.Inv

section

variable (h : s.Inv)

include h

/-- A thread that executes is running or has been marked as a zombie. -/
theorem exec_state (hx : s.cpu c = .run x) :
    s.state x = .running ∨ s.state x = .zombie := (h.runs c x hx).cases

theorem not_exec (hr : s.state x ≠ .running) (hz : s.state x ≠ .zombie) (c : C) :
    s.cpu c ≠ .run x := fun hx => (h.exec_state hx).elim hr hz

/-- A process with a thread that executes, and is not leaving `exit`, is alive. -/
theorem live (hx : s.cpu c = .run x) (hp : s.pos x ≠ .here .exit2) :
    (s.proc x.1).Live := by
  have hst : ((s.proc x.1).threads x.2).state = .running ∨
      ((s.proc x.1).threads x.2).state = .zombie := h.exec_state hx
  have hco := h.coherent x.1 x.2
  refine ⟨fun hu => ?_, fun hu => ?_, fun hz => hp (h.zombie c x hx hz)⟩ <;>
    rw [hu] at hco <;> rcases hst with hst | hst <;> simp [ProcState.Allows, hst] at hco

theorem live_here (hx : s.cpu c = .run x) (hp : s.pos x = .here b)
    (hb : b ≠ .exit2) : (s.proc x.1).Live :=
  h.live hx (by rw [hp]; exact fun he => hb (by cases he; rfl))

theorem notMem_held {l : Lk} (hl : s.lock l = none) (c : C) : l ∉ s.held c := by
  intro hc
  have := (h.locks c l).2 hc
  rw [hl] at this
  cases this

/-- The thread that `kthread_join` frees is not executing. -/
theorem join_target {id : ℤ} (hx : s.cpu c = .run x)
    (hp : s.pos x = .here (.joinAt id t)) (hz : s.state (x.1, t) = .zombie)
    (hfree : s.lock (.proc x.1) = none)
    (hout : s.pos (x.1, t) ≠ .here .kexit2 ∧ s.pos (x.1, t) ≠ .here .kexit4) (c' : C) :
    s.cpu c' ≠ .run (x.1, t) := by
  intro hc'
  have hrun : s.state x = .running := h.state_here hx hp
  have hne : t ≠ x.2 := by
    rintro rfl
    rw [hrun] at hz
    cases hz
  have hheld : s.held c' = (s.pos (x.1, t)).locks x.1 := held_run hc'
  have hruns := h.runs c' (x.1, t) hc'
  rw [hz] at hruns
  cases hpos : s.pos (x.1, t) with
  | resumed b => rw [hpos] at hruns; cases hruns.2
  | slept k => rw [hpos] at hruns; cases hruns
  | dead => rw [hpos] at hruns; exact hruns.elim
  | here b =>
    rw [hpos] at hruns hheld hout
    rcases Base.Allows.zombie x.1 hruns with hlast | ⟨-, hproc | hwait | rfl | rfl⟩
    · -- the last thread of a process has nobody to join it
      have hgone := ((h.last (x.1, t) (by rw [hpos]; exact hlast)).2 x.2 hne.symm).1
      have hgone' : Gone (s.state x) := hgone
      rw [hrun] at hgone'
      rcases hgone' with hg | hg <;> cases hg
    · exact h.notMem_held hfree c' (by rw [hheld]; exact hproc)
    · have hself : .wait ∈ s.held c := by
        rw [held_run hx, hp]
        simp [Pos.locks, Base.locks]
      have hcc : c = c' := h.locks.exclusive hself (by rw [hheld]; exact hwait)
      subst hcc
      have hxt : x = (x.1, t) := run.inj (hx.symm.trans hc')
      exact hne (congrArg Prod.snd hxt).symm
    · exact hout.1 rfl
    · exact hout.2 rfl

/-- No thread of the process that `wait` frees is executing. -/
theorem wait_target (hz : (s.proc np).state = .zombie)
    (hfree : s.lock (.proc np) = none) (c' : C) (t : ThreadId) : s.cpu c' ≠ .run (np, t) := by
  intro hc'
  have hpos := h.zombie c' (np, t) hc' hz
  refine h.notMem_held hfree c' ?_
  rw [held_run hc', hpos]
  simp [Pos.locks, Base.locks]

/-- A running thread is in none of the processes that are free, being set up, or zombies. -/
theorem proc_ne (hx : s.state x = .running) (hq : ¬ (s.proc q).Live) : x.1 ≠ q := by
  rintro rfl
  exact hq ((h.coherent x.1).live (.inl hx))

end

theorem not_gone (hx : s.state x = .running) : ¬ Gone (s.state x) := by
  rw [hx]
  rintro (hg | hg) <;> cases hg

/-- The child of a parent in `fork` is being set up. -/
theorem child (h : s.Inv) (hx : s.cpu c = .run x) (hp : s.pos x = .here (.fork6 np nt)) :
    (s.proc np).state = .used ∧ s.state (np, nt) = .used := by
  have hrun : s.state x = .running := h.state_here hx hp
  obtain ⟨hused, hst, -⟩ := h.forking x np nt (by rw [hp]; rfl) (not_gone hrun)
  exact ⟨hused, hst⟩

theorem zombie_threads (h : s.Inv) (hq : (s.proc q).state = .zombie) (t : ThreadId) :
    Gone (s.state (q, t)) := by
  have hco := h.coherent q t
  rwa [hq] at hco

end Machine.Inv

/-! ### CPUs, positions and locks -/

variable [DecidableEq C]

namespace Effect

theorem cpu_other (he : Effect mon c s s') (hc : c' ≠ c) : s'.cpu c' = s.cpu c' := by
  cases he with
  | idle _ _ hcpu => exact hcpu c' hc
  | monitor _ _ _ _ _ _ _ hs => rw [hs]
  | leave _ _ _ _ _ _ _ hcpu | die _ _ _ _ _ hcpu | dispatch _ _ _ _ hcpu =>
    rw [hcpu, update_of_ne hc]
  | stay _ _ _ hcpu | kexit _ _ _ _ _ hcpu | exit _ _ _ _ hcpu | create _ _ _ _ _ _ hcpu
  | join _ _ _ _ _ _ hcpu | wait _ _ _ _ _ hcpu | fork _ _ _ _ _ _ _ hcpu
  | forkRun _ _ _ _ _ hcpu => rw [hcpu]

/-- The CPU executes what it executed before, or a thread that was runnable. -/
theorem cpu_self (he : Effect mon c s s') (hx : s'.cpu c = .run x) :
    s.cpu c = .run x ∨ s.state x = .runnable := by
  cases he with
  | idle _ hc' => exact absurd hx (hc' x)
  | monitor _ _ _ _ _ _ _ hs => rw [hs] at hx; exact .inl hx
  | leave _ _ _ _ _ _ _ hcpu | die _ _ _ _ _ hcpu => rw [hcpu, update_self] at hx; cases hx
  | dispatch y _ _ hst hcpu =>
    rw [hcpu, update_self] at hx
    rw [← run.inj hx]
    exact .inr hst
  | stay _ _ _ hcpu | kexit _ _ _ _ _ hcpu | exit _ _ _ _ hcpu | create _ _ _ _ _ _ hcpu
  | join _ _ _ _ _ _ hcpu | wait _ _ _ _ _ hcpu | fork _ _ _ _ _ _ _ hcpu
  | forkRun _ _ _ _ _ hcpu => rw [hcpu] at hx; exact .inl hx

section

variable (h : s.Inv) (he : Effect mon c s s')

include h he

/-- A position other than that of the thread that executes changes only when a thread is started
in a free slot. -/
theorem pos_other (hy : s.cpu c ≠ .run y) :
    s'.pos y = s.pos y ∨ s.state y = .unused ∧ s'.pos y = .resumed (.body .user) := by
  have hne : ∀ {x : Tid}, s.cpu c = .run x → y ≠ x := fun hx hyx => hy (by rw [hyx]; exact hx)
  have hupd : ∀ {x : Tid} {p : Pos}, s.cpu c = .run x → update s.pos x p y = s.pos y :=
    fun hx => update_of_ne (hne hx) _ _
  cases he with
  | idle _ _ _ hpos | dispatch _ _ _ _ _ hpos => exact .inl (by rw [hpos])
  | monitor _ _ _ _ _ _ _ hs => exact .inl (by rw [hs])
  | leave _ _ _ _ hx _ _ _ hpos | die _ _ hx _ _ _ hpos | stay _ _ hx _ hpos
  | kexit _ _ hx _ _ _ hpos | exit _ _ hx _ _ hpos | join _ _ _ hx _ _ _ hpos
  | wait _ _ hx _ _ _ hpos | forkRun _ _ _ hx _ _ hpos => exact .inl (by rw [hpos, hupd hx])
  | create x nt hx _ _ hfree _ hpos =>
    rw [hpos, update_of_ne (hne hx)]
    by_cases hn : y = (x.1, nt)
    · subst hn
      exact .inr ⟨hfree, update_self _ _ _⟩
    · exact .inl (update_of_ne hn _ _)
  | fork x np nt child hx _ hfree _ hpos =>
    rw [hpos, update_of_ne (hne hx)]
    by_cases hn : y = (np, nt)
    · subst hn
      exact .inr ⟨h.unused_threads hfree nt, update_self _ _ _⟩
    · exact .inl (update_of_ne hn _ _)

/-- A thread that another CPU executes keeps its position. -/
theorem pos_exec (hc : c' ≠ c) (hy : s.cpu c' = .run y) : s'.pos y = s.pos y := by
  refine (he.pos_other h fun hx => hc (h.uniq c' c y hy hx)).resolve_right fun hfree => ?_
  rcases h.exec_state hy with hst | hst <;> rw [hst] at hfree <;> cases hfree.1

theorem held_other (hc : c' ≠ c) : s'.held c' = s.held c' := by
  have hcpu := he.cpu_other hc
  cases hp : s.cpu c' with
  | run y => rw [held_run (hcpu.trans hp), held_run hp, he.pos_exec h hc hp]
  | _ => rw [held_idle (hcpu.trans hp) nofun, held_idle hp nofun]

theorem lockEffect : LockEffect c s s' := by
  cases he with
  | idle _ _ _ _ _ _ hl | leave _ _ _ _ _ _ _ _ _ _ _ _ hl | die _ _ _ _ _ _ _ _ _ hl
  | stay _ _ _ _ _ _ _ hl | kexit _ _ _ _ _ _ _ _ _ hl | exit _ _ _ _ _ _ _ _ hl
  | create _ _ _ _ _ _ _ _ _ _ hl | join _ _ _ _ _ _ _ _ _ _ hl | wait _ _ _ _ _ _ _ _ _ hl
  | fork _ _ _ _ _ _ _ _ _ _ _ _ _ _ hl | forkRun _ _ _ _ _ _ _ _ _ hl => exact hl
  | monitor _ _ _ _ _ _ _ hs => subst hs; exact .same rfl fun _ => Iff.rfl
  | dispatch x k hc hst hcpu hpos _ _ hlock =>
    refine .same hlock fun l => ?_
    -- the thread was left with the lock of its process held
    have hpark := h.parked x (h.not_exec (by rw [hst]; decide) (by rw [hst]; decide))
    have hx' : s'.cpu c = .run x := by rw [hcpu, update_self]
    have hlocks : (s.pos x).locks x.1 = [.proc x.1] := by
      cases hp : s.pos x with
      | here b => rw [hp] at hpark; exact hpark.elim
      | _ => rfl
    rw [held_run hx', hpos, hlocks, held_idle hc nofun]
    rfl

theorem locks : Spinlock.Consistent s'.lock fun c l => l ∈ s'.held c := by
  have hother : ∀ c', c' ≠ c → ∀ l, l ∈ s'.held c' ↔ l ∈ s.held c' := fun c' hc l => by
    rw [he.held_other h hc]
  rcases he.lockEffect h with ⟨hl, hh⟩ | ⟨l, hl, hh⟩ | ⟨l, hl, hh⟩
  · rw [hl]
    refine h.locks.congr fun c' l => ?_
    by_cases hc : c' = c
    · subst hc
      exact hh l
    · exact hother c' hc l
  · exact h.locks.acquire hl hh hother
  · exact h.locks.release hl hh hother

theorem uniq {c1 c2 : C} (h1 : s'.cpu c1 = .run x) (h2 : s'.cpu c2 = .run x) : c1 = c2 := by
  -- a CPU other than `c` that executes `x` did so before
  have hkey : ∀ {d : C}, s'.cpu c = .run x → s'.cpu d = .run x → d = c := by
    intro d hc hd
    by_contra hne
    have hd' : s.cpu d = .run x := (he.cpu_other hne).symm.trans hd
    rcases he.cpu_self hc with hx | hst
    · exact hne (h.uniq d c x hd' hx)
    · exact h.not_exec (by rw [hst]; decide) (by rw [hst]; decide) d hd'
  by_cases hc1 : c1 = c
  · subst hc1
    exact (hkey h1 h2).symm
  · by_cases hc2 : c2 = c
    · subst hc2
      exact hkey h2 h1
    · exact h.uniq c1 c2 x ((he.cpu_other hc1).symm.trans h1) ((he.cpu_other hc2).symm.trans h2)

end

/-! ### Thread states -/

omit [DecidableEq C] in
theorem state_of_quiet (hq : Quiet s.proc s'.proc) (y : Tid) : Woken (s.state y) (s'.state y) :=
  (hq y.1).thread y.2

variable {p : Proc}

section

variable (hproc : s'.proc = update s.proc q p)

include hproc

omit [DecidableEq C] in
theorem proc_of_update {r : ProcId}
    (hr : r ≠ q) : s'.proc r = s.proc r := by rw [hproc, update_of_ne hr]

omit [DecidableEq C] in
theorem state_of_update (hy : y.1 ≠ q) : s'.state y = s.state y := by
  unfold Machine.state Machine.thread
  rw [proc_of_update hproc hy]

omit [DecidableEq C] in
theorem state_of_update_self (hy : y.1 = q) :
    s'.state y = (p.threads y.2).state := by
  unfold Machine.state Machine.thread
  rw [hproc, hy, update_self]

end

theorem not_live_unused (hp : p.state = .unused) : ¬ p.Live := fun h => h.1 hp

theorem not_live_used (hp : p.state = .used) : ¬ p.Live := fun h => h.2.1 hp

theorem not_live_zombie (hp : p.state = .zombie) : ¬ p.Live := fun h => h.2.2 hp

theorem exitMark_zombie (status : ℤ)
    (ht : (p.threads t).state ≠ .unused) : ((p.exitMark status).threads t).state = .zombie := by
  refine (exitMark_gone p status t).resolve_left fun hu => ht ?_
  simp only [exitMark] at hu
  split_ifs at hu with hc
  exact hu

/-- What a step of CPU `c` can do to the state of the thread in slot `y`. -/
inductive Shift (mon : Monitor M K) (c : C) (s s' : Machine C M) (y : Tid) : Prop
  | same (hst : s'.state y = s.state y)
  | woken (hst : s.state y = .sleeping) (hst' : s'.state y = .runnable)
  | leave (b : Base) (hy : s.cpu c = .run y) (hp : s.pos y = .here b) (hb : b.Allows .running)
      (hst' : s'.state y = .runnable ∨ s'.state y = .sleeping)
  | dispatch (hst : s.state y = .runnable) (hst' : s'.state y = .running)
  | kexit (hy : s.cpu c = .run y) (hp : s.pos y = .here (.body .user))
      (hbusy : mon.busy s.mem y = false) (hcpu : s'.cpu = s.cpu) (hst' : s'.state y = .zombie)
  | exit (x : Tid) (e : Exiting) (hq : x.1 = y.1) (hx : s.cpu c = .run x)
      (hp : s.pos x = .here (.exit1 e)) (hcpu : s'.cpu = s.cpu) (hst' : s'.state y = .zombie)
      (halone : ∀ c', y ≠ x → s.cpu c' ≠ .run y) (hused : s.state y ≠ .unused)
  | create (x : Tid) (hq : x.1 = y.1) (hx : s.cpu c = .run x)
      (hp : s.pos x = .here (.body .user)) (hst : s.state y = .unused)
      (hst' : s'.state y = .runnable) (hpos : s'.pos y = .resumed (.body .user))
  /-- `kthread_join` or `wait` frees the slot. -/
  | reap (hst : Gone (s.state y)) (hst' : s'.state y = .unused) (hidle : ∀ c', s.cpu c' ≠ .run y)
  | fork (hproc : (s.proc y.1).state = .unused) (hst : s.state y = .unused)
      (hst' : s'.state y = .used) (hpos : s'.pos y = .resumed (.body .user))
      (hrest : ∀ t, t ≠ y.2 → s'.state (y.1, t) = .unused)
  | forkRun (x : Tid) (hx : s.cpu c = .run x) (hp : s.pos x = .here (.fork6 y.1 y.2))
      (hpos : s'.pos x = .here (.fork7 y.1)) (hst : s.state y = .used)
      (hst' : s'.state y = .runnable)

theorem shift (h : s.Inv) (he : Effect mon c s s') (y : Tid) : Shift mon c s s' y := by
  have hset : ∀ {x : Tid} {st : ProcState}, Sets x st s.proc s'.proc →
      (y = x → s'.state y = st → Shift mon c s s' y) → Shift mon c s s' y := by
    intro x st hsets hself
    by_cases hyx : y = x
    · exact hself hyx (by rw [hyx]; exact hsets.self)
    · exact .same (hsets.other y hyx)
  have hupd : ∀ {q : ProcId} {p : Proc}, s'.proc = update s.proc q p →
      (y.1 = q → s'.state y = (p.threads y.2).state → Shift mon c s s' y) →
      Shift mon c s s' y := by
    intro q p hproc hself
    by_cases hq : y.1 = q
    · exact hself hq (state_of_update_self hproc hq)
    · exact .same (state_of_update hproc hq)
  cases he with
  | idle _ _ _ _ _ hq | stay _ _ _ _ _ _ hq =>
    rcases state_of_quiet hq y with hst | ⟨hst, hst'⟩
    · exact .same hst
    · exact .woken hst hst'
  | monitor _ _ _ _ _ _ _ hs => subst hs; exact .same rfl
  | leave x b _ _ hx hp hb _ _ _ hsets hst =>
    refine hset hsets ?_
    rintro rfl rfl
    exact .leave b hx hp hb hst
  | die _ _ _ _ _ _ _ _ hproc =>
    refine .same ?_
    unfold Machine.state Machine.thread
    rw [hproc]
  | dispatch x _ _ hst _ _ _ hsets =>
    refine hset hsets ?_
    rintro rfl hst'
    exact .dispatch hst hst'
  | kexit x _ hx hp hbusy hcpu _ _ hsets =>
    refine hset hsets ?_
    rintro rfl hst'
    exact .kexit hx hp hbusy hcpu hst'
  | exit x e hx hp hcpu _ _ hproc _ halone =>
    refine hupd hproc fun hq hst' => ?_
    have hst : s.state y = ((s.proc x.1).threads y.2).state := by rw [← hq]; rfl
    by_cases hun : s.state y = .unused
    · refine .same ?_
      rw [hst', hun]
      simp [exitMark, hst.symm.trans hun]
    · refine .exit x e hq.symm hx hp hcpu (hst'.trans (exitMark_zombie _ (hst ▸ hun))) ?_ hun
      intro c' hne hc'
      refine halone c' y.2 (fun ht => hne (Prod.ext hq ht)) ?_
      rw [← hq]
      exact hc'
  | create x nt hx hp _ hfree _ hpos _ hsets =>
    refine hset hsets ?_
    rintro rfl hst'
    refine .create x rfl hx hp hfree hst' ?_
    have hne : (x.1, nt) ≠ x := fun hnx => by
      rw [hnx] at hfree
      exact absurd ((h.state_here hx hp).symm.trans hfree) (by simp)
    rw [hpos, update_of_ne hne, update_self]
  | join x id t hx hp hz _ _ _ hsets _ hfree hout =>
    refine hset hsets ?_
    rintro rfl hst'
    exact .reap (.inr hz) hst' (h.join_target hx hp hz hfree hout)
  | wait x np _ _ hz _ _ _ hproc _ hfree =>
    refine hupd hproc ?_
    rintro rfl hst'
    have hg := h.zombie_threads hz
    refine .reap (hg y.2) (hst'.trans (freeproc_unused (fun t ht => ?_) y.2))
      fun c' => h.wait_target hz hfree c' y.2
    exact Machine.Inv.not_gone (x := (y.1, t)) ht (hg t)
  | fork x np nt child hx hp hfree _ hpos _ hproc _ hnt hrest =>
    refine hupd hproc ?_
    rintro rfl hst'
    have hun := h.unused_threads hfree y.2
    by_cases ht : y.2 = nt
    · subst ht
      refine .fork hfree hun (hst'.trans hnt) ?_ fun t ht => ?_
      · have hne : y ≠ x := fun hyx =>
          h.proc_ne (h.state_here hx hp) (not_live_unused hfree) (by rw [hyx])
        rw [hpos, update_of_ne hne, update_self]
      · exact (state_of_update_self (y := (y.1, t)) hproc rfl).trans (hrest t ht)
    · exact .same ((hst'.trans (hrest y.2 ht)).trans hun.symm)
  | forkRun x np nt hx hp _ hpos _ hproc =>
    refine hupd hproc ?_
    rintro rfl hst'
    by_cases ht : y.2 = nt
    · subst ht
      refine .forkRun x hx hp (by rw [hpos, update_self]) (h.child hx hp).2 (hst'.trans ?_)
      simp [makeRunnable]
    · rw [makeRunnable_thread _ _ ht] at hst'
      exact .same hst'

theorem state_exec (h : s.Inv) (he : Effect mon c s s') (hc : c' ≠ c) (hy : s.cpu c' = .run y) :
    s'.state y = s.state y := by
  cases he.shift h y with
  | same hst => exact hst
  | woken hst | dispatch hst | create _ _ _ _ hst | fork _ hst | forkRun _ _ _ _ hst =>
    exact absurd hy (h.not_exec (by rw [hst]; decide) (by rw [hst]; decide) c')
  | leave _ hx | kexit hx => exact absurd (h.uniq c' c y hy hx) hc
  | exit x _ _ hx _ _ _ halone =>
    refine absurd hy (halone c' fun hyx => hc (h.uniq c' c y hy ?_))
    rw [hyx]
    exact hx
  | reap _ _ hidle => exact absurd hy (hidle c')

omit [DecidableEq C] in
/-- The thread that executes keeps its state in a change of another process. -/
theorem state_of_running (h : s.Inv) (hx : s.state x = .running) (hq : ¬ (s.proc q).Live)
    (hproc : s'.proc = update s.proc q p) :
    s'.state x = .running := (state_of_update hproc (h.proc_ne hx hq)).trans hx

theorem runs (h : s.Inv) (he : Effect mon c s s') (hy : s'.cpu c' = .run y) :
    (s'.pos y).Runs y.1 (s'.state y) := by
  by_cases hc : c' = c
  · subst hc
    -- `c` executes the thread it executed before
    have hsame : ∀ {x : Tid}, s.cpu c' = .run x → s'.cpu = s.cpu → y = x := fun hx hcpu => by
      rw [hcpu, hx] at hy
      exact (run.inj hy).symm
    cases he with
    | idle _ hc' => exact absurd hy (hc' y)
    | stay x b hx hcpu hpos _ hq _ hflow =>
      obtain rfl := hsame hx hcpu
      have hst : s'.state y = s.state y := (state_of_quiet hq y).eq (by
        rcases h.exec_state hx with hst | hst <;> rw [hst] <;> decide)
      rw [hpos, update_self, hst]
      exact hflow.allows _ (h.runs _ _ hx)
    | monitor x _ _ _ _ _ _ hs =>
      subst hs
      exact h.runs _ _ hy
    | leave _ _ _ _ _ _ _ hcpu | die _ _ _ _ _ hcpu =>
      rw [hcpu, update_self] at hy; cases hy
    | dispatch x _ _ hst hcpu hpos _ hsets =>
      rw [hcpu, update_self] at hy
      obtain rfl := run.inj hy
      have hself : s'.state x = .running := hsets.self
      rw [hpos, hself]
      have hpark := h.parked x (h.not_exec (by rw [hst]; decide) (by rw [hst]; decide))
      cases hp : s.pos x with
      | here b => rw [hp] at hpark; exact hpark.elim
      | resumed b => rw [hp] at hpark; exact ⟨hpark, rfl⟩
      | slept k => rfl
      | dead =>
        rw [hp, hst] at hpark
        rcases hpark with hg | hg <;> cases hg
    | kexit x e hx _ _ hcpu hpos _ hsets =>
      obtain rfl := hsame hx hcpu
      rw [hpos, update_self]
      exact hsets.self
    | exit x e hx _ hcpu hpos _ hproc =>
      obtain rfl := hsame hx hcpu
      rw [hpos, update_self]
      rw [state_of_update_self hproc rfl]
      refine exitMark_zombie _ fun hu => ?_
      rcases h.exec_state hx with hst | hst <;> exact absurd (hst.symm.trans hu) (by decide)
    | create x nt hx hp _ hfree hcpu hpos _ hsets =>
      obtain rfl := hsame hx hcpu
      have hrun : s.state y = .running := h.state_here hx hp
      rw [hpos, update_self]
      refine (hsets.other y ?_).trans hrun
      rintro hyn
      rw [← hyn, hrun] at hfree
      cases hfree
    | join x id t hx hp hz hcpu hpos _ hsets =>
      obtain rfl := hsame hx hcpu
      have hrun : s.state y = .running := h.state_here hx hp
      rw [hpos, update_self]
      refine (hsets.other y ?_).trans hrun
      rintro hyn
      rw [← hyn, hrun] at hz
      cases hz
    | wait x np hx hp hz hcpu hpos _ hproc =>
      obtain rfl := hsame hx hcpu
      rw [hpos, update_self]
      exact state_of_running h (h.state_here hx hp) (not_live_zombie hz) hproc
    | fork x np nt child hx hp hfree hcpu hpos _ hproc =>
      obtain rfl := hsame hx hcpu
      rw [hpos, update_self]
      exact ⟨rfl, state_of_running h (h.state_here hx hp) (not_live_unused hfree) hproc⟩
    | forkRun x np nt hx hp hcpu hpos _ hproc =>
      obtain rfl := hsame hx hcpu
      rw [hpos, update_self]
      exact state_of_running h (h.state_here hx hp) (not_live_used (h.child hx hp).1) hproc
  · have hy' : s.cpu c' = .run y := (he.cpu_other hc).symm.trans hy
    rw [he.pos_exec h hc hy', he.state_exec h hc hy']
    exact h.runs c' y hy'

variable {st : ProcState}

omit [DecidableEq C] in
theorem gone_woken {st' : ProcState} (hw : Woken st st') (hg : Gone st) : Gone st' := by
  rw [hw.eq (by rcases hg with hg | hg <;> rw [hg] <;> decide)]
  exact hg

section

variable (h : s.Inv) (he : Effect mon c s s')

include h he

/-- A free or zombie thread that no CPU executes stays so, unless `kthread_create` or `fork` starts
a thread in its slot. -/
theorem gone_parked (hy : ∀ c', s.cpu c' ≠ .run y)
    (hg : Gone (s.state y)) : Gone (s'.state y) ∨ s'.pos y = .resumed (.body .user) ∧
      ((∃ x, x.1 = y.1 ∧ s.cpu c = .run x ∧ s.pos x = .here (.body .user)) ∨
        (s.proc y.1).state = .unused) := by
  cases he.shift h y with
  | same hst => exact .inl (by rw [hst]; exact hg)
  | woken hst | dispatch hst | forkRun _ _ _ _ hst =>
    rw [hst] at hg
    exact Or.elim hg nofun nofun
  | leave _ hx | kexit hx => exact absurd hx (hy c)
  | exit _ _ _ _ _ _ hst' => exact .inl (.inr hst')
  | create x hq hx hp _ _ hpos => exact .inr ⟨hpos, .inl ⟨x, hq, hx, hp⟩⟩
  | reap _ hst' => exact .inl (.inl hst')
  | fork hfree _ _ hpos => exact .inr ⟨hpos, .inr hfree⟩

/-- The CPU goes on with the thread it executes, or the thread is switched out. -/
theorem switched (hx : s.cpu c = .run x) :
    s'.cpu = s.cpu ∨ (s'.pos x).Parked x.1 (s'.state x) ∧
      (¬ Gone (s'.state x) ∨ (s.pos x).inner = false) := by
  have hself : ∀ {y : Tid}, s.cpu c = .run y → y = x := fun hy =>
    run.inj (hy.symm.trans hx)
  cases he with
  | idle hc => exact absurd hx (hc x)
  | dispatch _ _ hpick => rw [hpick] at hx; cases hx
  | monitor _ _ _ _ _ _ _ hs => exact .inl (by rw [hs])
  | leave y b p st hy _ _ _ hpos _ hsets hst _ hpark =>
    obtain rfl := hself hy
    have hst' : s'.state y = st := hsets.self
    rw [hpos, update_self, hst']
    refine .inr ⟨hpark, .inl ?_⟩
    rcases hst with rfl | rfl <;> exact fun hg => Or.elim hg nofun nofun
  | die y b hy hp hb _ hpos _ hproc =>
    obtain rfl := hself hy
    have hst : s'.state y = s.state y := by
      unfold Machine.state Machine.thread
      rw [hproc]
    have hz := h.state_here hy hp
    rw [hpos, update_self, hst, hp]
    rcases hb with rfl | rfl <;> exact .inr ⟨.inr hz, .inr rfl⟩
  | stay _ _ _ hcpu | kexit _ _ _ _ _ hcpu | exit _ _ _ _ hcpu | create _ _ _ _ _ _ hcpu
  | join _ _ _ _ _ _ hcpu | wait _ _ _ _ _ hcpu | fork _ _ _ _ _ _ _ hcpu
  | forkRun _ _ _ _ _ hcpu => exact .inl hcpu

theorem parked (hy : ∀ c', s'.cpu c' ≠ .run y) :
    (s'.pos y).Parked y.1 (s'.state y) := by
  by_cases hc : s.cpu c = .run y
  · rcases he.switched h hc with hcpu | ⟨hpark, -⟩
    · exact absurd hc (by rw [← hcpu]; exact hy c)
    · exact hpark
  · have hidle : ∀ c', s.cpu c' ≠ .run y := by
      intro c' hc'
      by_cases hcc : c' = c
      · exact hc (hcc ▸ hc')
      · exact hy c' ((he.cpu_other hcc).trans hc')
    have hpark := h.parked y hidle
    rcases he.pos_other h hc with hpos | ⟨-, hpos⟩
    · rw [hpos]
      cases hp : s.pos y with
      | here b => rw [hp] at hpark; exact hpark.elim
      | resumed b => rw [hp] at hpark; exact hpark
      | slept k => trivial
      | dead =>
        rw [hp] at hpark
        refine (he.gone_parked h hidle hpark).resolve_right fun hstart => ?_
        rw [hpos, hp] at hstart
        cases hstart.1
    · rw [hpos]
      exact ⟨rfl, rfl⟩

end

/-! ### Process states -/

theorem roused_coherent {p' : Proc} (hr : Roused p p') (h : p.Coherent) : p'.Coherent := by
  intro t
  have ht := hr.thread t
  have hallows := h t
  rcases hr.state with heq | ⟨-, heq⟩
  · rw [heq]
    rcases ht with heq' | ⟨hs, -⟩
    · rw [heq']
      exact hallows
    · exact (h.live (.inr (.inr hs))).allows _
  · rw [heq]
    trivial

theorem sets_coherent {P P' : ProcId → Proc} (hsets : Sets x st P P') (h : ∀ q, (P q).Coherent)
    (hlive : (P x.1).Live) (q : ProcId) : (P' q).Coherent := by
  intro t
  rw [hsets.proc q]
  by_cases hqt : (q, t) = x
  · subst hqt
    exact hlive.allows _
  · have hkeep : ((P' q).threads t).state = ((P q).threads t).state := hsets.other (q, t) hqt
    rw [hkeep]
    exact h q t

theorem coherent (h : s.Inv) (he : Effect mon c s s') (q : ProcId) : (s'.proc q).Coherent := by
  have hupd : ∀ {r : ProcId} {p : Proc}, s'.proc = update s.proc r p → p.Coherent →
      (s'.proc q).Coherent := by
    intro r p hproc hp
    by_cases hqr : q = r
    · rw [hproc, hqr, update_self]
      exact hp
    · rw [proc_of_update hproc hqr]
      exact h.coherent q
  cases he with
  | idle _ _ _ _ _ hq | stay _ _ _ _ _ _ hq => exact roused_coherent (hq q) (h.coherent q)
  | monitor _ _ _ _ _ _ _ hs => subst hs; exact h.coherent q
  | leave x b _ _ hx hp hb _ _ _ hsets =>
    have hne : b ≠ .exit2 := by
      rintro rfl
      cases hb
    exact sets_coherent hsets h.coherent (h.live_here hx hp hne) q
  | die _ _ _ _ _ _ _ _ hproc => rw [hproc]; exact h.coherent q
  | dispatch x _ _ hst _ _ _ hsets =>
    exact sets_coherent hsets h.coherent ((h.coherent x.1).live (.inr (.inl hst))) q
  | kexit x _ hx hp _ _ _ _ hsets =>
    exact sets_coherent hsets h.coherent (h.live_here hx hp nofun) q
  | exit x e _ _ _ _ _ hproc => exact hupd hproc (exitMark_coherent _)
  | create x nt hx hp _ _ _ _ _ hsets | join x id t hx hp _ _ _ _ hsets =>
    have hlive : (s.proc x.1).Live := h.live_here hx hp nofun
    exact sets_coherent hsets h.coherent hlive q
  | wait x np _ _ hz _ _ _ hproc =>
    refine hupd hproc (freeproc_coherent fun t ht => ?_)
    rcases h.zombie_threads hz t with hg | hg <;> exact absurd (hg.symm.trans ht) (by decide)
  | fork x np nt child _ _ _ _ _ _ hproc hused hnt hrest =>
    refine hupd hproc fun t => ?_
    rw [hused]
    by_cases ht : t = nt
    · exact .inr (ht ▸ hnt)
    · exact .inl (hrest t ht)
  | forkRun x np nt _ _ _ _ _ hproc => exact hupd hproc fun t => trivial

/-- What a step of CPU `c` can do to the process in slot `q`. -/
inductive ProcShift (c : C) (s s' : Machine C M) (q : ProcId) : Prop
  | kept (hst : Woken (s.proc q).state (s'.proc q).state)
      (hpages : (s.proc q).state ≠ .unused → KeepsPages (s.proc q) (s'.proc q))
  | exit (x : Tid) (e : Exiting) (hq : x.1 = q) (hx : s.cpu c = .run x)
      (hp : s.pos x = .here (.exit1 e)) (hcpu : s'.cpu = s.cpu) (hpos : s'.pos x = .here .exit2)
      (halone : ∀ c' t, t ≠ x.2 → s.cpu c' ≠ .run (q, t)) (hst' : (s'.proc q).state = .zombie)
      (hpages : KeepsPages (s.proc q) (s'.proc q))
  | wait (hst : (s.proc q).state = .zombie) (hst' : (s'.proc q).state = .unused)
      (hidle : ∀ c' t, s.cpu c' ≠ .run (q, t))
  | fork (hst : (s.proc q).state = .unused) (hst' : (s'.proc q).state = .used)
  | forkRun (x : Tid) (nt : ThreadId) (hx : s.cpu c = .run x)
      (hp : s.pos x = .here (.fork6 q nt)) (hpos : s'.pos x = .here (.fork7 q))
      (hst : (s.proc q).state = .used) (hst' : (s'.proc q).state = .runnable)
      (hpages : KeepsPages (s.proc q) (s'.proc q))

section

variable (h : s.Inv) (he : Effect mon c s s')

include h he

theorem procShift (q : ProcId) : ProcShift c s s' q := by
  have hsame : s'.proc q = s.proc q → ProcShift c s s' q := fun heq =>
    .kept (.inl (by rw [heq])) fun _ => by rw [heq]; exact .refl _
  have hupd : ∀ {r : ProcId} {p : Proc}, s'.proc = update s.proc r p →
      (q = r → s'.proc q = p → ProcShift c s s' q) → ProcShift c s s' q := by
    intro r p hproc hself
    by_cases hqr : q = r
    · exact hself hqr (by rw [hproc, hqr, update_self])
    · exact hsame (proc_of_update hproc hqr)
  cases he with
  | idle _ _ _ _ _ hq | stay _ _ _ _ _ _ hq => exact .kept (hq q).state (hq q).pages
  | monitor _ _ _ _ _ _ _ hs => subst hs; exact hsame rfl
  | leave _ _ _ _ _ _ _ _ _ _ hsets | dispatch _ _ _ _ _ _ _ hsets | kexit _ _ _ _ _ _ _ _ hsets
  | create _ _ _ _ _ _ _ _ _ hsets | join _ _ _ _ _ _ _ _ _ hsets =>
    exact .kept (.inl (hsets.proc q)) fun _ => hsets.pages q
  | die _ _ _ _ _ _ _ _ hproc => exact hsame (by rw [hproc])
  | exit x e hx hp hcpu hpos _ hproc _ halone =>
    refine hupd hproc ?_
    rintro rfl hp'
    refine .exit x e rfl hx hp hcpu (by rw [hpos, update_self]) halone ?_ ?_ <;> rw [hp']
    · rfl
    · exact ⟨rfl, rfl⟩
  | wait x np _ _ hz _ _ _ hproc _ hfree =>
    refine hupd hproc ?_
    rintro rfl hp'
    exact .wait hz (by rw [hp']; rfl) (h.wait_target hz hfree)
  | fork x np nt child _ _ hfree _ _ _ hproc hused =>
    refine hupd hproc ?_
    rintro rfl hp'
    exact .fork hfree (by rw [hp']; exact hused)
  | forkRun x np nt hx hp _ hpos _ hproc =>
    refine hupd hproc ?_
    rintro rfl hp'
    refine .forkRun x nt hx hp (by rw [hpos, update_self]) (h.child hx hp).1 ?_ ?_ <;> rw [hp']
    · rfl
    · exact ⟨rfl, rfl⟩

/-- A zombie process was one before, or `exit` has just marked it. -/
theorem zombie_proc (hz : (s'.proc q).state = .zombie) :
    (s.proc q).state = .zombie ∨ ∃ x, x.1 = q ∧ s.cpu c = .run x ∧ s'.cpu = s.cpu ∧
      s'.pos x = .here .exit2 ∧ ∀ c' t, t ≠ x.2 → s.cpu c' ≠ .run (q, t) := by
  cases he.procShift h q with
  | kept hst => exact .inl ((hst.eq' (by rw [hz]; decide)).symm.trans hz)
  | exit x e hq hx _ hcpu hpos halone => exact .inr ⟨x, hq, hx, hcpu, hpos, halone⟩
  | wait _ hst' | fork _ hst' | forkRun _ _ _ _ _ _ hst' => cases hst'.symm.trans hz

theorem zombie (hy : s'.cpu c' = .run y)
    (hz : (s'.proc y.1).state = .zombie) : s'.pos y = .here .exit2 := by
  rcases he.zombie_proc h hz with hz0 | ⟨x, hxq, hx, hcpu, hpos, halone⟩
  · by_cases hc : c' = c
    · subst hc
      rcases he.cpu_self hy with hy0 | hst
      · -- a thread at the end of `exit` has one step left, after which it is switched out
        have hexit := h.zombie c' y hy0 hz0
        have hself : ∀ {x : Tid} {b : Base}, s.cpu c' = .run x → s.pos x = .here b →
            b = .exit2 := fun hx hp => by
          rw [← run.inj (hy0.symm.trans hx), hexit] at hp
          cases hp
          rfl
        cases he with
        | idle hc' => exact absurd hy0 (hc' y)
        | stay x b hx _ _ _ _ _ hflow =>
          rw [← run.inj (hy0.symm.trans hx)] at hflow
          exact absurd hexit hflow.leaving
        | monitor _ _ _ _ hx hp | kexit _ _ hx hp | exit _ _ hx hp | create _ _ hx hp
        | join _ _ _ hx hp | wait _ _ hx hp | fork _ _ _ _ hx hp | forkRun _ _ _ hx hp =>
          cases hself hx hp
        | leave x b _ _ hx hp hb =>
          obtain rfl := hself hx hp
          cases hb
        | die x b hx _ _ hcpu => rw [hcpu, update_self] at hy; cases hy
        | dispatch _ _ hpick => rw [hpick] at hy0; cases hy0
      · exact absurd hz0 ((h.coherent y.1).live (.inr (.inl hst))).2.2
    · have hy0 : s.cpu c' = .run y := (he.cpu_other hc).symm.trans hy
      rw [he.pos_exec h hc hy0]
      exact h.zombie c' y hy0 hz0
  · rw [hcpu] at hy
    have hyx : y = x := by
      refine Prod.ext hxq.symm ?_
      by_contra hne
      exact halone c' y.2 hne hy
    rw [hyx]
    exact hpos

end

/-! ### The thread that takes the step -/

/-- How the thread in slot `x` moves on in its own step. -/
inductive Moves (s s' : Machine C M) (x : Tid) : Prop
  | flow (b : Base) (hpos : s'.pos x = .here b) (hflow : Flow x.1 (s.pos x) b)
      (hq : Quiet s.proc s'.proc)
  /-- It stays, or is switched out to run again. -/
  | keep (b : Base) (hp : s.pos x = .here b) (hlast : (s'.pos x).last = b.last)
      (hfork : (s'.pos x).forking = b.forking) (hexits : (s'.pos x).exits = b.exits)
  /-- It is marked by `kthread_exit`. -/
  | mark (e : Exiting) (hp : s.pos x = .here (.body .user))
      (hpos : s'.pos x = .here (.kexit1 e)) (hsets : Sets x .zombie s.proc s'.proc)
      (hlast : e.last = true → ∀ t, t ≠ x.2 → Gone (s.state (x.1, t)))
  /-- It sets up a child. -/
  | fork (np : ProcId) (nt : ThreadId) (hpos : s'.pos x = .here (.fork3 np (some nt) false))
      (hfree : (s.proc np).state = .unused) (hused : (s'.proc np).state = .used)
      (hnt : s'.state (np, nt) = .used)
  /-- It comes to a position of no interest to the others. -/
  | plain (hlast : (s'.pos x).last = false) (hfork : (s'.pos x).forking = none)
      (hexits : (s'.pos x).exits = false)

omit [DecidableEq C] in
theorem Moves.plain_of_update {P : Tid → Pos} {p : Pos} (hpos : s'.pos = update P x p)
    (hlast : p.last = false) (hfork : p.forking = none) (hexits : p.exits = false) :
    Moves s s' x := by
  have hself : s'.pos x = p := by rw [hpos, update_self]
  exact .plain (by rw [hself]; exact hlast) (by rw [hself]; exact hfork)
    (by rw [hself]; exact hexits)

theorem moves (he : Effect mon c s s') (hx : s.cpu c = .run x) : Moves s s' x := by
  have hself : ∀ {y : Tid}, s.cpu c = .run y → y = x := fun hy =>
    run.inj (hy.symm.trans hx)
  cases he with
  | idle hc => exact absurd hx (hc x)
  | stay y b hy _ hpos _ hq _ hflow =>
    obtain rfl := hself hy
    exact .flow b (by rw [hpos, update_self]) hflow hq
  | monitor y w k m hy hp _ hs =>
    obtain rfl := hself hy
    have hpos' : s'.pos y = .here (.body w) := by rw [hs]; exact hp
    exact .keep _ hp (by rw [hpos']; rfl) (by rw [hpos']; rfl) (by rw [hpos']; rfl)
  | leave y b p _ hy hp _ _ hpos _ _ _ _ _ hlast hfork _ hexits =>
    obtain rfl := hself hy
    have hpos' : s'.pos y = p := by rw [hpos, update_self]
    exact .keep b hp (by rw [hpos', hlast]) (by rw [hpos', hfork]) (by rw [hpos', hexits])
  | die y b hy _ _ _ hpos | exit y e hy _ _ hpos | create y nt hy _ _ _ _ hpos
  | join y id t hy _ _ _ hpos | wait y np hy _ _ _ hpos | forkRun y np nt hy _ _ hpos =>
    obtain rfl := hself hy; exact .plain_of_update hpos rfl rfl rfl
  | dispatch _ _ hpick => rw [hpick] at hx; cases hx
  | kexit y e hy hp _ _ hpos _ hsets _ hlast =>
    obtain rfl := hself hy
    exact .mark e hp (by rw [hpos, update_self]) hsets hlast
  | fork y np nt child hy _ hfree _ hpos _ hproc hused hnt =>
    obtain rfl := hself hy
    refine .fork np nt (by rw [hpos, update_self]) hfree ?_ ?_
    · rw [hproc, update_self]
      exact hused
    · rw [state_of_update_self hproc rfl]
      exact hnt

/-! ### The last thread of a process -/

section

variable (h : s.Inv) (he : Effect mon c s s')

include h he

/-- A live process stays so until `exit` marks it. -/
theorem live_keep (hq : (s.proc q).Live) :
    (s'.proc q).Live ∨ ∃ x e, x.1 = q ∧ s.cpu c = .run x ∧ s.pos x = .here (.exit1 e) ∧
      s'.pos x = .here .exit2 := by
  cases he.procShift h q with
  | kept hst =>
    refine .inl ?_
    unfold Proc.Live
    rcases hst with hst | ⟨-, hst⟩ <;> rw [hst]
    · exact hq
    · exact ⟨nofun, nofun, nofun⟩
  | exit x e hxq hx hp _ hpos => exact .inr ⟨x, e, hxq, hx, hp, hpos⟩
  | wait hst => exact absurd hq (not_live_zombie hst)
  | fork hst => exact absurd hq (not_live_unused hst)
  | forkRun _ _ _ _ _ hst => exact absurd hq (not_live_used hst)

/-- A thread gets on the way of the last thread in `kthread_exit` only. -/
theorem last_pos (hl : (s'.pos y).last = true) :
    (s.pos y).last = true ∨ s.cpu c = .run y ∧ s.pos y = .here (.body .user) ∧
      (∀ t, t ≠ y.2 → Gone (s.state (y.1, t))) ∧ ∀ z, z ≠ y → s'.state z = s.state z := by
  by_cases hc : s.cpu c = .run y
  · cases he.moves hc with
    | flow b hpos hflow =>
      rw [hpos] at hl
      exact .inl (hflow.last hl)
    | keep b hp hlast =>
      rw [hlast] at hl
      exact .inl (by rw [hp]; exact hl)
    | mark e hp hpos hsets hlast =>
      rw [hpos] at hl
      exact .inr ⟨hc, hp, hlast hl, hsets.other⟩
    | fork np nt hpos => rw [hpos] at hl; cases hl
    | plain hlast => rw [hlast] at hl; cases hl
  · rcases he.pos_other h hc with hpos | ⟨-, hpos⟩
    · rw [hpos] at hl
      exact .inl hl
    · rw [hpos] at hl
      cases hl

/-- A thread gets into `exit` by calling it, or as the last thread in `kthread_exit`. -/
theorem exits_pos (hl : (s'.pos y).exits = true) :
    (s.pos y).exits = true ∨ s.cpu c = .run y ∧ s.pos y = .here (.body .user) ∧
      ((∃ e, s'.pos y = .here (.body (.closing e))) ∨
        ∀ t, t ≠ y.2 → Gone (s.state (y.1, t))) := by
  by_cases hc : s.cpu c = .run y
  · cases he.moves hc with
    | flow b hpos hflow =>
      rw [hpos] at hl
      refine (hflow.exits hl).imp_right ?_
      rintro ⟨hp, e, rfl⟩
      exact ⟨hc, hp, .inl ⟨e, hpos⟩⟩
    | keep b hp _ _ hexits =>
      rw [hexits] at hl
      exact .inl (by rw [hp]; exact hl)
    | mark e hp hpos hsets hlast =>
      rw [hpos] at hl
      exact .inr ⟨hc, hp, .inr (hlast hl)⟩
    | fork np nt hpos => rw [hpos] at hl; cases hl
    | plain _ _ hexits => rw [hexits] at hl; cases hl
  · rcases he.pos_other h hc with hpos | ⟨-, hpos⟩
    · rw [hpos] at hl
      exact .inl hl
    · rw [hpos] at hl
      cases hl

end

/-- A position where a thread may be running or a zombie is on the way of the last thread. -/
theorem last_of_allows (hr : b.Allows .running) (hz : b.Allows .zombie) :
    b.last = true := (Base.Allows.zombie 0 hz).resolve_right fun hne => hne.1 hr

/-- In a process with a last thread, the others stay free or zombies. -/
theorem gone_keep (h : s.Inv) (he : Effect mon c s s') (hq : (s.proc q).Live)
    (hg : Gone (s.state (q, t))) (hl : (s.pos (q, t)).last = false)
    (huser : ∀ x, x.1 = q → s.cpu c = .run x → s.pos x ≠ .here (.body .user)) :
    Gone (s'.state (q, t)) := by
  cases he.shift h (q, t) with
  | same hst => rw [hst]; exact hg
  | woken hst | dispatch hst | forkRun _ _ _ _ hst =>
    rw [hst] at hg
    exact Or.elim hg nofun nofun
  | leave b hx hp hb =>
    -- a zombie that can be switched out to run again is the last thread
    have hz : s.state (q, t) = .zombie := (h.exec_state hx).resolve_left fun hr =>
      Machine.Inv.not_gone hr hg
    have hb' := h.state_here hx hp
    rw [hz] at hb'
    rw [hp] at hl
    exact absurd (hl.symm.trans (last_of_allows hb hb')) Bool.false_ne_true
  | kexit _ _ _ _ hst' | exit _ _ _ _ _ _ hst' => exact .inr hst'
  | create x hxq hx hp => exact absurd hp (huser x hxq hx)
  | reap _ hst' => exact .inl hst'
  | fork hfree => exact absurd hfree hq.1

theorem last (h : s.Inv) (he : Effect mon c s s') (hl : (s'.pos y).last = true) :
    (s'.proc y.1).Live ∧
      ∀ t, t ≠ y.2 → Gone (s'.state (y.1, t)) ∧ (s'.pos (y.1, t)).last = false := by
  rcases he.last_pos h hl with hl0 | ⟨hy, hp, hothers, hkeep⟩
  · obtain ⟨hlive, hrest⟩ := h.last y hl0
    -- only the last thread itself can be running in its process
    have hrunning : ∀ x, x.1 = y.1 → s.state x = .running → x = y := by
      intro x hxq hst
      refine Prod.ext hxq ?_
      by_contra hne
      have hg := (hrest x.2 hne).1
      rw [show (y.1, x.2) = x from Prod.ext hxq.symm rfl] at hg
      exact Machine.Inv.not_gone hst hg
    refine ⟨(he.live_keep h hlive).resolve_right ?_, fun t ht => ⟨?_, ?_⟩⟩
    · rintro ⟨x, e, hxq, hx, hp, hpos⟩
      by_cases hxy : x = y
      · rw [← hxy, hpos] at hl
        cases hl
      · rcases h.state_here hx hp with hst | ⟨-, hlast⟩
        · exact hxy (hrunning x hxq hst)
        · have hnot := (hrest x.2 fun ht => hxy (Prod.ext hxq ht)).2
          rw [show (y.1, x.2) = x from Prod.ext hxq.symm rfl, hp] at hnot
          exact Bool.false_ne_true (hnot.symm.trans hlast)
    · refine he.gone_keep h hlive (hrest t ht).1 (hrest t ht).2 fun x hxq hx hp => ?_
      obtain rfl := hrunning x hxq (h.state_here hx hp)
      rw [hp] at hl0
      cases hl0
    · rw [Bool.eq_false_iff]
      intro hlt
      rcases he.last_pos h hlt with hlt0 | ⟨hx, hp, -, -⟩
      · exact Bool.false_ne_true ((hrest t ht).2.symm.trans hlt0)
      · exact Machine.Inv.not_gone (h.state_here hx hp) (hrest t ht).1
  · have hrun : s.state y = .running := h.state_here hy hp
    refine ⟨(he.live_keep h (h.live_here hy hp nofun)).resolve_right ?_, fun t ht => ⟨?_, ?_⟩⟩
    · rintro ⟨x, e, -, hx, hpx, -⟩
      obtain rfl := run.inj (hx.symm.trans hy)
      rw [hp] at hpx
      cases hpx
    · rw [hkeep (y.1, t) fun heq => ht (congrArg Prod.snd heq)]
      exact hothers t ht
    · rw [Bool.eq_false_iff]
      intro hlt
      rcases he.last_pos h hlt with hlt0 | ⟨hx, -⟩
      · -- a last thread of the process would have found this one gone
        have hg := ((h.last (y.1, t) hlt0).2 y.2 (Ne.symm ht)).1
        exact Machine.Inv.not_gone hrun hg
      · exact ht (congrArg Prod.snd (run.inj (hx.symm.trans hy)))

/-! ### Parents in `fork` -/

/-- A thread that executes in `fork` with a child is running. -/
theorem running_of_forking {r : ProcId × ThreadId} (hf : b.forking = some r)
    (hb : b.Allows st) : st = .running := by
  cases b with
  | fork3 np nt again => exact hb.2
  | fork4 | fork5 | fork6 => exact hb
  | _ => cases hf

section

variable (h : s.Inv) (he : Effect mon c s s')

include h he

/-- A parent in `fork` was one before, or has just set up its child. -/
theorem forking_pos {r : ProcId × ThreadId}
    (hf : (s'.pos y).forking = some r) (hg : ¬ Gone (s'.state y)) :
    (s.pos y).forking = some r ∧ ¬ Gone (s.state y) ∨
      s.cpu c = .run y ∧ (s.proc r.1).state = .unused ∧ (s'.proc r.1).state = .used ∧
        s'.state r = .used := by
  by_cases hc : s.cpu c = .run y
  · cases he.moves hc with
    | flow b hpos hflow hquiet =>
      rw [hpos] at hf
      refine .inl ⟨hflow.forking r hf, fun hg0 => hg (gone_woken (state_of_quiet hquiet y) hg0)⟩
    | keep b hp _ hfork =>
      rw [hfork] at hf
      -- at a position with a child the thread that executes is running
      have hrun := running_of_forking hf (h.state_here hc hp)
      exact .inl ⟨by rw [hp]; exact hf, Machine.Inv.not_gone hrun⟩
    | mark e _ hpos => rw [hpos] at hf; cases hf
    | fork np nt hpos hfree hused hnt =>
      rw [hpos] at hf
      cases hf
      exact .inr ⟨hc, hfree, hused, hnt⟩
    | plain _ hfork => rw [hfork] at hf; cases hf
  · rcases he.pos_other h hc with hpos | ⟨-, hpos⟩
    · refine .inl ⟨by rw [← hpos]; exact hf, fun hg0 => ?_⟩
      by_cases hex : ∃ c', s.cpu c' = .run y
      · obtain ⟨c', hc'⟩ := hex
        rw [he.state_exec h (fun hcc => hc (hcc ▸ hc')) hc'] at hg
        exact hg hg0
      · rcases he.gone_parked h (not_exists.1 hex) hg0 with hg' | ⟨hstart, -⟩
        · exact hg hg'
        · rw [hstart] at hf
          cases hf
    · rw [hpos] at hf
      cases hf

/-- A child that is being set up stays so while its parent is in `fork`. -/
theorem child_keep (hf : (s.pos y).forking = some (np, nt))
    (hg : ¬ Gone (s.state y)) (hf' : (s'.pos y).forking = some (np, nt)) :
    (s'.proc np).state = .used ∧ s'.state (np, nt) = .used := by
  obtain ⟨hused, hst0, huniq⟩ := h.forking y np nt hf hg
  have hidle := h.not_exec (x := (np, nt)) (by rw [hst0]; decide) (by rw [hst0]; decide) c
  have hexit : ∀ {x : Tid} {e : Exiting}, x.1 = np → s.cpu c = .run x →
      s.pos x = .here (.exit1 e) → False := by
    rintro x e rfl hx hp
    exact not_live_used hused (h.live_here hx hp nofun)
  -- nobody else has this child
  have hrun : ∀ {x : Tid} {n : ThreadId}, s.cpu c = .run x → s.pos x = .here (.fork6 np n) →
      s'.pos x = .here (.fork7 np) → False := by
    intro x n hx hp hpos
    have hxy : x = y := huniq x n (by rw [hp]; rfl) (Machine.Inv.not_gone (h.state_here hx hp))
    rw [← hxy, hpos] at hf'
    cases hf'
  constructor
  · cases he.procShift h np with
    | kept hst => exact (hst.eq (by rw [hused]; decide)).trans hused
    | exit x e hq hx hp => exact (hexit hq hx hp).elim
    | wait hst | fork hst => cases hused.symm.trans hst
    | forkRun x n hx hp hpos => exact (hrun hx hp hpos).elim
  · cases he.shift h (np, nt) with
    | same hst => exact hst.trans hst0
    | woken hst | dispatch hst | create _ _ _ _ hst | fork _ hst => cases hst0.symm.trans hst
    | leave _ hx | kexit hx => exact absurd hx hidle
    | exit x e hq hx hp => exact (hexit hq hx hp).elim
    | reap hst =>
      rw [hst0] at hst
      exact Or.elim hst nofun nofun
    | forkRun x hx hp hpos => exact (hrun hx hp hpos).elim

theorem forking (hf : (s'.pos y).forking = some (np, nt)) (hg : ¬ Gone (s'.state y)) :
    (s'.proc np).state = .used ∧ s'.state (np, nt) = .used ∧
      ∀ z nt', (s'.pos z).forking = some (np, nt') → ¬ Gone (s'.state z) → z = y := by
  rcases he.forking_pos h hf hg with ⟨hf0, hg0⟩ | ⟨hy, hfree, hused, hst⟩
  · obtain ⟨hused0, -, huniq⟩ := h.forking y np nt hf0 hg0
    obtain ⟨hused, hst⟩ := he.child_keep h hf0 hg0 hf
    refine ⟨hused, hst, fun z nt' hfz hgz => ?_⟩
    rcases he.forking_pos h hfz hgz with ⟨hfz0, hgz0⟩ | ⟨-, hfree, -⟩
    · exact huniq z nt' hfz0 hgz0
    · rw [hused0] at hfree
      cases hfree
  · refine ⟨hused, hst, fun z nt' hfz hgz => ?_⟩
    rcases he.forking_pos h hfz hgz with ⟨hfz0, hgz0⟩ | ⟨hz, -⟩
    · have := (h.forking z np nt' hfz0 hgz0).1
      rw [this] at hfree
      cases hfree
    · exact run.inj (hz.symm.trans hy)

theorem inv : s'.Inv where
  locks := he.locks h
  uniq _ _ _ := he.uniq h
  runs _ _ := he.runs h
  parked _ := he.parked h
  coherent := he.coherent h
  zombie _ _ := he.zombie h
  last _ := he.last h
  forking _ _ _ := he.forking h

end

end Effect

/-! ### Careful runs -/

variable {k : Pages} {mem : UserMem} {t₀ : Table}

theorem userinit_proc (h : userinit k mem = some t₀) :
    ∀ q, (t₀.proc q).state = .runnable ∨ ((t₀.proc q) = zero) := by
  unfold userinit at h
  split at h
  · cases h
  · obtain ⟨f, -, h⟩ := Option.bind_eq_some_iff.1 h
    cases h
    intro q
    by_cases hq : q = 0
    · subst hq
      exact .inl (by simp [makeRunnable])
    · exact .inr (by simp [hq])

omit [DecidableEq C] in
theorem boot_inv (h : userinit k mem = some t₀) (m : M) : (boot t₀ m : Machine C M).Inv where
  locks c l := by simp [boot, Machine.held, CpuPos.locks]
  uniq _ _ _ := nofun
  runs _ _ := nofun
  parked _ _ := ⟨rfl, rfl⟩
  coherent q := by
    intro t
    rcases userinit_proc h q with hq | hq
    · show ((t₀.proc q).state).Allows _
      rw [hq]
      trivial
    · show ((t₀.proc q).state).Allows ((t₀.proc q).threads t).state
      rw [hq]
      rfl
  zombie _ _ := nofun
  last _ := nofun
  forking _ _ _ := nofun

/-- **The invariant holds in every state of a careful run.** -/
theorem inv_of_reach {m : M} {tr : List (C × Choice K)} (h0 : userinit k mem = some t₀)
    (h : Transition.Reach (Machine.step mon) Machine.Careful (boot t₀ m) tr s) : s.Inv :=
  h.state_invariant (boot_inv h0 m) fun _ _ _ hinv hG hs => (step_effect hinv hG hs).inv hinv

end Xv6.Smp
