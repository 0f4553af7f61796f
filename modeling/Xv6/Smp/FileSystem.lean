import Xv6.Log.Group
import Xv6.Smp.Safety
import Mathlib.Data.Set.Card
import Mathlib.Tactic.DeriveFintype

/-!
# Exit and the file system

The machine with the log and the sleep-locks as the rest of the kernel.  A thread is inside the
file system between `begin_op` and the end of `end_op`, and while it holds a sleep-lock.  `exit`
marks the other threads of its process wherever they are; if none of them is inside, then
`log.outstanding` counts the operations of live threads, and every sleep-lock that is held has a
live holder.
-/

namespace Xv6

open Function Transition Option

namespace Log

/-- The process that takes the step. -/
def Act.actor {P : Type} : Act P → P
  | .beginOp p => p
  | .tryBegin p => p
  | .logWrite p _ => p
  | .endOp p => p
  | .commitStep p => p

namespace Group

variable {P : Type} [DecidableEq P] {s s' : Group P} {p : P}

/-- A step may wake another process up, and leaves it where it is otherwise. -/
theorem pc_step {size : ℤ} {a : Act P} (hs : s.step size a = some s') (hp : p ≠ a.actor) :
    s'.pc p = s.pc p ∨ s.pc p = .asleep ∧ s'.pc p = .begin := by
  have hgoto : ∀ (u : Group P) (pc : Pc), u.pc p = s.pc p ∨ s.pc p = .asleep ∧ u.pc p = .begin →
      (u.goto a.actor pc).pc p = s.pc p ∨ s.pc p = .asleep ∧ (u.goto a.actor pc).pc p = .begin :=
    fun u pc hu => by
      have hkeep : (u.goto a.actor pc).pc p = u.pc p := update_of_ne hp _ _
      rw [hkeep]
      exact hu
  have hwake : ∀ u : Group P, u.pc = s.pc →
      u.wakeup.pc p = s.pc p ∨ s.pc p = .asleep ∧ u.wakeup.pc p = .begin := fun u hu => by
    simp only [wakeup, hu]
    split_ifs with hasleep
    · exact .inr ⟨hasleep, rfl⟩
    · exact .inl rfl
  unfold step at hs
  split_ifs at hs
  cases a with
  | beginOp q =>
    simp only at hs
    split_ifs at hs
    cases hs
    exact hgoto s _ (.inl rfl)
  | tryBegin q =>
    simp only at hs
    split_ifs at hs
    cases hs
    unfold beginOp
    split_ifs
    · exact hgoto s _ (.inl rfl)
    · exact hgoto s _ (.inl rfl)
    · exact hgoto _ _ (.inl rfl)
  | logWrite q b =>
    simp only at hs
    split at hs
    · cases hs
      unfold logWrite
      by_cases hbig : LOGSIZE ≤ s.lh.length ∨ size - 1 ≤ s.lh.length
      · rw [if_pos hbig]
        exact .inl rfl
      · rw [if_neg hbig]
        by_cases hout : s.outstanding < 1
        · rw [if_pos hout]
          exact .inl rfl
        · rw [if_neg hout]
          exact hgoto _ _ (.inl rfl)
    · cases hs
  | endOp q =>
    simp only at hs
    split at hs
    · cases hs
      unfold endOp
      dsimp only
      split_ifs
      · exact .inl rfl
      · exact hgoto _ _ (.inl rfl)
      · exact hgoto _ _ (hwake _ rfl)
    · cases hs
  | commitStep q =>
    simp only [commitStep] at hs
    split at hs
    · cases hs; exact hgoto s _ (.inl rfl)
    · cases hs; exact hgoto s _ (.inl rfl)
    · cases hs; exact hgoto _ _ (.inl rfl)
    · cases hs; exact hgoto s _ (.inl rfl)
    · cases hs; exact hgoto _ _ (.inl rfl)
    · cases hs; exact hgoto s _ (.inl rfl)
    · cases hs; exact hgoto _ _ (hwake _ rfl)
    · cases hs

end Group

end Log

namespace Smp

instance : NeZero NBUF := ⟨by decide⟩

/-- The sleep-locks: one for each buffer and one for each inode in memory. -/
inductive SleepLock
  | buf (b : Fin NBUF)
  | inode (i : Fin NINODE)
  deriving DecidableEq, Fintype, Repr

/-- The log, and for each sleep-lock the thread that holds it. -/
structure FileSystem where
  log : Log.Group Tid
  holder : SleepLock → Option Tid

/-- The steps of a thread in the file system. -/
inductive FsAct
  | log (a : Log.Act Tid)
  | acquiresleep (l : SleepLock)
  | releasesleep (l : SleepLock)

namespace FileSystem

/-- A step of thread `x`.  `acquiresleep` goes on when the lock is free; `releasesleep` is called by
the holder, which `brelse` and `iunlock` check. -/
def step (size : ℤ) (fs : FileSystem) (x : Tid) : FsAct → Option FileSystem
  | .log a =>
    if a.actor = x then do
      let g ← fs.log.step size a
      some { fs with log := g }
    else none
  | .acquiresleep l =>
    if (fs.holder l).isNone then some { fs with holder := update fs.holder l (some x) }
    else none
  | .releasesleep l =>
    if fs.holder l = some x then some { fs with holder := update fs.holder l none }
    else none

/-- The thread is in the code of the file system. -/
def busy (fs : FileSystem) (x : Tid) : Bool :=
  decide (fs.log.pc x ≠ .idle ∨ ∃ l, fs.holder l = some x)

/-- A new thread starts outside. -/
def fresh (fs : FileSystem) (x : Tid) : FileSystem := { fs with log := fs.log.goto x .idle }

/-- The thread is between `begin_op` and the end of its `end_op`, or it holds a sleep-lock. -/
def Inside (fs : FileSystem) (x : Tid) : Prop :=
  (fs.log.pc x).InOp ∨ (fs.log.pc x).InCommit ∨ ∃ l, fs.holder l = some x

instance (pc : Log.Pc) : Decidable pc.InOp := by unfold Log.Pc.InOp; split <;> infer_instance

instance (pc : Log.Pc) : Decidable pc.InCommit := by
  unfold Log.Pc.InCommit; split <;> infer_instance

instance (fs : FileSystem) (x : Tid) : Decidable (fs.Inside x) := by
  unfold Inside; infer_instance

variable {fs fs' : FileSystem} {x y : Tid} {size : ℤ} {k : FsAct}

theorem busy_of_inside (h : fs.Inside x) : fs.busy x = true := by
  unfold busy
  rw [decide_eq_true_eq]
  rcases h with h | h | h
  · refine .inl fun hidle => ?_
    rw [hidle] at h
    exact h
  · refine .inl fun hidle => ?_
    rw [hidle] at h
    exact h
  · exact .inr h

theorem holder_of_update {holder : SleepLock → Option Tid} {l : SleepLock} {v : Option Tid}
    (hv : v ≠ some y) (h : ∃ l', update holder l v l' = some y) : ∃ l', holder l' = some y := by
  obtain ⟨l', hl'⟩ := h
  refine ⟨l', ?_⟩
  by_cases hll : l' = l
  · rw [hll, update_self] at hl'
    exact absurd hl' hv
  · rwa [update_of_ne hll] at hl'

/-- A step of another thread may wake a thread that waits to begin, and gives it no sleep-lock. -/
theorem other_of_step (hs : fs.step size x k = some fs') (hy : y ≠ x) :
    (fs'.log.pc y = fs.log.pc y ∨ fs.log.pc y = .asleep ∧ fs'.log.pc y = .begin) ∧
      ((∃ l, fs'.holder l = some y) → ∃ l, fs.holder l = some y) := by
  cases k with
  | log a =>
    simp only [step] at hs
    split_ifs at hs with ha
    obtain ⟨g, hg, hs⟩ := bind_eq_some_iff.1 hs
    cases hs
    exact ⟨Log.Group.pc_step hg (by rw [ha]; exact hy), id⟩
  | acquiresleep l =>
    simp only [step] at hs
    split_ifs at hs
    cases hs
    exact ⟨.inl rfl, holder_of_update fun heq => hy (some.inj heq).symm⟩
  | releasesleep l =>
    simp only [step] at hs
    split_ifs at hs
    cases hs
    exact ⟨.inl rfl, holder_of_update (v := none) nofun⟩

/-- A step of another thread does not bring a thread inside. -/
theorem inside_of_step (hs : fs.step size x k = some fs') (hy : y ≠ x) (h : fs'.Inside y) :
    fs.Inside y := by
  obtain ⟨hpc, hheld⟩ := other_of_step hs hy
  unfold Inside at h ⊢
  rcases hpc with hpc | ⟨-, hpc⟩ <;> rw [hpc] at h
  · exact h.imp_right (Or.imp_right hheld)
  · exact .inr (.inr (hheld ((h.resolve_left id).resolve_left id)))

theorem busy_of_step (hs : fs.step size x k = some fs') (hy : y ≠ x) (h : fs'.busy y = true) :
    fs.busy y = true := by
  obtain ⟨hpc, hheld⟩ := other_of_step hs hy
  unfold busy at h ⊢
  rw [decide_eq_true_eq] at h ⊢
  rcases hpc with hpc | ⟨hpc, -⟩
  · rw [hpc] at h
    exact h.imp_right hheld
  · exact .inl (by rw [hpc]; nofun)

theorem busy_of_fresh (hy : y ≠ x) (h : (fs.fresh x).busy y = true) : fs.busy y = true := by
  simpa [busy, fresh, Log.Group.goto, hy] using h

theorem not_busy_fresh (hx : ¬ fs.Inside x) : (fs.fresh x).busy x = false := by
  unfold busy
  rw [decide_eq_false_iff_not]
  rintro (hpc | hl)
  · exact hpc (update_self _ _ _)
  · exact hx (.inr (.inr hl))

theorem inside_of_fresh (h : (fs.fresh x).Inside y) : fs.Inside y := by
  by_cases hy : y = x
  · subst hy
    rcases h with h | h | h
    · simp [fresh, Log.Group.goto, Log.Pc.InOp] at h
    · simp [fresh, Log.Group.goto, Log.Pc.InCommit] at h
    · exact .inr (.inr h)
  · simpa [Inside, fresh, Log.Group.goto, hy] using h

theorem inv_log_step (h : fs.log.Inv) (hs : fs.step size x k = some fs') : fs'.log.Inv := by
  cases k with
  | log a =>
    simp only [step] at hs
    split_ifs at hs
    obtain ⟨g, hg, hs⟩ := bind_eq_some_iff.1 hs
    cases hs
    exact Log.Group.inv_step size a h hg
  | acquiresleep l | releasesleep l =>
    simp only [step] at hs
    split_ifs at hs
    cases hs
    exact h

theorem inv_log_fresh (h : fs.log.Inv) (hx : ¬ fs.Inside x) : (fs.fresh x).log.Inv := by
  refine h.goto ?_
  unfold Inside at hx
  show (fs.log.pc x).kind = .outside
  cases hpc : fs.log.pc x <;>
    first | rfl | exact absurd hx (by simp [hpc, Log.Pc.InOp, Log.Pc.InCommit])

end FileSystem

/-- The file system as the rest of the kernel. -/
def fsKernel (size : ℤ) : Monitor FileSystem FsAct where
  step := FileSystem.step size
  busy := FileSystem.busy
  fresh := FileSystem.fresh

/-! ### Live threads -/

variable {C M K : Type} {mon : Monitor M K} {c : C} {x y : Tid}

/-- The thread is neither free nor a zombie, or it still executes; the latter happens to the last
thread of a process, which `kthread_exit` marks before it calls `exit`. -/
def Machine.Alive (s : Machine C M) (x : Tid) : Prop :=
  ¬ Gone (s.state x) ∨ ∃ c, s.cpu c = .run x

variable {w : Body}

section

variable [DecidableEq C] {s s' : Machine C M}

/-- A thread dies by a last switch, or when another thread of its process exits. -/
theorem Effect.alive_keep (h : s.Inv) (he : Effect mon c s s') (hy : s.Alive y) :
    s'.Alive y ∨ s.cpu c = .run y ∧ (s.pos y).inner = false ∨
      ∃ x e, x.1 = y.1 ∧ y ≠ x ∧ s.cpu c = .run x ∧ s.pos x = .here (.exit1 e) := by
  rcases hy with hg | ⟨c', hc'⟩
  · have hlive : ∀ {st : ProcState}, s'.state y = st → st ≠ .unused → st ≠ .zombie →
        s'.Alive y := by
      rintro st rfl hu hz
      exact .inl fun hg' => hg'.elim hu hz
    have hexec : s.cpu c = .run y → s'.cpu = s.cpu → s'.Alive y := fun hx hcpu =>
      .inr ⟨c, by rw [hcpu]; exact hx⟩
    cases he.shift h y with
    | same hst => exact .inl (.inl (by rw [hst]; exact hg))
    | leave _ _ _ _ hst' =>
      exact .inl (hst'.elim (fun h => hlive h nofun nofun) fun h => hlive h nofun nofun)
    | woken _ hst' | dispatch _ hst' | create _ _ _ _ _ hst' | fork _ _ hst'
    | forkRun _ _ _ _ _ hst' => exact .inl (hlive hst' nofun nofun)
    | kexit hx _ _ hcpu => exact .inl (hexec hx hcpu)
    | exit x e hq hx hp hcpu =>
      by_cases hyx : y = x
      · subst hyx
        exact .inl (hexec hx hcpu)
      · exact .inr (.inr ⟨x, e, hq, hyx, hx, hp⟩)
    | reap hst => exact absurd hst hg
  · by_cases hcc : c' = c
    · subst hcc
      rcases he.switched h hc' with hcpu | ⟨-, hg | hin⟩
      · exact .inl (.inr ⟨c', by rw [hcpu]; exact hc'⟩)
      · exact .inl (.inl hg)
      · exact .inr (.inl ⟨hc', hin⟩)
    · -- a thread that another CPU executes goes on
      exact .inl (.inr ⟨c', (he.cpu_other hcc).trans hc'⟩)

/-- The thread is in `exit` and has not yet marked the others. -/
def Machine.Exits (s : Machine C M) (x : Tid) : Prop := s.Alive x ∧ (s.pos x).exits = true

/-- A thread in `exit` was there before, has called it, or is the last one in `kthread_exit`. -/
theorem Effect.exits_cases (h : s.Inv) (he : Effect mon c s s') (hy : s'.Exits y) :
    s.Exits y ∨ s.cpu c = .run y ∧ s.pos y = .here (.body .user) ∧
      ((∃ e, s'.pos y = .here (.body (.closing e))) ∨
        ∀ t, t ≠ y.2 → Gone (s.state (y.1, t))) := by
  obtain ⟨halive, hpos⟩ := hy
  refine (he.exits_pos h hpos).imp_left fun hpos0 => ⟨?_, hpos0⟩
  by_contra hdead
  obtain ⟨hg, hex⟩ := not_or.1 hdead
  rcases he.gone_parked h (not_exists.1 hex) (not_not.1 hg) with hg' | ⟨hstart, -⟩
  · obtain ⟨c', hc'⟩ := halive.resolve_left (not_not.2 hg')
    by_cases hcc : c' = c
    · subst hcc
      refine (he.cpu_self hc').elim (fun hold => hex ⟨_, hold⟩) fun hrun => hg fun hgone => ?_
      rw [hrun] at hgone
      rcases hgone with hgone | hgone <;> cases hgone
    · exact hex ⟨c', (he.cpu_other hcc).symm.trans hc'⟩
  · rw [hstart] at hpos
    cases hpos

omit [DecidableEq C] in
/-- A zombie that executes in the rest of the kernel is the last thread of its process. -/
theorem Machine.Inv.last_of_zombie (h : s.Inv) (hx : s.cpu c = .run x)
    (hin : (s.pos x).inner = true) (hz : s.state x = .zombie) : (s.pos x).last = true := by
  have hruns := h.runs c x hx
  rw [hz] at hruns
  cases hpos : s.pos x with
  | here b =>
    rw [hpos] at hin hruns
    refine Effect.last_of_allows ?_ hruns
    cases b with
    | body w => exact w.allows_running
    | sleep1 _ k | reacquire k => exact k.allows_running
    | wake _ _ r | waking _ _ r =>
      cases r with
      | other w => exact w.allows_running
      | _ => cases hin
    | _ => cases hin
  | resumed b => rw [hpos] at hruns; cases hruns.2
  | slept k => rw [hpos] at hruns; cases hruns
  | dead => rw [hpos] at hruns; exact hruns.elim

/-- What the choice of a step says about the rest of the kernel: only its own steps change it,
apart from the start of a new thread, and a thread comes to `exit` by calling it. -/
def Outcome (mon : Monitor M K) (s s' : Machine C M) (x : Tid) (ch : Choice K) : Prop :=
  (∃ k, ch = .other k) ∧ s'.pos = s.pos ∨ (s'.mem = s.mem ∨ ∃ n, s'.mem = mon.fresh s.mem n) ∧
    ((∃ status, ch = .exit status) ∨ ∀ e, s'.pos x ≠ .here (.body (.closing e)))

variable {ch : Choice K}

omit [DecidableEq C] in
theorem Outcome.goto {t : Machine C M} {b : Base}
    (hmem : t.mem = s.mem ∨ ∃ n, t.mem = mon.fresh s.mem n) (hb : ∀ e, b ≠ .body (.closing e)) :
    Outcome mon s (t.goto x b) x ch := by
  refine .inr ⟨hmem, .inr fun e he => hb e ?_⟩
  have hpos : (t.goto x b).pos x = .here b := update_self _ _ _
  exact Pos.here.inj (hpos.symm.trans he)

theorem Outcome.swtch {t : Machine C M} {p : Pos} (hmem : t.mem = s.mem)
    (hp : ∀ b, p ≠ .here b) : Outcome mon s (t.swtch c x p) x ch := by
  refine .inr ⟨.inl hmem, .inr fun e he => hp (.body (.closing e)) ?_⟩
  have hpos : (t.swtch c x p).pos x = p := update_self _ _ _
  exact hpos.symm.trans he

omit [DecidableEq C] in
theorem syscallStep_outcome (hs : s.syscallStep mon c x ch = some s')
    (hp : s.pos x = .here (.body .user)) : Outcome mon s s' x ch := by
  unfold Machine.syscallStep at hs
  split at hs
  · obtain ⟨lock, -, hs⟩ := acquire_bind hs
    dsimp only at hs
    split at hs
    · cases hs
      exact .goto (.inl rfl) nofun
    · obtain ⟨f, -, hs⟩ := bind_eq_some_iff.1 hs
      cases hs
      exact .goto (.inr ⟨_, rfl⟩) nofun
  · obtain ⟨lock, -, ⟨⟩⟩ := acquire_bind hs
    exact .goto (.inl rfl) nofun
  · split_ifs at hs
    · cases hs
      exact .inr ⟨.inl rfl, .inr fun e he => by rw [hp] at he; cases he⟩
    · obtain ⟨lock, -, ⟨⟩⟩ := acquire_bind hs
      unfold Machine.joinFrom
      split <;> exact .goto (.inl rfl) nofun
  · cases hs
    exact .goto (.inl rfl) nofun
  · split_ifs at hs
    cases hs
    exact .inr ⟨.inl rfl, .inl ⟨_, rfl⟩⟩
  · obtain ⟨lock, -, ⟨⟩⟩ := acquire_bind hs
    unfold Machine.waitFrom
    split <;> exact .goto (.inl rfl) nofun
  · obtain ⟨lock, -, ⟨⟩⟩ := acquire_bind hs
    exact .goto (.inl rfl) nofun
  · obtain ⟨lock, -, ⟨⟩⟩ := acquire_bind hs
    exact .goto (.inl rfl) nofun
  · cases hs

theorem yieldStep_outcome {b : Base} (hs : s.yieldStep c x b = some s') :
    Outcome mon s s' x ch := by
  obtain ⟨lock, -, ⟨⟩⟩ := acquire_bind hs
  exact .swtch rfl nofun

theorem bodyStep_outcome (hs : s.bodyStep mon c x w ch = some s')
    (hp : s.pos x = .here (.body w)) : Outcome mon s s' x ch := by
  unfold Machine.bodyStep at hs
  split at hs
  · exact yieldStep_outcome hs
  · split_ifs at hs
    exact yieldStep_outcome hs
  · obtain ⟨lock, -, ⟨⟩⟩ := acquire_bind hs
    exact .goto (.inl rfl) nofun
  · cases hs
    exact .goto (.inl rfl) nofun
  · obtain ⟨m, -, hs⟩ := bind_eq_some_iff.1 hs
    cases hs
    exact .inl ⟨⟨_, rfl⟩, rfl⟩
  · split_ifs at hs
    exact syscallStep_outcome hs hp
  · split_ifs at hs
    obtain ⟨lock, -, ⟨⟩⟩ := acquire_bind hs
    unfold Machine.reparentFrom
    split <;> exact .goto (.inl rfl) nofun
  · cases hs

theorem step_outcome {a : C × Choice K} (hs : s.step mon a = some s') (hx : s.cpu a.1 = .run x)
    (hp : s.pos x = .here (.body w)) : Outcome mon s s' x a.2 := by
  simp only [Machine.step, hx, Machine.threadStep, hp, Machine.baseStep] at hs
  exact bodyStep_outcome hs hp

/-- A thread is marked as a zombie by its own `kthread_exit`, or when a thread of its process
exits. -/
theorem Effect.marked (h : s.Inv) (he : Effect mon c s s') (hy : s.state y ≠ .zombie)
    (hz : s'.state y = .zombie) :
    s.cpu c = .run y ∧ mon.busy s.mem y = false ∨
      ∃ x e, x.1 = y.1 ∧ s.cpu c = .run x ∧ s.pos x = .here (.exit1 e) := by
  cases he.shift h y with
  | same hst => exact absurd (hst.symm.trans hz) hy
  | leave _ _ _ _ hst' => rcases hst' with hst' | hst' <;> cases hst'.symm.trans hz
  | woken _ hst' | dispatch _ hst' | create _ _ _ _ _ hst' | reap _ hst' | fork _ _ hst'
  | forkRun _ _ _ _ _ hst' => cases hst'.symm.trans hz
  | kexit hx _ hbusy => exact .inl ⟨hx, hbusy⟩
  | exit x e hq hx hp => exact .inr ⟨x, e, hq, hx, hp⟩

end

/-! ### Runs with the file system -/

section

variable [DecidableEq C] {s s' : Machine C FileSystem} {size : ℤ}

/-- The condition on the steps: besides being careful, a thread calls `exit` while no other thread
of its process is inside the file system, and none of them takes a step of the file system as long
as it is in `exit`. -/
def Machine.CarefulFs (s : Machine C FileSystem) (a : C × Choice FsAct) : Prop :=
  s.Careful a ∧
    match s.cpu a.1 with
    | .run x =>
      match s.pos x, a.2 with
      | .here (.body .user), .exit _ => ∀ t, t ≠ x.2 → ¬ s.mem.Inside (x.1, t)
      | .here (.body _), .other _ => ∀ t, t ≠ x.2 → ¬ s.Exits (x.1, t)
      | _, _ => True
    | _ => True

structure Machine.FsInv (s : Machine C FileSystem) : Prop where
  inv : s.Inv
  log : s.mem.log.Inv
  /-- A thread in the code of the file system is nowhere else. -/
  inner : ∀ x, s.mem.busy x = true → (s.pos x).inner = true
  alive : ∀ x, s.mem.Inside x → s.Alive x -- A thread inside is alive
  /-- While a thread is in `exit`, the others of its process are outside. -/
  exits : ∀ x, s.Exits x → ∀ t, t ≠ x.2 → ¬ s.mem.Inside (x.1, t)

omit [DecidableEq C] in
theorem Machine.FsInv.outside (h : s.FsInv) (hx : (s.pos x).inner = false) : ¬ s.mem.Inside x :=
  fun hin => Bool.false_ne_true (hx.symm.trans (h.inner x (FileSystem.busy_of_inside hin)))

omit [DecidableEq C] in
/-- A free thread slot that no CPU executes has nobody inside. -/
theorem Machine.FsInv.outside_unused (h : s.FsInv) (hx : s.state x = .unused) :
    ¬ s.mem.Inside x := fun hin => by
  rcases h.alive x hin with hg | ⟨c, hc⟩
  · exact hg (.inl hx)
  · exact h.inv.not_exec (by rw [hx]; decide) (by rw [hx]; decide) c hc

theorem Effect.mem_cases (h : s.Inv) (he : Effect (fsKernel size) c s s') :
    s'.mem = s.mem ∨ (∃ x w k m, s.cpu c = .run x ∧ s.pos x = .here (.body w) ∧
        s' = { s with mem := m } ∧ s.mem.step size x k = some m) ∨
      ∃ n, s.state n = .unused ∧ s'.mem = s.mem.fresh n := by
  cases he with
  | monitor x w k m hx hp hm hs => exact .inr (.inl ⟨x, w, k, m, hx, hp, hs, hm⟩)
  | create x nt _ _ _ hfree _ _ hmem => exact .inr (.inr ⟨_, hfree, hmem⟩)
  | fork x np nt child _ _ hfree _ _ hmem =>
    exact .inr (.inr ⟨_, h.unused_threads hfree nt, hmem⟩)
  | idle _ _ _ _ hmem | stay _ _ _ _ _ hmem | leave _ _ _ _ _ _ _ _ _ hmem
  | die _ _ _ _ _ _ _ hmem | dispatch _ _ _ _ _ _ hmem | kexit _ _ _ _ _ _ _ hmem
  | exit _ _ _ _ _ _ hmem | join _ _ _ _ _ _ _ _ hmem | wait _ _ _ _ _ _ _ hmem
  | forkRun _ _ _ _ _ _ _ hmem => exact .inl hmem

theorem Effect.inner (h : s.FsInv) (he : Effect (fsKernel size) c s s')
    (hb : s'.mem.busy y = true) : (s'.pos y).inner = true := by
  by_cases hc : s.cpu c = .run y
  · have hself : ∀ {x : Tid}, s.cpu c = .run x → x = y := fun hx =>
      CpuPos.run.inj (hx.symm.trans hc)
    -- a thread in the file system does not leave it by way of the process table
    have hcontra : ∀ {x : Tid} {b : Base}, s.cpu c = .run x → s.pos x = .here b →
        b.inner = false → s'.mem = s.mem → False := fun {x b} hx hp hbi hmem => by
      obtain rfl := hself hx
      rw [hmem] at hb
      have hin := h.inner x hb
      rw [hp] at hin
      exact Bool.false_ne_true (hbi.symm.trans hin)
    cases he with
    | idle hc' => exact absurd hc (hc' y)
    | stay x b hx _ hpos hmem _ _ _ hbusy =>
      obtain rfl := hself hx
      rw [hmem] at hb
      rw [hpos, update_self]
      rcases hbusy with hin | hout | hidle
      · exact hin
      · exact absurd (hout.symm.trans (h.inner x hb)) Bool.false_ne_true
      · exact absurd (hidle.symm.trans hb) Bool.false_ne_true
    | monitor x w k m hx hp _ hs =>
      subst hs
      obtain rfl := hself hx
      rw [show s.pos x = _ from hp]
      rfl
    | leave x b p st hx hp _ _ hpos hmem _ _ _ _ _ _ hinner =>
      obtain rfl := hself hx
      rw [hmem] at hb
      rw [hpos, update_self, hinner]
      have hin := h.inner x hb
      rwa [hp] at hin
    | die x b hx hp hbe _ _ hmem =>
      exact (hcontra hx hp (by rcases hbe with rfl | rfl <;> rfl) hmem).elim
    | dispatch x k hpick => rw [hpick] at hc; cases hc
    | kexit x e hx _ hbusy _ _ hmem =>
      obtain rfl := hself hx
      rw [hmem] at hb
      exact absurd (hbusy.symm.trans hb) Bool.false_ne_true
    | exit x e hx hp _ _ hmem | join x id t hx hp _ _ _ hmem | wait x np hx hp _ _ _ hmem
    | forkRun x np nt hx hp _ _ hmem => exact (hcontra hx hp rfl hmem).elim
    | create x nt hx hp hbusy hfree _ _ hmem =>
      obtain rfl := hself hx
      rw [hmem] at hb
      have hne : x ≠ (x.1, nt) := fun heq => by
        have hrun : s.state x = .running := h.inv.state_here hx hp
        rw [← heq, hrun] at hfree
        cases hfree
      exact absurd (hbusy.symm.trans (FileSystem.busy_of_fresh hne hb)) Bool.false_ne_true
    | fork x np nt child hx hp hfree _ _ hmem =>
      obtain rfl := hself hx
      rw [hmem] at hb
      have hne : x ≠ (np, nt) := fun heq => by
        have hrun : s.state x = .running := h.inv.state_here hx hp
        have hun := h.inv.unused_threads hfree nt
        rw [← heq, hrun] at hun
        cases hun
      have hin := h.inner x (FileSystem.busy_of_fresh hne hb)
      rw [hp] at hin
      cases hin
  · rcases he.pos_other h.inv hc with hpos | ⟨-, hpos⟩
    · rw [hpos]
      refine h.inner y ?_
      rcases he.mem_cases h.inv with hmem | ⟨x, w, k, m, hx, -, rfl, hmem⟩ | ⟨n, hun, hmem⟩
      · rwa [hmem] at hb
      · exact FileSystem.busy_of_step hmem (fun hyx => hc (hyx ▸ hx)) hb
      · rw [hmem] at hb
        by_cases hyn : y = n
        · subst hyn
          have hidle := FileSystem.not_busy_fresh (h.outside_unused hun)
          exact absurd (hidle.symm.trans hb) Bool.false_ne_true
        · exact FileSystem.busy_of_fresh hyn hb
    · rw [hpos]
      rfl

variable {a : C × Choice FsAct} {t : ThreadId}

omit [DecidableEq C] in
/-- A thread that is about to call `exit` finds the others outside. -/
theorem Machine.CarefulFs.outside {status : ℤ} (hG : s.CarefulFs a) (hx : s.cpu a.1 = .run x)
    (hp : s.pos x = .here (.body .user)) (ha : a.2 = .exit status)
    (ht : t ≠ x.2) : ¬ s.mem.Inside (x.1, t) := by
  have hclear := hG.2
  simp only [hx, hp, ha] at hclear
  exact hclear t ht

omit [DecidableEq C] in
/-- A thread that takes a step of the file system finds no other in `exit`. -/
theorem Machine.CarefulFs.not_exits {k : FsAct} (hG : s.CarefulFs a) (hx : s.cpu a.1 = .run x)
    (hp : s.pos x = .here (.body w)) (ha : a.2 = .other k) (ht : t ≠ x.2) : ¬ s.Exits (x.1, t) := by
  have hclear := hG.2
  cases w with
  | user | closing e =>
    simp only [hx, hp, ha] at hclear
    exact hclear t ht

/-- Whoever is inside was so before, or has just taken a step of the file system. -/
theorem Machine.FsInv.came_in (h : s.FsInv) (hG : s.CarefulFs a)
    (hs : s.step (fsKernel size) a = some s') (hin : s'.mem.Inside y) :
    s.mem.Inside y ∨ ∃ w k m, s.cpu a.1 = .run y ∧ s.pos y = .here (.body w) ∧ a.2 = .other k ∧
      s' = { s with mem := m } := by
  rcases (step_effect h.inv hG.1 hs).mem_cases h.inv with
    hmem | ⟨x, w, k, m, hx, hp, hs', hm⟩ | ⟨n, -, hmem⟩
  · exact .inl (by rwa [hmem] at hin)
  · by_cases hyx : y = x
    · subst hyx
      rcases step_outcome hs hx hp with ⟨⟨k', hk⟩, -⟩ | ⟨hmem | ⟨n, hmem⟩, -⟩
      · exact .inr ⟨w, k', m, hx, hp, hk, hs'⟩
      · exact .inl (by rwa [hmem] at hin)
      · exact .inl (FileSystem.inside_of_fresh (x := n) (by rwa [hmem] at hin))
    · subst hs'
      exact .inl (FileSystem.inside_of_step hm hyx hin)
  · exact .inl (FileSystem.inside_of_fresh (by rwa [hmem] at hin))

omit [DecidableEq C] in
/-- A thread inside is neither free nor a zombie, if another thread of its process is in user
mode. -/
theorem Machine.FsInv.not_gone (h : s.FsInv) (hx : s.cpu c = .run x)
    (hp : s.pos x = .here (.body .user)) (ht : t ≠ x.2)
    (hin : s.mem.Inside (x.1, t)) : ¬ Gone (s.state (x.1, t)) := fun hg => by
  obtain ⟨c', hc'⟩ := (h.alive _ hin).resolve_left (not_not.2 hg)
  have hz : s.state (x.1, t) = .zombie := (h.inv.exec_state hc').resolve_left fun hr => by
    rw [hr] at hg
    rcases hg with hg | hg <;> cases hg
  have hlast := h.inv.last_of_zombie hc' (h.inner _ (FileSystem.busy_of_inside hin)) hz
  exact Machine.Inv.not_gone (h.inv.state_here hx hp) ((h.inv.last _ hlast).2 x.2 ht.symm).1

theorem Machine.FsInv.step (h : s.FsInv) (hG : s.CarefulFs a)
    (hs : s.step (fsKernel size) a = some s') : s'.FsInv := by
  have he := step_effect h.inv hG.1 hs
  refine ⟨he.inv h.inv, ?_, fun y hb => he.inner h hb, fun y hin => ?_, fun x hx t ht hin => ?_⟩
  · rcases he.mem_cases h.inv with hmem | ⟨x, w, k, m, -, -, rfl, hmem⟩ | ⟨n, hun, hmem⟩
    · rw [hmem]
      exact h.log
    · exact FileSystem.inv_log_step h.log hmem
    · rw [hmem]
      exact FileSystem.inv_log_fresh h.log (h.outside_unused hun)
  · rcases h.came_in hG hs hin with hin0 | ⟨w, k, m, hy, -, -, rfl⟩
    · rcases he.alive_keep h.inv (h.alive y hin0) with halive | ⟨-, hout⟩ | ⟨x, e, hq, hne, hx, hp⟩
      · exact halive
      · exact absurd hin0 (h.outside hout)
      · have ht : y.2 ≠ x.2 := fun ht => hne (Prod.ext hq.symm ht)
        refine absurd ?_ (h.exits x ⟨.inr ⟨_, hx⟩, by rw [hp]; rfl⟩ y.2 ht)
        rw [hq]
        exact hin0
    · exact .inr ⟨_, hy⟩
  · rcases h.came_in hG hs hin with hin0 | ⟨w, k, m, hy, hp, hk, rfl⟩
    · rcases he.exits_cases h.inv hx with hx0 | ⟨hc, hp, ⟨e, hpos⟩ | hgone⟩
      · exact h.exits x hx0 t ht hin0
      · -- the thread has just called `exit`
        rcases step_outcome hs hc hp with ⟨-, hsame⟩ | ⟨-, ⟨status, hexit⟩ | hne⟩
        · rw [hsame, hp] at hpos
          cases hpos
        · exact hG.outside hc hp hexit ht hin0
        · exact hne e hpos
      · exact h.not_gone hc hp ht hin0 (hgone t ht)
    · exact hG.not_exits hy hp hk ht.symm hx

variable {mem : UserMem} {t₀ : Table}

omit [DecidableEq C] in
theorem boot_fsInv {k : Pages} (h : userinit k mem = some t₀) :
    (boot t₀ ⟨.init, fun _ => none⟩ : Machine C FileSystem).FsInv where
  inv := boot_inv h _
  log := Log.Group.inv_init
  inner _ _ := rfl
  alive x hin := by
    simp [boot, FileSystem.Inside, Log.Group.init, Log.Pc.InOp, Log.Pc.InCommit] at hin
  exits _ hx := nomatch hx.2

theorem fsInv_of_reach {k : Pages} {tr : List (C × Choice FsAct)} (h0 : userinit k mem = some t₀)
    (h : Reach (Machine.step (fsKernel size)) Machine.CarefulFs (boot t₀ ⟨.init, fun _ => none⟩)
    tr s) : s.FsInv :=
  h.state_invariant (boot_fsInv h0) fun _ _ _ hinv hG hs => hinv.step hG hs

/-- **No thread is destroyed inside the file system.** In every state of a run whose steps are
careful in this sense, `log.outstanding` is the number of live threads between `begin_op` and
`end_op`, every sleep-lock that is held has a live holder, and no step marks a thread as a zombie
while it is inside. -/
theorem exit_outside_file_system {k : Pages} {tr : List (C × Choice FsAct)}
    (h₀ : userinit k mem = some t₀) (h : Reach (Machine.step (fsKernel size)) Machine.CarefulFs
    (boot t₀ ⟨.init, fun _ => none⟩) tr s) :
    s.mem.log.outstanding = ({x | s.Alive x ∧ (s.mem.log.pc x).InOp} : Set Tid).ncard ∧
    (∀ l x, s.mem.holder l = some x → s.Alive x) ∧
    ∀ a s', s.CarefulFs a → s.step (fsKernel size) a = some s' →
      ∀ x, s.state x ≠ .zombie → s'.state x = .zombie → ¬ s.mem.Inside x := by
  have hinv := fsInv_of_reach h₀ h
  refine ⟨?_, fun l x hl => hinv.alive x (.inr (.inr ⟨l, hl⟩)), ?_⟩
  · obtain ⟨S, hS, hcard⟩ := hinv.log.core.count
    have hset : ({x | s.Alive x ∧ (s.mem.log.pc x).InOp} : Set Tid) = ↑S := by
      ext x
      rw [Finset.mem_coe, hS]
      refine Iff.trans ?_ (Log.Pc.inOp_iff _)
      exact ⟨And.right, fun hop => ⟨hinv.alive x (.inl hop), hop⟩⟩
    rw [hset, Set.ncard_coe_finset]
    exact hcard.symm
  · intro a s' hG hs x hx hz hin
    rcases (step_effect hinv.inv hG.1 hs).marked hinv.inv hx hz with ⟨-, hbusy⟩ | ⟨y, e, hq, hy, hp⟩
    · exact Bool.false_ne_true (hbusy.symm.trans (FileSystem.busy_of_inside hin))
    · by_cases ht : x.2 = y.2
      · obtain rfl : y = x := Prod.ext hq ht.symm
        exact hinv.outside (by rw [hp]; rfl) hin
      · refine hinv.exits y ⟨.inr ⟨_, hy⟩, by rw [hp]; rfl⟩ x.2 ht ?_
        rw [hq]
        exact hin

instance [Fintype C] (s : Machine C M) (x : Tid) : Decidable (s.Exits x) := by
  unfold Machine.Exits Machine.Alive Gone
  infer_instance

instance [Fintype C] (s : Machine C FileSystem) (a : C × Choice FsAct) :
    Decidable (s.CarefulFs a) := by
  unfold Machine.CarefulFs
  split
  · split <;> infer_instance
  · infer_instance

end

/-- Thread `x`, on CPU `c`, starts an operation and reads block `b`. -/
def startOp (c : Fin 3) (x : Tid) (b : Fin NBUF) : List (Fin 3 × Choice FsAct) :=
  [(c, .other (.log (.beginOp x))), (c, .other (.log (.tryBegin x))),
    (c, .other (.acquiresleep (.buf b)))]

/-- Thread `x`, on CPU `c`, ends it. -/
def stopOp (c : Fin 3) (x : Tid) (b : Fin NBUF) : List (Fin 3 × Choice FsAct) :=
  [(c, .other (.releasesleep (.buf b))), (c, .other (.log (.endOp x)))]

/-- The child's first thread calls `exit`, closes its files, and goes on until it has woken its
parent. -/
def exitChild : List (Fin 3 × Choice FsAct) :=
  [(1, .exit 3), (1, .other (.log (.beginOp (1, 0)))), (1, .other (.log (.tryBegin (1, 0)))),
    (1, .other (.log (.endOp (1, 0))))] ++ goes 1 (2 * NPROC + 1)

/-- The first process is inside the file system; the child's second thread has been there and is
preempted in user mode when the first one exits. -/
def exitOutside : List (Fin 3 × Choice FsAct) :=
  forkChild 0 ++ startThreads 1 2 ++ startOp 0 (0, 0) 0 ++ startOp 2 (1, 1) 1 ++
    stopOp 2 (1, 1) 1 ++ [(2, .yield), (2, .go)] ++ exitChild

theorem exit_outside_file_system_preempted :
    ∃ t₀ s s', userinit zeroPages (fun _ => none) = some t₀ ∧
      runWhen (Machine.step (fsKernel 30)) Machine.CarefulFs
        (boot t₀ ⟨.init, fun _ => none⟩) exitOutside = some s ∧
      s.step (fsKernel 30) (1, .go) = some s' ∧ s.mem.log.outstanding = 1 ∧
      ({x | s.Alive x ∧ (s.mem.log.pc x).InOp} : Set Tid).ncard = 1 ∧ s.Alive (0, 0) ∧
      s.state (1, 1) = .runnable ∧ s'.state (1, 1) = .zombie ∧ ¬ s.mem.Inside (1, 1) := by
  obtain ⟨t₀, h₀, s, hs, s', hs', hG, hout, hholder, hst, hz⟩ :
      ∃ t₀ ∈ userinit zeroPages fun _ => none, ∃ s ∈ runWhen (Machine.step (fsKernel 30))
      Machine.CarefulFs (boot t₀ ⟨.init, fun _ => none⟩) exitOutside,
      ∃ s' ∈ s.step (fsKernel 30) (1, .go), s.CarefulFs (1, .go) ∧ s.mem.log.outstanding = 1 ∧
      s.mem.holder (.buf 0) = some (0, 0) ∧ s.state (1, 1) = .runnable ∧
      s'.state (1, 1) = .zombie := by decide +kernel
  obtain ⟨hcount, hlive, hmark⟩ := exit_outside_file_system h₀ (reach_of_runWhen hs)
  refine ⟨t₀, s, s', h₀, hs, hs', hout, ?_, hlive _ _ hholder, hst, hz, ?_⟩
  · rw [hout] at hcount
    exact_mod_cast hcount.symm
  · exact hmark (1, .go) s' hG hs' (1, 1) (by rw [hst]; decide) hz

/-- The child's second thread sleeps inside the file system when the first one exits. -/
def exitInside : List (Fin 3 × Choice FsAct) :=
  forkChild 0 ++ startThreads 1 2 ++ startOp 2 (1, 1) 0 ++
    [(2, .sleep (.other 0)), (2, .go), (2, .go)] ++ exitChild

/-- `exit` marks the second thread as a zombie in the middle of its operation: `log.outstanding`
counts an operation of no live thread, and the sleep-lock is never released. -/
theorem exit_inside_file_system : ∃ t₀ s s', userinit zeroPages (fun _ => none) = some t₀ ∧
    Reach (Machine.step (fsKernel 30)) Always
      (boot t₀ ⟨.init, fun _ => none⟩) exitInside.reverse s ∧
    s.step (fsKernel 30) (1, .go) = some s' ∧ s.state (1, 1) = .sleeping ∧
    s'.state (1, 1) = .zombie ∧ s.mem.log.pc (1, 1) = .op [] ∧
    s.mem.holder (.buf 0) = some (1, 1) ∧ s'.mem.log.outstanding = 1 ∧
    s'.mem.holder (.buf 0) = some (1, 1) ∧ ¬ s'.Alive (1, 1) ∧
    ∀ x, (s'.mem.log.pc x).InOp → ¬ s'.Alive x := by
  have hrun : ((userinit zeroPages fun _ => none).bind fun t₀ =>
      (run (Machine.step (fsKernel 30)) (boot t₀ ⟨.init, fun _ => none⟩)
        exitInside).bind fun s => (s.step (fsKernel 30) (1, .go)).map fun s' =>
          ((s.state (1, 1), s'.state (1, 1), s.mem.log.pc (1, 1)),
            decide (s.mem.holder (.buf 0) = some (1, 1)), s'.mem.log.outstanding,
            decide (s'.mem.holder (.buf 0) = some (1, 1)), decide (∀ c, s'.cpu c ≠ .run (1, 1)),
            decide (∀ x, (s'.mem.log.pc x).InOp → x = (1, 1)))) =
      some ((.sleeping, .zombie, .op []), true, 1, true, true, true) := by decide +kernel
  obtain ⟨t₀, h₀, hrun⟩ := bind_eq_some_iff.1 hrun
  obtain ⟨s, hs, hrun⟩ := bind_eq_some_iff.1 hrun
  obtain ⟨s', hs', hstates⟩ := map_eq_some_iff.1 hrun
  simp only [Prod.mk.injEq, decide_eq_true_eq] at hstates
  obtain ⟨⟨hst, hz, hpc⟩, hholder, hout, hholder', hidle, honly⟩ := hstates
  have hdead : ¬ s'.Alive (1, 1) := by
    rintro (hg | ⟨c, hc⟩)
    · exact hg (.inr hz)
    · exact hidle c hc
  refine ⟨t₀, s, s', h₀, reach_always hs, hs', hst, hz, hpc,
    hholder, hout, hholder', hdead, fun x hx => ?_⟩
  rw [honly x hx]
  exact hdead

end Smp
end Xv6
