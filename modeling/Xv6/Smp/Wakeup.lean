import Xv6.Smp.Sleep

/-!
# No wakeup is lost

`Inv` is kept by every step, of a thread and of the scheduler.  Hence a call of `wakeup` finds each
sleeper that it owes `SLEEPING` on the channel or woken by somebody else.
-/

namespace Xv6.Sleep.State

open Function Transition Option

variable {C L : Type} {s s' : State C L} {c : C} {x y : Tid}

/-! ### Steps -/

/-- How a step of CPU `c` that holds `old` before and `new` after treats the process locks. -/
inductive LockStep (lock lock' : ProcId → Option C) (c : C) (old new : Option ProcId) : Prop
  | same (hlock : lock' = lock) (hholds : new = old)
  | acquire {q : ProcId} (hlock : Spinlock.acquire lock c q = some lock') (hold : old = none)
      (hnew : new = some q)
  | release [DecidableEq C] {q : ProcId} (hlock : Spinlock.release lock c q = some lock')
      (hold : old = some q) (hnew : new = none)

theorem LockStep.consistent {lock lock' : ProcId → Option C} {held held' : C → Option ProcId}
    {old new : Option ProcId} (h : LockStep lock lock' c old new)
    (hcons : Spinlock.Consistent lock fun c q => held c = some q)
    (hold : held c = old) (hnew : held' c = new) (hother : ∀ c', c' ≠ c → held' c' = held c') :
    Spinlock.Consistent lock' fun c q => held' c = some q := by
  cases h with
  | same hlock hholds =>
    rw [hlock]
    refine hcons.congr fun c' q => ?_
    by_cases hc : c' = c
    · rw [hc, hold, hnew, hholds]
    · rw [hother c' hc]
  | @acquire q hlock ho hn =>
    refine hcons.acquire hlock (fun l => ?_) fun c' hc l => by rw [hother c' hc]
    rw [hold, hnew, ho, hn]
    simp [eq_comm]
  | @release _ q hlock ho hn =>
    refine hcons.release hlock (fun l => ?_) fun c' hc l => by rw [hother c' hc]
    rw [hold, hnew, ho, hn]
    simp [eq_comm]

/-- What the invariant reads of thread `x` is unchanged. -/
def Same (s s' : State C L) (x : Tid) : Prop :=
  s'.state x = s.state x ∧ s'.chan x = s.chan x ∧ s'.roused x = s.roused x

/-- **A step of one CPU.**  The CPU may go to another position and have another thread than before;
threads that have other CPUs are left alone. -/
theorem Inv.of_step (h : s.Inv) {k k' : Cpu} (hk : s.cpu c = k) (hk' : s'.cpu c = k')
    (hcpu : ∀ c', c' ≠ c → s'.cpu c' = s.cpu c')
    (hpos : ∀ x, k.thread ≠ some x → s'.pos x = s.pos x)
    (hlocks : LockStep s.plock s'.plock c (s.holds c) (s'.holds c))
    (hnew : ∀ x, k'.thread = some x → k.thread = some x ∨ ∀ c', (s.cpu c').thread ≠ some x)
    (hpicked : ∀ x, k' = .picked x → (s'.pos x).parked = true)
    (hruns : ∀ x, k'.thread = some x → (s'.pos x).Runs (s'.state x) (s'.chan x) (s'.roused x))
    (hleft : ∀ x, k.thread = some x → k'.thread ≠ some x →
      (s'.pos x).Off (s'.state x) (s'.chan x) (s'.roused x))
    (hother : ∀ x, k.thread ≠ some x → k'.thread ≠ some x → Same s s' x ∨
      (∀ c', (s.cpu c').thread ≠ some x) ∧ (s.pos x).Off (s'.state x) (s'.chan x) (s'.roused x))
    (hdue : s'.Owed) : s'.Inv := by
  subst hk hk'
  -- a thread of another CPU is neither the old nor the new thread of this one
  have hold : ∀ {c' x}, c' ≠ c → (s.cpu c').thread = some x → (s.cpu c).thread ≠ some x :=
    fun hne hc' hc => hne (h.uniq _ _ _ hc' hc)
  have hnow : ∀ {c' x}, c' ≠ c → (s.cpu c').thread = some x → (s'.cpu c).thread ≠ some x :=
    fun hne hc' hc => (hnew _ hc).elim (hold hne hc') fun hno => hno _ hc'
  refine ⟨?_, ?_, ?_, ?_, ?_, hdue⟩
  · refine hlocks.consistent h.locks rfl rfl fun c' hne => ?_
    cases hc' : s.cpu c' with
    | run x =>
      have hthread : (s.cpu c').thread = some x := by rw [hc']; rfl
      simp only [holds, hcpu c' hne, hc', hpos x (hold hne hthread)]
    | _ => simp only [holds, hcpu c' hne, hc']
  · intro c1 c2 x h1 h2
    by_cases hc1 : c1 = c <;> by_cases hc2 : c2 = c
    · exact hc1.trans hc2.symm
    · rw [hcpu c2 hc2] at h2
      rw [hc1] at h1
      exact absurd h1 (hnow hc2 h2)
    · rw [hcpu c1 hc1] at h1
      rw [hc2] at h2
      exact absurd h2 (hnow hc1 h1)
    · rw [hcpu c1 hc1] at h1
      rw [hcpu c2 hc2] at h2
      exact h.uniq c1 c2 x h1 h2
  · intro c' x hc'
    by_cases hne : c' = c
    · exact hpicked x (hne ▸ hc')
    · rw [hcpu c' hne] at hc'
      rw [hpos x (hold hne (by rw [hc']; rfl))]
      exact h.picked c' x hc'
  · intro c' x hc'
    by_cases hne : c' = c
    · exact hruns x (hne ▸ hc')
    · rw [hcpu c' hne] at hc'
      have hsame := (hother x (hold hne hc') (hnow hne hc')).resolve_right fun hno => hno.1 c' hc'
      rw [hpos x (hold hne hc'), hsame.1, hsame.2.1, hsame.2.2]
      exact h.runs c' x hc'
  · intro x hx
    by_cases hthread : (s.cpu c).thread = some x
    · exact hleft x hthread (hx c)
    · have hoff : ∀ c', (s.cpu c').thread ≠ some x := fun c' => by
        by_cases hne : c' = c
        · rwa [hne]
        · rw [← hcpu c' hne]
          exact hx c'
      rw [hpos x hthread]
      rcases hother x hthread (hx c) with hsame | hno
      · rw [hsame.1, hsame.2.1, hsame.2.2]
        exact h.off x hoff
      · exact hno.2

variable {p : Pos L}

/-- The clause on the calls of `wakeup` after a step that makes no call and moves only `y`. -/
theorem Inv.owed_of_moved (h : s.Inv) (hpos : s'.pos = update s.pos y p)
    (hdue : ∀ z x, s'.due z x = true → s.due z x = true)
    (hroused : ∀ z x, s'.due z x = true → s.roused x = true → s'.roused x = true)
    (hwakes : ∀ x, s'.due y x = true → p.wakes = (s.pos y).wakes ∧
    (p.Passed x → (s.pos y).Passed x ∨ s'.roused x = true))
    (hasleep : ∀ z, s'.due z y = true → p.asleep = (s.pos y).asleep) : s'.Owed := by
  intro z x hd
  obtain ⟨hne, ⟨chan, lk, hz, hx⟩, hpassed⟩ := h.due z x (hdue z x hd)
  refine ⟨hne, ⟨chan, lk, ?_, ?_⟩, ?_⟩
  · by_cases hzy : z = y
    · subst hzy
      rw [hpos, update_self, (hwakes x hd).1]
      exact hz
    · rw [hpos, update_of_ne hzy]
      exact hz
  · by_cases hxy : x = y
    · subst hxy
      rw [hpos, update_self, hasleep z hd]
      exact hx
    · rw [hpos, update_of_ne hxy]
      exact hx
  · by_cases hzy : z = y
    · subst hzy
      rw [hpos, update_self]
      intro hp
      exact ((hwakes x hd).2 hp).elim (fun hp => hroused z x hd (hpassed hp)) id
    · rw [hpos, update_of_ne hzy]
      exact fun hp => hroused z x hd (hpassed hp)

/-- A step of the thread `y` that CPU `c` executes, to another position. -/
structure Moves (s s' : State C L) (c : C) (y : Tid) (p : Pos L) : Prop where
  cpu : s'.cpu = s.cpu
  pos : s'.pos = update s.pos y p
  locks : LockStep s.plock s'.plock c ((s.pos y).holds y.1) (p.holds y.1)
  runs : p.Runs (s'.state y) (s'.chan y) (s'.roused y)
  other : ∀ x, x ≠ y → Same s s' x ∨
    (∀ c', (s.cpu c').thread ≠ some x) ∧ (s.pos x).Off (s'.state x) (s'.chan x) (s'.roused x)

theorem Inv.moves (h : s.Inv) (hc : s.cpu c = .run y) (hm : Moves s s' c y p)
    (hdue : s'.Owed) : s'.Inv := by
  have hc' : s'.cpu c = .run y := by rw [hm.cpu, hc]
  have hpos : s'.pos y = p := by rw [hm.pos, update_self]
  have hne : ∀ {x}, (Cpu.run y).thread ≠ some x → x ≠ y := fun hx hxy => hx (hxy ▸ rfl)
  refine h.of_step hc hc' (fun c' _ => by rw [hm.cpu]) ?_ ?_ (fun x hx => .inl hx) nofun ?_
    (fun x hx hx' => absurd hx hx') (fun x hx _ => hm.other x (hne hx)) hdue
  · intro x hx
    rw [hm.pos, update_of_ne (hne hx)]
  · rw [Inv.holds_run hc, Inv.holds_run hc', hpos]
    exact hm.locks
  · rintro x ⟨⟩
    rw [hpos]
    exact hm.runs

/-! ### Steps of a thread -/

/-- Nothing but locks and `since` differs. -/
structure Quiet (s s' : State C L) : Prop where
  cpu : s'.cpu = s.cpu
  pos : s'.pos = s.pos
  state : s'.state = s.state
  chan : s'.chan = s.chan
  roused : s'.roused = s.roused
  due : s'.due = s.due

theorem Quiet.refl (s : State C L) : Quiet s s := ⟨rfl, rfl, rfl, rfl, rfl, rfl⟩

/-- A step of thread `y` that writes nothing of another thread. -/
theorem Inv.own (h : s.Inv) (hc : s.cpu c = .run y) (hcpu : s'.cpu = s.cpu)
    (hpos : s'.pos = update s.pos y p)
    (hlocks : LockStep s.plock s'.plock c ((s.pos y).holds y.1) (p.holds y.1))
    (hruns : p.Runs (s'.state y) (s'.chan y) (s'.roused y)) (hsame : ∀ x, x ≠ y → Same s s' x)
    (hdue : ∀ z x, s'.due z x = true → s.due z x = true)
    (hwakes : ∀ x, s'.due y x = true → p.wakes = (s.pos y).wakes ∧ (p.Passed x → (s.pos y).Passed x)
    ) (hasleep : ∀ z, s'.due z y = true → p.asleep = (s.pos y).asleep ∧
    (s.roused y = true → s'.roused y = true)) : s'.Inv := by
  refine h.moves hc (p := p) ⟨hcpu, hpos, hlocks, hruns, fun x hx => .inl (hsame x hx)⟩ ?_
  refine h.owed_of_moved hpos hdue ?_ ?_ fun z hd => (hasleep z hd).1
  · intro z x hd hr
    by_cases hxy : x = y
    · subst hxy
      exact (hasleep z hd).2 hr
    · rw [(hsame x hxy).2.2]
      exact hr
  · exact fun x hd => ⟨(hwakes x hd).1, fun hp => .inl ((hwakes x hd).2 hp)⟩

/-- A step of thread `y` that only takes or gives back locks. -/
theorem Inv.goto (h : s.Inv) (hc : s.cpu c = .run y) (hq : Quiet s s')
    (hlocks : LockStep s.plock s'.plock c ((s.pos y).holds y.1) (p.holds y.1))
    (hruns : p.Runs (s.state y) (s.chan y) (s.roused y)) (hlike : p.Like (s.pos y)) :
    (s'.goto y p).Inv := by
  refine h.own hc (p := p) hq.cpu (by rw [State.goto, hq.pos]) hlocks ?_ ?_ ?_ ?_ ?_
  · show p.Runs (s'.state y) (s'.chan y) (s'.roused y)
    rw [hq.state, hq.chan, hq.roused]
    exact hruns
  · exact fun x _ => ⟨congrFun hq.state x, congrFun hq.chan x, congrFun hq.roused x⟩
  · intro z x hd
    rwa [← hq.due]
  · exact fun x _ => ⟨hlike.1, hlike.2.2 x⟩
  · refine fun z _ => ⟨hlike.2.1, fun hr => ?_⟩
    show s'.roused y = true
    rwa [hq.roused]

/-- A step of thread `y` that writes its own state or channel and takes no lock. -/
theorem Inv.local (h : s.Inv) (hc : s.cpu c = .run y) {q : Pos L} (hy : s.pos y = q)
    (hcpu : s'.cpu = s.cpu) (hpos : s'.pos = update s.pos y p) (hlock : s'.plock = s.plock)
    (hdue : s'.due = s.due) (hroused : s'.roused = s.roused)
    (hholds : p.holds y.1 = q.holds y.1) (hruns : p.Runs (s'.state y) (s'.chan y) (s.roused y))
    (hsame : ∀ x, x ≠ y → s'.state x = s.state x ∧ s'.chan x = s.chan x) (hlike : p.Like q) :
    s'.Inv := by
  subst hy
  refine h.own hc hcpu hpos (.same hlock hholds) (by rwa [hroused])
    (fun x hx => ⟨(hsame x hx).1, (hsame x hx).2, congrFun hroused x⟩)
    (fun z x hd => by rwa [← hdue])
    (fun x _ => ⟨hlike.1, hlike.2.2 x⟩) fun z _ => ⟨hlike.2.1, fun hr => by rwa [hroused]⟩

/-- A thread that is not in `sleep`, or has not given back its lock there, is owed nothing. -/
theorem Inv.not_due (h : s.Inv) (hy : (s.pos y).asleep = none) (z : Tid) : ¬ s.due z y = true := by
  intro hd
  obtain ⟨-, ⟨chan, lk, -, hx⟩, -⟩ := h.due z y hd
  rw [hy] at hx
  cases hx

section

variable [DecidableEq C] [DecidableEq L] {q : ProcId} {lk : L}

omit [DecidableEq L] in
theorem acquireProc_spec (h : s.acquireProc c q = some s') :
    Quiet s s' ∧ Spinlock.acquire s.plock c q = some s'.plock := by
  obtain ⟨plock, hlock, rfl⟩ := map_eq_some_iff.1 h
  exact ⟨⟨rfl, rfl, rfl, rfl, rfl, rfl⟩, hlock⟩

omit [DecidableEq L] in
theorem releaseProc_spec (h : s.releaseProc c q = some s') :
    Quiet s s' ∧ Spinlock.release s.plock c q = some s'.plock := by
  obtain ⟨plock, hlock, rfl⟩ := map_eq_some_iff.1 h
  exact ⟨⟨rfl, rfl, rfl, rfl, rfl, rfl⟩, hlock⟩

theorem acquireLk_spec (h : s.acquireLk c y lk = some s') :
    Quiet s s' ∧ s'.plock = s.plock ∧ s'.lock lk = some c := by
  obtain ⟨lock, hlock, rfl⟩ := map_eq_some_iff.1 h
  refine ⟨⟨rfl, rfl, rfl, rfl, rfl, rfl⟩, rfl, ?_⟩
  unfold Spinlock.acquire at hlock
  split_ifs at hlock
  cases hlock
  exact update_self ..

theorem releaseLk_spec (h : s.releaseLk c lk = some s') : Quiet s s' ∧ s'.plock = s.plock := by
  obtain ⟨lock, -, rfl⟩ := map_eq_some_iff.1 h
  exact ⟨⟨rfl, rfl, rfl, rfl, rfl, rfl⟩, rfl⟩

end

variable {chan : Chan} {t : ℕ}

section

variable (h : s.Inv) (hc : s.cpu c = .run y)

include h hc

/-- One look of `wakeup` at a thread. -/
theorem Inv.waking {q : ProcId} (hp : s.pos y = .waking chan q t) (ht : t < NTHREAD) :
    ((s.wakeThread y chan (q, ⟨t, ht⟩)).goto y (.waking chan q (t + 1))).Inv := by
  have hq : (s.pos y).holds y.1 = some q := by rw [hp]; rfl
  have hruns := h.runs c y (by rw [hc]; rfl)
  rw [hp] at hruns
  set x : Tid := (q, ⟨t, ht⟩) with hx
  have hmoved : ∀ u : State C L, u.pos = s.pos →
      (u.goto y (.waking chan q (t + 1))).pos =
        update s.pos y (.waking chan q (t + 1)) := fun u hu => by rw [State.goto, hu]
  have hpassed : ∀ z, (Pos.waking (L := L) chan q (t + 1)).Passed z →
      (s.pos y).Passed z ∨ z = x := by
    rw [hp]
    rintro z (hlt | ⟨heq, hlt⟩)
    · exact .inl (.inl hlt)
    · rcases Nat.lt_succ_iff_lt_or_eq.1 hlt with hlt | hlt
      · exact .inl (.inr ⟨heq, hlt⟩)
      · exact .inr (Prod.ext heq (Fin.ext hlt))
  unfold wakeThread
  split_ifs with hcond
  · obtain ⟨hne, hst, hch⟩ := hcond
    obtain ⟨hoff, chan', lk, hslept⟩ := h.off_of_sleeping (x := x) hc hq hne.symm hst
    refine h.moves hc (p := .waking chan q (t + 1)) ⟨rfl, hmoved _ rfl, .same rfl ?_, ?_, ?_⟩ ?_
    · rw [hp]
      rfl
    · show update s.state x .runnable y = .running
      rw [update_of_ne hne.symm]
      exact hruns
    · intro z _
      by_cases hz : z = x
      · subst hz
        refine .inr ⟨hoff, ?_⟩
        rw [hslept]
        exact .inr ⟨update_self .., update_self ..⟩
      · exact .inl ⟨update_of_ne hz .., rfl, update_of_ne hz ..⟩
    · refine h.owed_of_moved (hmoved _ rfl) (fun _ _ hd => hd) ?_ ?_ ?_
      · intro _ z _ hr
        show update s.roused x true z = true
        by_cases hz : z = x
        · rw [hz, update_self]
        · rwa [update_of_ne hz]
      · refine fun z _ => ⟨by rw [hp]; rfl, fun hpass => (hpassed z hpass).imp_right fun hz => ?_⟩
        show update s.roused x true z = true
        rw [hz, update_self]
      · intro z _
        rw [hp]
        rfl
  · refine h.moves hc (p := .waking chan q (t + 1)) ⟨rfl, hmoved _ rfl, .same rfl ?_, hruns,
      fun z _ => .inl ⟨rfl, rfl, rfl⟩⟩ ?_
    · rw [hp]
      rfl
    · refine h.owed_of_moved (hmoved _ rfl) (fun _ _ hd => hd) (fun _ _ _ hr => hr) ?_ ?_
      · refine fun z hd => ⟨by rw [hp]; rfl, fun hpass => (hpassed z hpass).imp_right fun hz => ?_⟩
        subst hz
        obtain ⟨hne, ⟨chan', lk, hwakes, hasleep⟩, -⟩ := h.due y x hd
        rw [hp] at hwakes
        cases hwakes
        exact (h.asleep_or_roused hc hq hne hasleep).resolve_right fun hs => hcond ⟨hne.symm, hs⟩
      · intro z _
        rw [hp]
        rfl

/-- `release(lk)` in `sleep`. -/
theorem Inv.sleep_releases {lk : L}
    (hp : s.pos y = .sleep2 chan lk) (hq : Quiet s s') (hlock : s'.plock = s.plock) :
    ({ s' with
        since := update s'.since y fun _ => false
        roused := update s'.roused y false }.goto y (.sleep3 chan lk)).Inv := by
  have hruns := h.runs c y (by rw [hc]; rfl)
  rw [hp] at hruns
  have hnone : ∀ z, s'.due z y ≠ true := fun z => by
    rw [hq.due]
    exact h.not_due (by rw [hp]; rfl) z
  refine h.own hc (p := .sleep3 chan lk) hq.cpu (by simp only [State.goto, hq.pos]) ?_
    ?_ ?_ ?_ ?_ ?_
  · rw [hp]
    exact .same hlock rfl
  · show s'.state y = .running ∧ update s'.roused y false y = false
    rw [hq.state]
    exact ⟨hruns, update_self ..⟩
  · refine fun x hx => ⟨congrFun hq.state x, congrFun hq.chan x, ?_⟩
    exact (update_of_ne hx ..).trans (congrFun hq.roused x)
  · intro z x hd
    rw [← hq.due]
    exact hd
  · exact fun x _ => ⟨by rw [hp]; rfl, fun hx => nomatch hx⟩
  · exact fun z hd => absurd hd (hnone z)

/-- `sleep` returns. -/
theorem Inv.sleep_returns {lk : L}
    (hp : s.pos y = .here (.reacquire chan lk)) (hq : Quiet s s') (hlock : s'.plock = s.plock) :
    ({ s' with due := fun z x => if x = y then false else s'.due z x }.goto y
      (.here .run)).Inv := by
  have hruns := h.runs c y (by rw [hc]; rfl)
  rw [hp] at hruns
  refine h.own hc (p := .here .run) hq.cpu (by simp only [State.goto, hq.pos]) ?_ ?_ ?_ ?_ ?_ ?_
  · rw [hp]
    exact .same hlock rfl
  · show s'.state y = .running ∧ True
    rw [hq.state]
    exact ⟨hruns.1, trivial⟩
  · exact fun x _ => ⟨congrFun hq.state x, congrFun hq.chan x, congrFun hq.roused x⟩
  · intro z x hd
    change (if x = y then false else s'.due z x) = true at hd
    split_ifs at hd
    rwa [← hq.due]
  · exact fun x _ => ⟨by rw [hp]; rfl, fun hx => nomatch hx⟩
  · intro z hd
    change (if y = y then false else s'.due z y) = true at hd
    rw [if_pos rfl] at hd
    cases hd

/-- `wakeup` returns. -/
theorem Inv.wakeup_returns {q : ℕ} (hp : s.pos y = .here (.wake chan q)) :
    ({ s with due := update s.due y fun _ => false }.goto y (.here .run)).Inv := by
  have hruns := h.runs c y (by rw [hc]; rfl)
  rw [hp] at hruns
  refine h.own hc (p := .here .run) rfl rfl ?_ ⟨hruns.1, trivial⟩ (fun x _ => ⟨rfl, rfl, rfl⟩)
    ?_ ?_ ?_
  · rw [hp]
    exact .same rfl rfl
  · intro z x hd
    change update s.due y (fun _ => false) z x = true at hd
    by_cases hz : z = y
    · rw [hz, update_self] at hd
      cases hd
    · rwa [update_of_ne hz] at hd
  · intro x hd
    change update s.due y (fun _ => false) y x = true at hd
    rw [update_self] at hd
    cases hd
  · exact fun z _ => ⟨by rw [hp]; rfl, id⟩

end

/-- A `RUNNABLE` thread has no CPU while the scheduler holds the lock of its process. -/
theorem Inv.off_of_runnable (h : s.Inv) (hc : s.cpu c = .scan x.1 t) (hx : s.state x = .runnable)
    (c' : C) : (s.cpu c').thread ≠ some x := by
  intro hc'
  have hruns := h.runs c' x hc'
  cases hp : s.pos x with
  | yield3 b =>
    have hrun := h.runs_of_thread hc' (by rw [hp]; rfl)
    have heq : c = c' := h.locks.exclusive (l := x.1) (by simp only [holds, hc])
      (by rw [Inv.holds_run hrun, hp]; rfl)
    rw [← heq, hc] at hrun
    cases hrun
  | _ =>
    rw [hp] at hruns
    simp only [Pos.Runs, hx, reduceCtorEq, false_and] at hruns

/-- A step of a CPU that takes or gives back a lock which is not that of a process. -/
theorem Inv.quiet (h : s.Inv) (hq : Quiet s s') (hlock : s'.plock = s.plock) : s'.Inv where
  locks := by
    rw [hlock]
    refine h.locks.congr fun c q => ?_
    simp only [holds, hq.cpu, hq.pos]
  uniq := by
    rw [hq.cpu]
    exact h.uniq
  picked := by
    rw [hq.cpu, hq.pos]
    exact h.picked
  runs := by
    rw [hq.cpu, hq.pos, hq.state, hq.chan, hq.roused]
    exact h.runs
  off := by
    rw [hq.cpu, hq.pos, hq.state, hq.chan, hq.roused]
    exact h.off
  due := by
    unfold Owed
    rw [hq.due, hq.pos, hq.roused]
    exact h.due

/-- The call of `wakeup`. -/
theorem Inv.wakeup (h : s.Inv) (hc : s.cpu c = .run y) (hp : s.pos y = .here .run) (chan : Chan) :
    ({ s with due := update s.due y (s.owes y chan) }.goto y
      (.here (.wake chan 0))).Inv := by
  have hruns := h.runs c y (by rw [hc]; rfl)
  rw [hp] at hruns
  refine h.moves hc (p := .here (.wake chan 0))
    ⟨rfl, rfl, .same rfl (by rw [hp]; rfl), hruns, fun _ _ => .inl ⟨rfl, rfl, rfl⟩⟩ ?_
  intro z x hd
  change update s.due y (s.owes y chan) z x = true at hd
  show z ≠ x ∧ (∃ chan' lk,
      (update s.pos y (.here (.wake chan 0)) z).wakes = some chan' ∧
        (update s.pos y (.here (.wake chan 0)) x).asleep = some (chan', lk)) ∧
      ((update s.pos y (.here (.wake chan 0)) z).Passed x → s.roused x = true)
  by_cases hz : z = y
  · subst hz
    rw [update_self] at hd ⊢
    simp only [owes, Bool.and_eq_true, decide_eq_true_eq, map_eq_some_iff] at hd
    obtain ⟨⟨⟨chan', lk⟩, hx, rfl⟩, -⟩ := hd
    have hne : z ≠ x := by
      rintro rfl
      rw [hp] at hx
      cases hx
    refine ⟨hne, ⟨chan', lk, rfl, ?_⟩, ?_⟩
    · rw [update_of_ne hne.symm]
      exact hx
    · rintro ⟨_, _, hw, hlt⟩
      cases hw
      cases hlt
  · rw [update_of_ne hz] at hd ⊢
    have hne : x ≠ y := by
      rintro rfl
      exact h.not_due (by rw [hp]; rfl) z hd
    rw [update_of_ne hne]
    exact h.due z x hd

section

variable [DecidableEq C]

/-- The switch from thread `y` to the scheduler of its CPU. -/
theorem Inv.sched (h : s.Inv) (hc : s.cpu c = .run y) (hs : s.sched c y p = some s')
    (hholds : (s.pos y).holds y.1 = some y.1) (hoff : p.Off (s.state y) (s.chan y) (s.roused y))
    (hlike : p.Like (s.pos y)) : s'.Inv := by
  unfold State.sched at hs
  split_ifs at hs
  cases hs
  have hcpu : ((s.goto y p).setCpu c (.scan y.1 (y.2 + 1))).cpu c = .scan y.1 (y.2 + 1) :=
    update_self ..
  refine h.of_step hc hcpu (fun c' hne => update_of_ne hne ..) ?_ ?_ nofun nofun nofun ?_
    (fun x _ _ => .inl ⟨rfl, rfl, rfl⟩) ?_
  · intro x hx
    have hxy : x ≠ y := fun hxy => hx (hxy ▸ rfl)
    exact update_of_ne hxy ..
  · refine .same rfl ?_
    rw [Inv.holds_run hc, hholds]
    simp only [holds, hcpu]
  · rintro x ⟨⟩ _
    show (update s.pos y p y).Off _ _ _
    rw [update_self]
    exact hoff
  · exact h.owed_of_moved rfl (fun _ _ hd => hd) (fun _ _ _ hr => hr)
      (fun x _ => ⟨hlike.1, fun hp => .inl (hlike.2.2 x hp)⟩) fun _ _ => hlike.2.1

variable [DecidableEq L]

theorem Inv.threadStep (h : s.Inv) (hc : s.cpu c = .run y) (hs : s.threadStep c y = some s') :
    s'.Inv := by
  have hruns := h.runs c y (by rw [hc]; rfl)
  unfold State.threadStep at hs
  cases hp : s.pos y <;> rw [hp] at hruns hs
  case here b =>
    cases b with
    | run => cases hs
    | wake chan q =>
      simp only at hs
      split_ifs at hs with hq
      · obtain ⟨u, hu, rfl⟩ := map_eq_some_iff.1 hs
        obtain ⟨hquiet, hlock⟩ := acquireProc_spec hu
        refine h.goto hc hquiet ?_ hruns.1 ?_ <;> rw [hp]
        · exact .acquire hlock rfl rfl
        · exact ⟨rfl, rfl, fun x hx => ⟨chan, q, rfl, hx.resolve_right fun hx => nomatch hx.2⟩⟩
      · cases hs
        exact h.wakeup_returns hc hp
    | reacquire chan lk =>
      obtain ⟨u, hu, rfl⟩ := map_eq_some_iff.1 hs
      obtain ⟨hquiet, hlock, -⟩ := acquireLk_spec hu
      exact h.sleep_returns hc hp hquiet hlock
  case sleep1 chan lk | yield1 b =>
    obtain ⟨u, hu, rfl⟩ := map_eq_some_iff.1 hs
    obtain ⟨hquiet, hlock⟩ := acquireProc_spec hu
    refine h.goto hc hquiet ?_ hruns ?_ <;> rw [hp]
    · exact .acquire hlock rfl rfl
    · exact ⟨rfl, rfl, fun _ hx => hx⟩
  case sleep2 chan lk =>
    obtain ⟨u, hu, rfl⟩ := map_eq_some_iff.1 hs
    obtain ⟨hquiet, hlock⟩ := releaseLk_spec hu
    exact h.sleep_releases hc hp hquiet hlock
  case sleep3 chan lk =>
    cases hs
    exact h.local hc hp rfl rfl rfl rfl rfl rfl ⟨hruns.1, update_self .., hruns.2⟩
      (fun x hx => ⟨rfl, update_of_ne hx ..⟩) ⟨rfl, rfl, fun _ => id⟩
  case sleep4 chan lk =>
    cases hs
    exact h.local hc hp rfl rfl rfl rfl rfl rfl ⟨update_self .., hruns.2⟩
      (fun x hx => ⟨update_of_ne hx .., rfl⟩) ⟨rfl, rfl, fun _ => id⟩
  case sleep5 chan lk =>
    refine h.sched hc hs ?_ (.inl hruns) ?_ <;> rw [hp]
    · rfl
    · exact ⟨rfl, rfl, fun _ hx => hx⟩
  case slept chan lk =>
    cases hs
    exact h.local hc hp rfl rfl rfl rfl rfl rfl ⟨hruns.1, update_self .., hruns.2⟩
      (fun x hx => ⟨rfl, update_of_ne hx ..⟩) ⟨rfl, rfl, fun _ => id⟩
  case sleep6 chan lk =>
    obtain ⟨u, hu, rfl⟩ := map_eq_some_iff.1 hs
    obtain ⟨hquiet, hlock⟩ := releaseProc_spec hu
    refine h.goto hc hquiet ?_ hruns ?_ <;> rw [hp]
    · exact .release hlock rfl rfl
    · exact ⟨rfl, rfl, fun _ hx => nomatch hx⟩
  case waking chan q t =>
    simp only at hs
    split_ifs at hs with ht
    · cases hs
      exact h.waking hc hp ht
    · obtain ⟨u, hu, rfl⟩ := map_eq_some_iff.1 hs
      obtain ⟨hquiet, hlock⟩ := releaseProc_spec hu
      refine h.goto hc hquiet ?_ ⟨hruns, trivial⟩ ?_ <;> rw [hp]
      · exact .release hlock rfl rfl
      · refine ⟨rfl, rfl, ?_⟩
        rintro x ⟨_, _, hw, hlt⟩
        cases hw
        rcases Nat.lt_succ_iff_lt_or_eq.1 hlt with hlt | heq
        · exact .inl hlt
        · exact .inr ⟨Fin.ext heq, x.2.isLt.trans_le (not_lt.1 ht)⟩
  case yield2 b =>
    cases hs
    exact h.local hc hp rfl rfl rfl rfl rfl rfl ⟨update_self .., hruns.2⟩
      (fun x hx => ⟨update_of_ne hx .., rfl⟩) ⟨rfl, rfl, fun _ => id⟩
  case yield3 b =>
    refine h.sched hc hs ?_ ⟨.inl hruns.1, hruns.2⟩ ?_ <;> rw [hp]
    · rfl
    · exact ⟨rfl, rfl, fun _ hx => hx⟩
  case yielded b =>
    obtain ⟨u, hu, rfl⟩ := map_eq_some_iff.1 hs
    obtain ⟨hquiet, hlock⟩ := releaseProc_spec hu
    refine h.goto hc hquiet ?_ hruns ?_ <;> rw [hp]
    · exact .release hlock rfl rfl
    · exact ⟨rfl, rfl, fun _ hx => hx⟩

/-! ### The scheduler -/

omit [DecidableEq L] in
/-- A step of `scheduler` without a thread. -/
theorem Inv.setCpu (h : s.Inv) (hq : Quiet s s') {p : Cpu} (hnone : (s.cpu c).thread = none)
    (hp : p.thread = none)
    (hlocks : LockStep s.plock s'.plock c (s.holds c) ((s'.setCpu c p).holds c)) :
    (s'.setCpu c p).Inv := by
  have hp' : ∀ x, p.thread ≠ some x := fun x => by rw [hp]; nofun
  refine h.of_step rfl (update_self ..) ?_ (fun x _ => congrFun hq.pos x) hlocks
    (fun x hx => absurd hx (hp' x)) ?_ (fun x hx => absurd hx (hp' x)) ?_ ?_ ?_
  · intro c' hne
    exact (update_of_ne hne ..).trans (congrFun hq.cpu c')
  · intro x hx
    exact absurd (hx ▸ rfl) (hp' x)
  · intro x hx
    rw [hnone] at hx
    cases hx
  · exact fun x _ _ => .inl ⟨congrFun hq.state x, congrFun hq.chan x, congrFun hq.roused x⟩
  · intro z x hd
    have hd' : s.due z x = true := by
      rw [← hq.due]
      exact hd
    have howed := h.due z x hd'
    rw [← hq.pos, ← hq.roused] at howed
    exact howed

omit [DecidableEq L] in
/-- `scheduler` chooses a thread. -/
theorem Inv.pick (h : s.Inv) (hc : s.cpu c = .scan x.1 t) (hx : s.state x = .runnable) :
    ({ s with state := update s.state x .running }.setCpu c (.picked x)).Inv := by
  set s' : State C L :=
    { s with state := update s.state x .running }.setCpu c (.picked x) with hs'
  have hoff := h.off_of_runnable hc hx
  have hcpu : s'.cpu c = .picked x := update_self ..
  have hstate : s'.state x = .running := update_self ..
  have hrest := h.off x hoff
  have hparked : (s.pos x).parked = true ∧
      (s.pos x).Runs .running (s.chan x) (s.roused x) := by
    cases hp : s.pos x with
    | slept chan lk =>
      rw [hp, hx] at hrest
      exact ⟨rfl, rfl, (hrest.resolve_left fun hs => nomatch hs.1).2⟩
    | yielded b =>
      rw [hp] at hrest
      exact ⟨rfl, rfl, hrest.2⟩
    | _ => rw [hp] at hrest; exact hrest.elim
  refine h.of_step hc hcpu (fun c' hne => update_of_ne hne ..) (fun _ _ => rfl) ?_ ?_ ?_
    ?_ nofun ?_ h.due
  · refine .same rfl ?_
    simp only [holds, hc, hcpu]
  · rintro z ⟨⟩
    exact .inr hoff
  · rintro z ⟨⟩
    exact hparked.1
  · rintro z ⟨⟩
    rw [hstate]
    exact hparked.2
  · intro z _ hz
    have hne : z ≠ x := fun heq => hz (heq ▸ rfl)
    exact .inl ⟨update_of_ne hne .., rfl, rfl⟩

omit [DecidableEq L] in
/-- The switch from `scheduler` to a thread. -/
theorem Inv.switch (h : s.Inv) (hc : s.cpu c = .picked x) : (s.setCpu c (.run x)).Inv := by
  have hcpu : (s.setCpu c (.run x)).cpu c = .run x := update_self ..
  refine h.of_step hc hcpu (fun c' hne => update_of_ne hne ..) (fun _ _ => rfl) ?_
    (fun z hz => .inl hz) nofun (fun z hz => h.runs c z (by rw [hc]; exact hz))
    (fun z hz hz' => absurd hz hz') (fun _ _ _ => .inl ⟨rfl, rfl, rfl⟩) h.due
  · refine .same rfl ?_
    have hpark := h.picked c x hc
    rw [Inv.holds_run hcpu]
    simp only [holds, hc]
    show (s.pos x).holds x.1 = some x.1
    cases hp : s.pos x with
    | slept _ _ | yielded _ => rfl
    | _ => rw [hp] at hpark; cases hpark

theorem Inv.go (h : s.Inv) (hs : s.go c = some s') : s'.Inv := by
  unfold State.go at hs
  cases hc : s.cpu c with
  | idle q =>
    rw [hc] at hs
    obtain ⟨u, hu, rfl⟩ := map_eq_some_iff.1 hs
    obtain ⟨hquiet, hlock⟩ := acquireProc_spec hu
    refine h.setCpu hquiet (by rw [hc]; rfl) rfl (.acquire hlock ?_ ?_)
    · simp only [holds, hc]
    · simp only [holds, State.setCpu, update_self]
  | scan q t =>
    rw [hc] at hs
    simp only at hs
    split_ifs at hs with ht hrun
    · cases hs
      exact h.pick (x := (q, ⟨t, ht⟩)) hc hrun
    · cases hs
      refine h.setCpu (Quiet.refl s) (by rw [hc]; rfl) rfl (.same rfl ?_)
      simp only [holds, State.setCpu, update_self, hc]
    · obtain ⟨u, hu, rfl⟩ := map_eq_some_iff.1 hs
      obtain ⟨hquiet, hlock⟩ := releaseProc_spec hu
      refine h.setCpu hquiet (by rw [hc]; rfl) rfl (.release hlock ?_ ?_)
      · simp only [holds, hc]
      · simp only [holds, State.setCpu, update_self]
  | picked x =>
    rw [hc] at hs
    cases hs
    exact h.switch hc
  | run x =>
    rw [hc] at hs
    exact h.threadStep hc hs

/-! ### Runs -/

omit [DecidableEq C] in
theorem outside_spec (h : s.outside c = some y) : s.cpu c = .run y ∧ s.pos y = .here .run := by
  unfold outside at h
  cases hc : s.cpu c with
  | run z =>
    rw [hc] at h
    simp only at h
    split_ifs at h with hp
    cases h
    exact ⟨rfl, hp⟩
  | _ => rw [hc] at h; cases h

theorem Inv.step (h : s.Inv) {a : Act C L} (hs : s.step a = some s') : s'.Inv := by
  cases a with
  | go c => exact h.go hs
  | acquire c lk =>
    obtain ⟨y, hy, hs⟩ := bind_eq_some_iff.1 hs
    obtain ⟨hq, hlock, -⟩ := acquireLk_spec hs
    exact h.quiet hq hlock
  | release c lk =>
    obtain ⟨y, hy, hs⟩ := bind_eq_some_iff.1 hs
    obtain ⟨hq, hlock⟩ := releaseLk_spec hs
    exact h.quiet hq hlock
  | sleep c chan lk =>
    obtain ⟨y, hy, hs⟩ := bind_eq_some_iff.1 hs
    split_ifs at hs
    cases hs
    obtain ⟨hc, hp⟩ := outside_spec hy
    have hruns := h.runs c y (by rw [hc]; rfl)
    rw [hp] at hruns
    refine h.goto hc (Quiet.refl s) ?_ hruns.1 ?_ <;> rw [hp]
    · exact .same rfl rfl
    · exact ⟨rfl, rfl, fun _ hx => nomatch hx⟩
  | wakeup c chan =>
    obtain ⟨y, hy, rfl⟩ := map_eq_some_iff.1 hs
    obtain ⟨hc, hp⟩ := outside_spec hy
    exact h.wakeup hc hp chan
  | yield c =>
    simp only [State.step] at hs
    cases hc : s.cpu c with
    | run y =>
      rw [hc] at hs
      simp only at hs
      cases hp : s.pos y with
      | here b =>
        rw [hp] at hs
        simp only at hs
        split_ifs at hs
        cases hs
        have hruns := h.runs c y (by rw [hc]; rfl)
        rw [hp] at hruns
        refine h.goto hc (Quiet.refl s) ?_ hruns ?_ <;> rw [hp]
        · exact .same rfl rfl
        · exact ⟨rfl, rfl, fun _ hx => hx⟩
      | _ => rw [hp] at hs; cases hs
    | _ => rw [hc] at hs; cases hs

theorem Inv.looks (h : s.Inv) (hc : s.cpu c = .run y) (hp : s.pos y = .waking chan x.1 x.2)
    (hd : s.due y x = true) :
    (s.state x = .sleeping ∧ s.chan x = some chan ∨
      s.roused x = true ∧ (s.state x = .runnable ∨ s.state x = .running)) ∧
    ∃ s', s.step (.go c) = some s' ∧ s'.pos y = .waking chan x.1 (x.2 + 1) ∧
      (s'.state x = .runnable ∨ s'.state x = .running) := by
  obtain ⟨hne, ⟨chan', lk, hwakes, hx⟩, -⟩ := h.due y x hd
  rw [hp] at hwakes
  cases hwakes
  have hq : (s.pos y).holds y.1 = some x.1 := by rw [hp]; rfl
  refine ⟨?_, (s.wakeThread y chan x).goto y (.waking chan x.1 (x.2 + 1)), ?_, ?_, ?_⟩
  · rcases h.asleep_or_roused hc hq hne hx with hr | hsleeping
    · exact .inr ⟨hr, h.roused_state hx hr⟩
    · exact .inl hsleeping
  · simp only [State.step, State.go, hc, State.threadStep, hp, dif_pos x.2.isLt]
  · exact update_self ..
  · -- the look has passed `x`
    have hnext := h.waking hc hp x.2.isLt
    have hdue : ((s.wakeThread y chan x).goto y (.waking chan x.1 (x.2 + 1))).due y x = true := by
      unfold wakeThread
      split_ifs <;> exact hd
    obtain ⟨-, ⟨chan', lk', -, hx'⟩, hpassed⟩ := hnext.due y x hdue
    refine hnext.roused_state hx' (hpassed ?_)
    show (update (s.wakeThread y chan x).pos y _ y).Passed x
    rw [update_self]
    exact .inr ⟨rfl, Nat.lt_succ_self _⟩

theorem Inv.sleep_returned (h : s.Inv) {lk : L} (hc : s.cpu c = .run x)
    (hp : s.pos x = .here (.reacquire chan lk)) (hs : s.step (.go c) = some s') :
    s'.pos x = .here .run ∧ s'.lock lk = some c ∧ s'.chan x = none := by
  have hruns := h.runs c x (by rw [hc]; rfl)
  rw [hp] at hruns
  simp only [State.step, State.go, hc, State.threadStep, hp] at hs
  obtain ⟨u, hu, rfl⟩ := map_eq_some_iff.1 hs
  obtain ⟨hq, -, hlock⟩ := acquireLk_spec hu
  refine ⟨update_self .., hlock, ?_⟩
  show u.chan x = none
  rw [hq.chan]
  exact hruns.2.1

theorem Start.reach {s0 : State C L} (h0 : s0.Start) {tr : List (Act C L)}
    (h : Reach State.step Always s0 tr s) : s.Inv :=
  h.state_invariant h0.inv fun _ _ _ hi _ hs => hi.step hs

/-- **No wakeup is lost.**  A wakeup that is about to look at a sleeper which it owes finds it
`SLEEPING` on the channel, or woken and `RUNNABLE` or `RUNNING`; after the look, and when the call
returns, the sleeper is `RUNNABLE` or `RUNNING`.  A call of `sleep` returns with its lock held and
without a channel. -/
theorem wakeup_not_lost {s₀ : State C L} (h₀ : s₀.Start) {tr : List (Act C L)}
    (h : Reach State.step Always s₀ tr s) :
    (∀ c y x chan, s.cpu c = .run y → s.pos y = .waking chan x.1 x.2 → s.due y x = true →
      (s.state x = .sleeping ∧ s.chan x = some chan ∨
        s.roused x = true ∧ (s.state x = .runnable ∨ s.state x = .running)) ∧
      ∃ s', s.step (.go c) = some s' ∧ s'.pos y = .waking chan x.1 (x.2 + 1) ∧
        (s'.state x = .runnable ∨ s'.state x = .running)) ∧
    (∀ y x chan q, s.pos y = .here (.wake chan q) → NPROC ≤ q → s.due y x = true →
      s.state x = .runnable ∨ s.state x = .running) ∧
    ∀ c x chan lk s', s.cpu c = .run x → s.pos x = .here (.reacquire chan lk) →
      s.step (.go c) = some s' → s'.pos x = .here .run ∧ s'.lock lk = some c ∧
      s'.chan x = none := by
  have hinv := h₀.reach h
  refine ⟨fun c y x chan hc hp hd => ?_, fun y x chan q hp hq hd => ?_,
    fun c x chan lk s' hc hp hs => ?_⟩
  · exact hinv.looks hc hp hd
  · obtain ⟨-, ⟨chan', lk, -, hx⟩, hpassed⟩ := hinv.due y x hd
    refine hinv.roused_state hx (hpassed ?_)
    rw [hp]
    exact ⟨chan, q, rfl, x.1.isLt.trans_le hq⟩
  · exact hinv.sleep_returned hc hp hs

end

/-- Two CPUs and two threads of one process, both ready to start. -/
def twoThreads : State (Fin 2) Unit where
  cpu _ := .idle 0
  pos _ := .yielded .run
  state x := if x = (0, 0) ∨ x = (0, 1) then .runnable else .unused
  chan _ := none
  used q := decide (q = 0)
  plock _ := none
  lock _ := none
  noff _ := 0
  since _ _ := false
  due _ _ := false
  roused _ := false

/-- Thread 1 takes the lock and calls `wakeup` while thread 0 is between `release(lk)` and its
switch in `sleep`. -/
def handOver : List (Act (Fin 2) Unit) :=
  List.replicate 4 (.go 0) ++ List.replicate 5 (.go 1) ++
  [.acquire 0 (), .sleep 0 (.other 7) (), .go 0, .go 0, .acquire 1 (), .wakeup 1 (.other 7)] ++
  List.replicate 11 (.go 0) ++ [.go 1]

theorem wakeup_not_lost_two : ∃ s : State (Fin 2) Unit,
    run State.step twoThreads handOver = some s ∧ s.due (0, 1) (0, 0) = true ∧
    s.state (0, 0) = .sleeping ∧ s.chan (0, 0) = some (.other 7) := by
  obtain ⟨s, hs, hc, hp, hd, hr⟩ : ∃ s ∈ run State.step twoThreads handOver, s.cpu 1 = .run (0, 1) ∧
      s.pos (0, 1) = .waking (.other 7) 0 0 ∧ s.due (0, 1) (0, 0) = true ∧
      s.roused (0, 0) = false := by decide
  have hstart : twoThreads.Start := by
    refine ⟨fun _ => ⟨0, rfl⟩, fun _ => rfl, fun x => ?_, fun _ => rfl, fun _ _ => rfl⟩
    simp only [twoThreads]
    split_ifs <;> exact ⟨nofun, nofun⟩
  have hreach := reach_always hs
  obtain ⟨hlook, -⟩ := (wakeup_not_lost hstart hreach).1 1 (0, 1) (0, 0) (.other 7) hc hp hd
  refine ⟨s, hs, hd, hlook.resolve_right fun hroused => ?_⟩
  rw [hr] at hroused
  cases hroused.1

end Xv6.Sleep.State
