import Xv6.Smp.Kin

/-!
# What a step of the machine does

`step_does` takes the functions of the machine apart, once: every careful step from a state with
the invariant has one of the effects of `Effect`, and does one of the things of `Kin` to the
families.
-/

namespace Xv6.Smp

open Function Proc Option List

variable {C M K : Type} [DecidableEq C]

namespace Machine.Inv

variable {s : Machine C M}

omit [DecidableEq C]

theorem state_here {c : C} {x : Tid} {b : Base} (h : s.Inv) (hx : s.cpu c = .run x)
    (hp : s.pos x = .here b) : b.Allows (s.state x) := by
  have hruns := h.runs c x hx
  rwa [hp] at hruns

theorem unused_threads {q : ProcId} (h : s.Inv) (hq : (s.proc q).state = .unused) (t : ThreadId) :
    s.state (q, t) = .unused := by
  have hco := h.coherent q t
  rwa [hq] at hco

end Machine.Inv

/-- What a careful step of CPU `c` does. -/
structure Does (mon : Monitor M K) (c : C) (s s' : Machine C M) : Prop where
  effect : Effect mon c s s'
  kin : Kin c s s'

/-- The machine differs in the locks, and may in the processes and their numbers. -/
structure Kept (s t : Machine C M) : Prop where
  cpu : t.cpu = s.cpu
  pos : t.pos = s.pos
  mem : t.mem = s.mem
  init : t.initproc = s.initproc
  pid : s.nextpid ≤ t.nextpid

/-- The position has no part in a `fork` or an `exit`, nor in the scan of `wait`. -/
def Base.outside (b : Base) : Bool :=
  !b.last && b.forking.isNone && !b.exits && !b.kin && b.fresh.isNone && b.grown.isNone

variable {mon : Monitor M K} {s s' t : Machine C M} {c : C} {x : Tid} {b b₀ : Base} {p : Pos}
  {q : ProcId} {lock : Lk → Option C}

section

variable (hx : s.cpu c = .run x) (hp : s.pos x = p)

include hx hp

/-- The thread goes on at `b`. -/
theorem does_goto (h : Kept s t)
    (hq : Quiet s.proc t.proc) (hl : LockMove c s.lock t.lock (p.locks x.1) (b.locks x.1))
    (hflow : Flow x.1 p b) (hbusy : b.inner = true ∨ p.inner = false ∨ mon.busy s.mem x = false)
    (hnaps : Naps (some x) s (t.goto x b)) (hdeed : Deed s (t.goto x b) x p (.here b)) :
    Does mon c s (t.goto x b) :=
  ⟨stay_here hx hp h.cpu h.pos h.mem hq hl hflow hbusy,
    kin_goto hx hp h.pos h.pid h.init hnaps hdeed⟩

/-- The thread goes on at `b` after at most one lock operation. -/
theorem does_lock (hl : LockMove c s.lock lock (p.locks x.1) (b.locks x.1)) (hflow : Flow x.1 p b)
    (hbusy : b.inner = true ∨ p.inner = false ∨ mon.busy s.mem x = false)
    (hdeed : Deed s (({ s with lock := lock } : Machine C M).goto x b) x p (.here b)) :
    Does mon c s (({ s with lock := lock } : Machine C M).goto x b) :=
  does_goto hx hp ⟨rfl, rfl, rfl, rfl, le_rfl⟩ (.refl _) hl hflow hbusy (.refl _ rfl) hdeed

theorem does_move (hl : LockMove c s.lock lock (p.locks x.1) (b.locks x.1)) (hflow : Flow x.1 p b)
    (hbusy : b.inner = true ∨ p.inner = false ∨ mon.busy s.mem x = false)
    (hparting : p.parting = false) (hkin : b.kin = false)
    (hfresh : ∀ np, b.fresh = some np → p.fresh = some np)
    (hgrown : ∀ np, b.grown = some np → p.grown = some np)
    (hleaves : Pos.leaves (.here b) → p.leaves ∨ x.1 ≠ s.initproc) :
    Does mon c s (({ s with lock := lock } : Machine C M).goto x b) :=
  does_lock hx hp hl hflow hbusy (.move (fun _ => .refl _) hparting hkin hfresh hgrown hleaves)

end

omit [DecidableEq C] in
theorem deed_outside (hparting : p.parting = false) (hb : b.outside = true)
    (hstill : ∀ q, Still (s.proc q) (s'.proc q)) : Deed s s' x p (.here b) := by
  simp only [Base.outside, Bool.and_eq_true, Bool.not_eq_true', isNone_iff_eq_none] at hb
  obtain ⟨⟨⟨⟨-, hexits⟩, hkin⟩, hfresh⟩, hgrown⟩ := hb
  refine .move hstill hparting hkin (fun _ h => ?_) (fun _ h => ?_) fun h => ?_
  · exact absurd (hfresh.symm.trans h) nofun
  · exact absurd (hgrown.symm.trans h) nofun
  · exact absurd (hexits.symm.trans h.1) nofun

theorem Flow.outside (hallows : ∀ st, b₀.Allows st → b.Allows st) (hne : b₀ ≠ .exit2)
    (hb : b.outside = true) : Flow q (.here b₀) b := by
  simp only [Base.outside, Bool.and_eq_true, Bool.not_eq_true', isNone_iff_eq_none] at hb
  obtain ⟨⟨⟨⟨⟨hlast, hfork⟩, hexits⟩, -⟩, -⟩, -⟩ := hb
  refine .here hallows (fun h => ?_) (fun _ h => ?_) hne fun h => ?_
  · exact absurd (hlast.symm.trans h) nofun
  · exact absurd (hfork.symm.trans h) nofun
  · exact absurd (hexits.symm.trans h) nofun

section

variable (hx : s.cpu c = .run x)

include hx

/-- A process changes that stays what it is to its family, and the thread goes on outside. -/
theorem does_outside {p' : Proc} (hp : s.pos x = .here b₀) (h : Kept s t)
    (hproc : t.proc = update s.proc q p') (hr : Roused (s.proc q) p') (hstill : Still (s.proc q) p')
    (hnaps : ∀ u, (p'.threads u).state = .sleeping → ((s.proc q).threads u).state = .sleeping ∧
      (p'.threads u).chan = ((s.proc q).threads u).chan)
    (hl : LockMove c s.lock t.lock (b₀.locks x.1) (b.locks x.1))
    (hallows : ∀ st, b₀.Allows st → b.Allows st)
    (hbusy : b.inner = true ∨ b₀.inner = false ∨ mon.busy s.mem x = false) (hne : b₀ ≠ .exit2)
    (hparting : b₀.parting = false) (hb : b.outside = true) : Does mon c s (t.goto x b) := by
  refine does_goto hx hp h (hproc ▸ .update hr) hl (.outside hallows hne hb) hbusy
    (.update hproc fun u _ => hnaps u) (deed_outside hparting hb fun r => ?_)
  have : (t.goto x b).proc = update s.proc q p' := hproc
  rw [this]
  exact hstill.update r

/-- Nothing but a lock changes, and the thread goes on outside. -/
theorem does_plain (hp : s.pos x = .here b₀)
    (hl : LockMove c s.lock lock (b₀.locks x.1) (b.locks x.1))
    (hbusy : b.inner = true ∨ b₀.inner = false ∨ mon.busy s.mem x = false)
    (hallows : ∀ st, b₀.Allows st → b.Allows st := by exact fun _ h => h)
    (hne : b₀ ≠ .exit2 := by nofun) (hparting : b₀.parting = false := by rfl)
    (hb : b.outside = true := by rfl) :
    Does mon c s (({ s with lock := lock } : Machine C M).goto x b) :=
  does_lock hx hp hl (.outside hallows hne hb) hbusy (deed_outside hparting hb fun _ => .refl _)

/-- `yield`. -/
theorem yieldStep_does (hp : s.pos x = .here b)
    (hfree : b.locks x.1 = []) (hb : b.Allows .running) (hs : s.yieldStep c x b = some s') :
    Does mon c s s' := by
  obtain ⟨lock, hlock, ⟨⟩⟩ := acquire_bind hs
  have hkin : b.kin = false := kin_of_unlocked hfree
  constructor
  · have hsets := Sets.setThread s.proc x { s.thread x with state := .runnable }
    refine .leave x b (.resumed b) .runnable hx hp hb rfl rfl rfl hsets (.inl rfl)
      (lockEffect_swtch hx hp (update_self _ _ _) ?_) ⟨hfree, hb⟩ rfl rfl rfl rfl
    rw [hfree]
    exact .acquire_cons hlock
  · refine kin_swtch hx hp rfl rfl rfl (.setThread rfl (.inl rfl))
      (.move (Still.update ⟨.refl _, rfl, rfl, rfl⟩) (Base.parting_of_kin hkin) hkin (fun _ h => h)
        (fun _ h => h) fun h => .inl ⟨h.1, ?_⟩)
    rintro e he
    cases he
    simp [Base.locks] at hfree

/-- `sched` in `sleep`. -/
theorem sleep_does {chan : Chan} {k : Sleeper} (hp : s.pos x = .here (.sleep1 chan k))
    (hl : LockMove c s.lock lock (.proc x.1 :: k.locks) [.proc x.1]) :
    Does mon c s ((({ s with lock := lock } : Machine C M).setThread x
      { s.thread x with chan := some chan, state := .sleeping }).swtch c x (.slept k)) := by
  constructor
  · have hsets := Sets.setThread s.proc x { s.thread x with chan := some chan, state := .sleeping }
    exact .leave x _ (.slept k) .sleeping hx hp k.allows_running rfl rfl rfl hsets (.inr rfl)
      (lockEffect_swtch hx hp (update_self _ _ _) hl) trivial rfl rfl rfl rfl
  · refine kin_swtch hx hp rfl rfl rfl (.setThread rfl (.inl rfl)) ?_
    have hstill : ∀ q, Still (s.proc q) (update s.proc x.1 ((s.proc x.1).setThread x.2
        { s.thread x with chan := some chan, state := .sleeping }) q) :=
      Still.update ⟨.refl _, rfl, rfl, rfl⟩
    cases k with
    | other w => exact .move hstill rfl rfl nofun nofun fun hl => .inl ⟨hl.1, nofun⟩
    | join id => exact .move hstill rfl rfl nofun nofun fun hl => absurd hl.1 Bool.false_ne_true
    | wait =>
      refine .sleep hstill ?_
      simp [Machine.thread, Machine.swtch, Machine.setThread, Machine.setProc]

theorem die_does (hp : s.pos x = .here b) (hb : b = .kexit4 ∨ b = .exit2)
    (hl : LockMove c s.lock lock (b.locks x.1) [.proc x.1]) :
    Does mon c s (({ s with lock := lock } : Machine C M).swtch c x .dead) := by
  refine ⟨.die x b hx hp hb rfl rfl rfl rfl (lockEffect_swtch hx hp (update_self _ _ _) hl),
    kin_swtch hx hp rfl rfl rfl (.refl _ rfl) (.move (fun _ => .refl _) ?_ rfl nofun nofun
      fun hl => absurd hl.1 Bool.false_ne_true)⟩
  rcases hb with rfl | rfl <;> rfl

section

variable (hp : s.pos x = .here b₀) (hl : LockMove c s.lock lock (b₀.locks x.1) [.wait])

include hp hl

/-- `wait` goes on with its scan. -/
theorem waitFrom_does {k : ℕ} {o : Base}
    (hallows : ∀ st, b₀.Allows st → st = .running) (hne : b₀ ≠ .exit2)
    (hbusy : b₀.inner = false ∨ mon.busy s.mem x = false) (hw : s.Guarded x)
    (hk : k = 0 ∧ b₀.parting = false ∨
      ∃ np0 : ProcId, Pos.here b₀ = .here (.waitChecked np0 false) ∧ k = np0.val + 1)
    (ho : s.nextChild x.1 k = none →
      Does mon c s (({ s with lock := lock } : Machine C M).goto x o)) :
    Does mon c s (({ s with lock := lock } : Machine C M).waitFrom x k o) := by
  unfold Machine.waitFrom
  split
  · next np hnext =>
    exact does_lock hx hp hl (.here hallows nofun nofun hne nofun) (.inr hbusy)
      (.scan k hk hw rfl hnext)
  · next hnone => exact ho hnone

/-- `kthread_join` goes on with its scan. -/
theorem joinFrom_does {id : ℤ} {k : ℕ} {o : Base}
    (hallows : ∀ st, b₀.Allows st → st = .running) (hne : b₀ ≠ .exit2)
    (hbusy : b₀.inner = false ∨ mon.busy s.mem x = false) (hparting : b₀.parting = false)
    (ho : Does mon c s (({ s with lock := lock } : Machine C M).goto x o)) :
    Does mon c s (({ s with lock := lock } : Machine C M).joinFrom x id k o) := by
  unfold Machine.joinFrom
  split
  · exact does_plain hx hp hl (.inr hbusy) hallows hne hparting
  · exact ho

/-- `reparent` goes on in a `wakeup`. -/
theorem reparentFrom_does {k : ℕ} {e : Exiting}
    (hallows : ∀ st, b₀.Allows st → e.Allows st) (hlast : b₀.last = e.last) (hne : b₀ ≠ .exit2)
    (hexits : b₀.exits = true) (hbusy : b₀.inner = false ∨ mon.busy s.mem x = false)
    (hw : s.Guarded x) (hr : Reparenting (.here b₀) k e) :
    Does mon c s (({ s with lock := lock } : Machine C M).reparentFrom x k e) := by
  unfold Machine.reparentFrom
  split
  · next r hnext =>
    exact does_goto hx hp ⟨rfl, rfl, rfl, rfl, le_rfl⟩
      (.update (.of_eq rfl (fun _ => rfl) (.refl _))) hl
      (.here hallows (fun h => hlast.trans h) nofun hne fun _ => hexits) (.inr hbusy)
      (.update rfl fun _ _ hsl => ⟨hsl, rfl⟩) (.disown hr hw hnext rfl)
  · next hnext =>
    exact does_lock hx hp hl (.here hallows (fun h => hlast.trans h) nofun hne fun _ => hexits)
      (.inr hbusy) (.disowned hr hw hnext rfl)

end

/-- The end of a `wakeup`. -/
theorem afterWake_does {chan : Option Chan} {r : Ret}
    (hp : s.pos x = .here (.waking chan q r)) (hq : nextSlot q = none)
    (hl : LockMove c s.lock lock (.proc q :: r.locks) r.locks) :
    Does mon c s (({ s with lock := lock } : Machine C M).afterWake x r) := by
  cases r with
  | other w =>
    exact does_move hx hp hl (.here (fun _ h => h) id nofun nofun id) (.inl rfl) rfl rfl nofun nofun
      fun hl => .inl ⟨hl.1, nofun⟩
  | kexit => exact does_plain hx hp hl (.inr (.inl rfl))
  | reparent k e =>
    refine reparentFrom_does hx hp hl (fun _ h => h) rfl nofun rfl (.inl rfl) (.inr ?_)
      (.inr ⟨chan, q, hq, rfl⟩)
    rw [hp]
    exact mem_cons_of_mem _ mem_cons_self
  | exit e =>
    exact does_lock hx hp hl (.here (fun _ h => h) id nofun nofun id) (.inr (.inl rfl))
      (.woken hq rfl)

/-- `kthread_create`. -/
theorem createStep_does {start stack : Word} {page : Option Trapframe}
    (hp : s.pos x = .here (.body .user)) (hbusy : mon.busy s.mem x = false) (hpage : page ≠ none)
    (hs : s.createStep mon c x start stack page = some s') : Does mon c s s' := by
  obtain ⟨lock, hlock, hs⟩ := acquire_bind hs
  have hl : LockMove c s.lock lock (Base.locks x.1 (.body .user)) (Base.locks x.1 .unlock) :=
    .acquire_cons hlock
  dsimp only at hs
  split at hs
  · next p tid hal =>
    cases hs
    obtain ⟨rfl, -⟩ := allocthread_none hpage hal
    exact does_outside hx hp ⟨rfl, rfl, rfl, rfl, le_rfl⟩ rfl (.refl _) (.refl _)
      (fun _ h => ⟨h, rfl⟩) hl (fun _ h => h) (.inr (.inr hbusy)) nofun rfl rfl
  · next nt p tid hal =>
    obtain ⟨f, -, hs⟩ := bind_eq_some_iff.1 hs
    cases hs
    refine ⟨.create x nt hx hp hbusy (allocthread_some hal).1 rfl rfl rfl
      (startThread_sets hal f start stack) (lockEffect_here hx hp hx (update_self _ _ _) hl), ?_⟩
    obtain ⟨hfree, rfl⟩ := allocthread_some hal
    refine kin_start (z := (x.1, nt)) hx hp hfree rfl le_rfl rfl (.update rfl fun u _ hsl => ?_)
      (deed_outside rfl rfl (Still.update ⟨.refl _, rfl, rfl, rfl⟩))
    by_cases hu : u = nt
    · subst hu
      simp [startThread] at hsl
    · simp only [startThread, setFrame, Proc.setThread, update_of_ne hu] at hsl ⊢
      exact ⟨hsl, trivial⟩

/-- `kthread_exit` up to its first release. -/
theorem kexitStep_does {status : ℤ} (hp : s.pos x = .here (.body .user))
    (hbusy : mon.busy s.mem x = false) (hs : s.kexitStep c x status = some s') :
    Does mon c s s' := by
  obtain ⟨lock, hlock, ⟨⟩⟩ := acquire_bind hs
  have hsets := Sets.setThread s.proc x { s.thread x with state := .zombie, xstate := status }
  refine ⟨.kexit x ⟨s.lastThread x, status⟩ hx hp hbusy rfl rfl rfl hsets
    (lockEffect_here hx hp hx (update_self _ _ _) (.acquire_cons hlock)) fun hlast => ?_,
    kin_goto hx hp rfl le_rfl rfl (.setThread rfl (.inl rfl))
      (.move (Still.update ⟨.refl _, rfl, rfl, rfl⟩) rfl rfl nofun nofun
        fun hl => absurd rfl (hl.2 _))⟩
  simpa [Machine.lastThread, Gone] using hlast

end

variable {ch : Choice K}

section

variable (hx : s.cpu c = .run x)

include hx

theorem syscallStep_does (hp : s.pos x = .here (.body .user))
    (hbusy : mon.busy s.mem x = false) (hG : s.Careful (c, ch))
    (hs : s.syscallStep mon c x ch = some s') : Does mon c s s' := by
  unfold Machine.syscallStep at hs
  split at hs
  · next start stack page =>
    refine createStep_does hx hp hbusy ?_ hs
    simpa only [Machine.Careful, hx, hp] using hG
  · exact kexitStep_does hx hp hbusy hs
  · next id =>
    split_ifs at hs
    · cases hs
      refine ⟨.stay x (.body .user) hx rfl ?_ rfl (.refl _) (.same rfl fun _ => Iff.rfl) ?_
        (.inl rfl),
        .idle rfl rfl rfl (fun _ => .refl _) (.refl _ rfl)⟩
      · rw [← hp, update_eq_self]
      · rw [hp]
        exact .here (fun _ h => h) (fun h => h) nofun nofun (fun h => h)
    · obtain ⟨lock, hlock, ⟨⟩⟩ := acquire_bind hs
      exact joinFrom_does hx hp (.acquire_cons hlock) (fun _ h => h) nofun (.inr hbusy) rfl
        (does_plain hx hp (.acquire_cons hlock) (.inr (.inr hbusy)))
  · cases hs
    exact does_plain hx hp (.same rfl fun _ => Iff.rfl) (.inr (.inr hbusy))
  · split_ifs at hs with hinit
    cases hs
    exact does_move hx hp (.same rfl fun _ => Iff.rfl)
      ⟨fun _ h => .inl h, nofun, nofun, nofun, fun _ => .inr ⟨rfl, _, rfl⟩⟩ (.inl rfl) rfl rfl
      nofun nofun fun _ => .inr hinit
  · obtain ⟨lock, hlock, ⟨⟩⟩ := acquire_bind hs
    exact waitFrom_does hx hp (.acquire_cons hlock) (fun _ h => h) nofun (.inr hbusy)
      (.inl (acquire_free hlock)) (.inl ⟨rfl, rfl⟩) fun _ =>
      does_plain hx hp (.acquire_cons hlock) (.inr (.inr hbusy))
  · obtain ⟨lock, hlock, ⟨⟩⟩ := acquire_bind hs
    exact does_outside hx hp ⟨rfl, rfl, rfl, rfl, le_rfl⟩ rfl (.execMark _ _)
      ⟨.refl _, rfl, rfl, rfl⟩ (fun _ => execMark_sleeping) (.acquire_cons hlock) (fun _ h => h)
      (.inr (.inr hbusy)) nofun rfl rfl
  · obtain ⟨lock, hlock, ⟨⟩⟩ := acquire_bind hs
    exact does_outside hx hp ⟨rfl, rfl, rfl, rfl, le_rfl⟩ rfl (.sigKillHandler _)
      (.sigKillHandler _) (fun _ => sigKillHandler_sleeping) (.acquire_cons hlock) (fun _ h => h)
      (.inr (.inr hbusy)) nofun rfl rfl
  · cases hs

theorem bodyStep_does {w : Body} (hp : s.pos x = .here (.body w))
    (hG : s.Careful (c, ch)) (hs : s.bodyStep mon c x w ch = some s') : Does mon c s s' := by
  unfold Machine.bodyStep at hs
  split at hs
  · exact yieldStep_does hx hp rfl rfl hs
  · split_ifs at hs
    exact yieldStep_does hx hp rfl (Body.allows_running _) hs
  · obtain ⟨lock, hlock, ⟨⟩⟩ := acquire_bind hs
    exact does_move hx hp (.acquire_cons hlock) (.here (fun _ h => h) id nofun nofun id) (.inl rfl)
      rfl rfl nofun nofun fun hl => .inl ⟨hl.1, nofun⟩
  · cases hs
    exact does_move hx hp (.same rfl fun _ => Iff.rfl) (.here (fun _ h => h) id nofun nofun id)
      (.inl rfl) rfl rfl nofun nofun fun hl => .inl ⟨hl.1, nofun⟩
  · next k =>
    obtain ⟨m, hm, hs⟩ := bind_eq_some_iff.1 hs
    cases hs
    exact ⟨.monitor x _ k m hx hp hm rfl, .idle rfl rfl rfl (fun _ => .refl _) (.refl _ rfl)⟩
  · split_ifs at hs with hbusy
    exact syscallStep_does hx hp (by simpa using hbusy) hG hs
  · next e =>
    split_ifs at hs with hbusy
    obtain ⟨lock, hlock, ⟨⟩⟩ := acquire_bind hs
    exact reparentFrom_does hx hp (.acquire_cons hlock) (fun _ h => h) rfl nofun rfl
      (.inr (by simpa using hbusy)) (.inl (acquire_free hlock)) (.inl ⟨rfl, rfl⟩)
  · cases hs

/-- `kthread_join` on the thread it has found. -/
theorem joinStep_does {id : ℤ} {u : ThreadId} {copied : Bool} (hp : s.pos x = .here (.joinAt id u))
    (hout : s.pos (x.1, u) ≠ .here .kexit2 ∧ s.pos (x.1, u) ≠ .here .kexit4)
    (hs : s.joinStep c x id u copied = some s') : Does mon c s s' := by
  obtain ⟨lock, hlock, hs⟩ := acquire_bind hs
  have hstay : ∀ done, Does mon c s
      (({ s with lock := lock } : Machine C M).goto x (.joinChecked id u done)) := fun done =>
    does_plain hx hp (.acquire_cons hlock) (.inr (.inl rfl))
  split_ifs at hs with hz hcopied
  · cases hs
    have hsets := Sets.setThread s.proc (x.1, u) (freethread (s.thread (x.1, u)))
    exact ⟨.join x id u hx hp hz rfl rfl rfl hsets
      (lockEffect_here hx hp hx (update_self _ _ _) (.acquire_cons hlock))
      (acquire_free hlock) hout,
      kin_goto hx hp rfl le_rfl rfl (.setThread (y := (x.1, u)) rfl (.inr nofun))
        (deed_outside rfl rfl (Still.update ⟨.refl _, rfl, rfl, rfl⟩))⟩
  · cases hs
    exact hstay true
  · cases hs
    exact hstay false

/-- `wait` on the child it has found. -/
theorem waitStep_does {np : ProcId} {copied : Bool}
    (hp : s.pos x = .here (.waitAt np)) (hs : s.waitStep c x np copied = some s') :
    Does mon c s s' := by
  obtain ⟨lock, hlock, hs⟩ := acquire_bind hs
  dsimp only at hs
  split_ifs at hs with hz hcopied
  · cases hs
    exact ⟨.wait x np hx hp hz rfl rfl rfl rfl
      (lockEffect_here hx hp hx (update_self _ _ _) (.acquire_cons hlock)) (acquire_free hlock),
      kin_goto hx hp rfl le_rfl rfl (.update rfl fun _ _ hsl => absurd hsl freeproc_sleeping)
        (.reap hz rfl)⟩
  · cases hs
    exact does_plain hx hp (.acquire_cons hlock) (.inr (.inl rfl))
  · cases hs
    exact does_lock hx hp (.acquire_cons hlock) (.here (fun _ h => h) nofun nofun nofun nofun)
      (.inr (.inl rfl)) (.checked rfl hz)

/-- `exit` marks the threads. -/
theorem exitStep_does {e : Exiting} (hp : s.pos x = .here (.exit1 e))
    (halone : ∀ c' t, t ≠ x.2 → s.cpu c' ≠ .run (x.1, t)) (hs : s.exitStep c x e = some s') :
    Does mon c s s' := by
  obtain ⟨lock, hlock, ⟨⟩⟩ := acquire_bind hs
  exact ⟨.exit x e hx hp rfl rfl rfl rfl (lockEffect_here hx hp hx (update_self _ _ _)
    (.acquire_cons hlock)) halone, kin_goto hx hp rfl le_rfl rfl
      (.update rfl fun _ _ hsl => absurd hsl exitMark_sleeping) (.mark rfl)⟩

end

section

variable (h : s.Inv) (hx : s.cpu c = .run x)

include h hx

/-- `allocproc` and `fork` on slot `q`. -/
theorem forkStep_does {k : Pages}
    (hp : s.pos x = .here (.fork1 q)) (hpage : k.backup ≠ none)
    (hs : s.forkStep mon c x q k = some s') : Does mon c s s' := by
  obtain ⟨lock, hlock, hs⟩ := acquire_bind hs
  dsimp only at hs
  by_cases hfree : (s.proc q).state = .unused
  · rw [if_pos hfree] at hs
    have hthreads : ∀ t, ((s.proc q).threads t).state = .unused := h.unused_threads hfree
    -- `fork` fails, and the slot is free again
    have hfail : ∀ (child : Proc) (tid : ℤ), child.state = .unused → child.parent = none →
        (∀ t, (child.threads t).state = .unused) → Does mon c s (({
          ({ s with lock := lock } : Machine C M).setProc q child with
          nextpid := s.nextpid + 1, nexttid := tid } : Machine C M).goto x (.fork3 q none false)) :=
      fun child tid hstate hparent ht => does_goto hx hp ⟨rfl, rfl, rfl, rfl, by simp⟩
        (.update (.of_unused hfree hstate hthreads ht)) (.acquire_cons hlock)
        (.here (fun _ h => ⟨rfl, h⟩) nofun nofun nofun nofun) (.inr (.inl rfl))
        (naps_fork rfl fun u => .inl (ht u)) (.fail hfree rfl hstate hparent)
    split at hs
    · next child tid hal =>
      cases hs
      obtain ⟨hstate, ht, hagain⟩ := allocprocLocked_none hthreads hpage hal
      rw [hagain]
      exact hfail child tid hstate (allocprocLocked_fails hthreads hpage hal) ht
    · next nt child tid hal =>
      obtain ⟨hused, hnt, hrest⟩ := allocprocLocked_some hthreads hal
      obtain ⟨hpid, hparent⟩ := allocprocLocked_kin hal
      have hchild : ∀ u, (child.threads u).state = .unused ∨ (child.threads u).state = .used := by
        intro u
        by_cases hu : u = nt
        · exact .inr (hu ▸ hnt)
        · exact .inl (hrest u hu)
      split_ifs at hs
      · obtain ⟨f, -, hs⟩ := bind_eq_some_iff.1 hs
        cases hs
        have hinto : ∀ u, (((s.proc x.1).forkInto f child nt).threads u).state =
            (child.threads u).state := fun u => by
          by_cases hu : u = nt
          · subst hu
            simp [forkInto, setFrame]
          · simp [forkInto, setFrame, Proc.setThread, hu]
        refine ⟨.fork x q nt ((s.proc x.1).forkInto f child nt) hx hp hfree rfl rfl rfl rfl hused
          ((hinto nt).trans hnt) (fun t ht => (hinto t).trans (hrest t ht))
          (lockEffect_here hx hp hx (update_self _ _ _) (.acquire_cons hlock)),
          kin_start (z := (q, nt)) hx hp (hthreads nt) rfl
          (by simp [Machine.start, Machine.setProc]) rfl
            (naps_fork rfl fun u => by rw [hinto]; exact hchild u)
            (.born hfree rfl hused hpid hparent rfl)⟩
      · cases hs
        refine hfail child.freeproc tid rfl rfl (freeproc_unused fun v hv => ?_)
        rcases hchild v with hw | hw <;> rw [hw] at hv <;> cases hv
  · rw [if_neg hfree] at hs
    cases hs
    exact does_plain hx hp (.acquire_cons hlock) (.inr (.inl rfl))

/-- A step of a thread at position `b`. -/
theorem baseStep_does (hp : s.pos x = .here b)
    (hG : s.Careful (c, ch)) (hs : s.baseStep mon c x b ch = some s') : Does mon c s s' := by
  have hruns : b.Allows (s.state x) := h.state_here hx hp
  unfold Machine.baseStep at hs
  split at hs
  · exact bodyStep_does hx hp hG hs
  · -- a timer interrupt in the kernel
    split_ifs at hs with hcond
    rw [hcond.2] at hruns
    exact yieldStep_does hx hp hcond.1 hruns hs
  · next chan k =>
    cases k with
    | other w =>
      cases hs
      exact sleep_does hx hp (.same rfl fun _ => Iff.rfl)
    | wait | join id =>
      obtain ⟨lock, hlock, ⟨⟩⟩ := release_bind hs
      exact sleep_does hx hp (.release_second hlock nofun)
  · cases hs
    exact does_move hx hp (.same rfl fun _ => Iff.rfl) (.here (fun _ h => h) id nofun nofun id)
      (.inl rfl) rfl rfl nofun nofun fun hl => .inl ⟨hl.1, nofun⟩
  · obtain ⟨lock, hlock, ⟨⟩⟩ := acquire_bind hs
    exact waitFrom_does hx hp (.acquire_cons hlock) (fun _ h => h) nofun (.inl rfl)
      (.inl (acquire_free hlock)) (.inl ⟨rfl, rfl⟩) fun _ =>
      does_plain hx hp (.acquire_cons hlock) (.inr (.inl rfl))
  · obtain ⟨lock, hlock, ⟨⟩⟩ := acquire_bind hs
    exact joinFrom_does hx hp (.acquire_cons hlock) (fun _ h => h) nofun (.inl rfl) rfl
      (does_plain hx hp (.acquire_cons hlock) (.inr (.inl rfl)))
  · -- wakeup, acquire
    next chan q r =>
    obtain ⟨lock, hlock, ⟨⟩⟩ := acquire_bind hs
    refine does_goto hx hp ⟨rfl, rfl, rfl, rfl, le_rfl⟩ (.update (.wakeupThreads _ _ _))
      (.acquire_cons hlock) (.here (fun _ h => h) id nofun nofun id) (inner_or rfl)
      (.wakeSlot rfl) ?_
    cases hr : r.kin with
    | true => exact .rouse hr rfl
    | false =>
      exact .move (Still.update ⟨.refl _, rfl, rfl, rfl⟩) hr hr nofun nofun
        fun hl => .inl ⟨hl.1, nofun⟩
  · -- wakeup, release
    next chan q r =>
    obtain ⟨lock, hlock, hs⟩ := release_bind hs
    have hl := LockMove.release_cons hlock (r.proc_notMem_locks q)
    split at hs
    · next q' hq =>
      cases hs
      refine does_lock hx hp hl (.here (fun _ h => h) id nofun nofun id) (inner_or rfl) ?_
      cases hr : r.kin with
      | true => exact .next hr hq rfl
      | false => exact .move (fun _ => .refl _) hr hr nofun nofun fun hl => .inl ⟨hl.1, nofun⟩
    · next hq =>
      cases hs
      exact afterWake_does hx hp hq hl
  · -- unlock
    obtain ⟨lock, hlock, ⟨⟩⟩ := release_bind hs
    exact does_plain hx hp (.release_cons hlock nofun) (.inl rfl)
  · -- kthread_exit, release
    next e =>
    obtain ⟨lock, hlock, hs⟩ := release_bind hs
    dsimp only at hs
    split_ifs at hs with hlast hinit
    · cases hs
      exact does_move hx hp (.release_cons hlock nofun)
        (.here (fun _ h => .inr ⟨h, hlast⟩) id nofun nofun fun _ => hlast) (.inl rfl) rfl rfl
        nofun nofun fun _ => .inr hinit
    · cases hs
      exact does_plain hx hp (.release_cons hlock nofun) (.inr (.inl rfl))
  · -- kexit2
    obtain ⟨lock, hlock, ⟨⟩⟩ := acquire_bind hs
    exact does_plain hx hp (.acquire_cons hlock) (.inr (.inl rfl))
  · -- kexit3
    obtain ⟨lock, hlock, ⟨⟩⟩ := release_bind hs
    exact does_plain hx hp (.release_cons hlock nofun) (.inr (.inl rfl))
  · -- kexit4
    obtain ⟨lock, hlock, ⟨⟩⟩ := acquire_bind hs
    exact die_does hx hp (.inl rfl) (.acquire_cons hlock)
  · -- joinAt
    refine joinStep_does hx hp ?_ hs
    simpa only [Machine.Careful, hx, hp] using hG
  · -- joinChecked
    next id u done killed =>
    obtain ⟨lock, hlock, hs⟩ := release_bind hs
    have hl : LockMove c s.lock lock (Base.locks x.1 (.joinChecked id u done)) [.wait] :=
      .release_cons hlock (by simp)
    split at hs
    · cases hs
      exact does_plain hx hp hl (.inr (.inl rfl))
    · cases hs
      refine joinFrom_does hx hp hl (fun _ h => h) nofun (.inl rfl) rfl ?_
      cases killed <;> exact does_plain hx hp hl (.inr (.inl rfl))
  · -- joinSleep
    obtain ⟨lock, hlock, ⟨⟩⟩ := acquire_bind hs
    exact does_plain hx hp (.acquire_cons hlock) (.inr (.inl rfl))
  · -- joinEnd
    obtain ⟨lock, hlock, ⟨⟩⟩ := release_bind hs
    exact does_plain hx hp (.release_cons hlock nofun) (.inl rfl)
  · exact waitStep_does hx hp hs
  · -- waitChecked
    next np done killed =>
    obtain ⟨lock, hlock, hs⟩ := release_bind hs
    have hl : LockMove c s.lock lock (Base.locks x.1 (.waitChecked np done)) [.wait] :=
      .release_cons hlock (by simp)
    have hend : Does mon c s (({ s with lock := lock } : Machine C M).goto x .waitEnd) :=
      does_plain hx hp hl (.inr (.inl rfl))
    cases done with
    | true =>
      cases hs
      exact hend
    | false =>
      cases hs
      refine waitFrom_does hx hp hl (fun _ h => h) nofun (.inl rfl) (.inr ?_)
        (.inr ⟨np, rfl, rfl⟩) fun hnone => ?_
      · rw [hp]
        exact mem_cons_of_mem _ mem_cons_self
      · cases killed with
        | true => exact hend
        | false =>
          exact does_lock hx hp hl (.here (fun _ h => h) nofun nofun nofun nofun) (.inr (.inl rfl))
            (.scanned rfl hnone)
  · -- waitSleep
    obtain ⟨lock, hlock, ⟨⟩⟩ := acquire_bind hs
    exact does_lock hx hp (.acquire_cons hlock) (.here (fun _ h => h) nofun nofun nofun nofun)
      (.inr (.inl rfl)) (.doze rfl)
  · -- waitEnd
    obtain ⟨lock, hlock, ⟨⟩⟩ := release_bind hs
    exact does_plain hx hp (.release_cons hlock nofun) (.inl rfl)
  · -- exit1
    refine exitStep_does hx hp ?_ hs
    simpa only [Machine.Careful, hx, hp] using hG
  · -- exit2
    obtain ⟨lock, hlock, ⟨⟩⟩ := release_bind hs
    exact die_does hx hp (.inr rfl) (.release_second hlock nofun)
  · -- fork1
    refine forkStep_does h hx hp ?_ hs
    simpa only [Machine.Careful, hx, hp] using hG
  · -- fork2
    obtain ⟨lock, hlock, hs⟩ := release_bind hs
    split at hs
    · cases hs
      exact does_plain hx hp (.release_cons hlock nofun) (.inr (.inl rfl))
    · cases hs
      exact does_plain hx hp (.release_cons hlock nofun) (.inl rfl)
  · -- fork3
    next np nt again =>
    obtain ⟨lock, hlock, hs⟩ := release_bind hs
    obtain ⟨rfl, -⟩ := hruns
    cases nt with
    | some nt =>
      cases hs
      exact does_move hx hp (.release_cons hlock nofun)
        (.here (fun _ h => h.2) nofun (fun _ h => h) nofun nofun) (.inr (.inl rfl)) rfl rfl
        (fun _ h => h) nofun fun hl => absurd hl.1 Bool.false_ne_true
    | none =>
      cases hs
      exact does_plain hx hp (.release_cons hlock nofun) (.inl rfl) (fun _ h => h.2)
  · exact hruns.elim
  · -- fork4
    obtain ⟨lock, hlock, ⟨⟩⟩ := acquire_bind hs
    exact does_goto hx hp ⟨rfl, rfl, rfl, rfl, le_rfl⟩
      (.update (.of_eq rfl (fun _ => rfl) (.refl _))) (.acquire_cons hlock)
      (.here (fun _ h => h) nofun (fun _ h => h) nofun nofun) (.inr (.inl rfl))
      (.update rfl fun _ _ hsl => ⟨hsl, rfl⟩) (.adopt (.inl (acquire_free hlock)) rfl)
  · -- fork5
    obtain ⟨lock, hlock, ⟨⟩⟩ := release_bind hs
    exact does_move hx hp (.release_cons hlock nofun)
      (.here (fun _ h => h) nofun (fun _ h => h) nofun nofun) (.inr (.inl rfl)) rfl rfl nofun
      (fun _ h => h) fun hl => absurd hl.1 Bool.false_ne_true
  · -- fork6
    next np nt =>
    obtain ⟨lock, hlock, ⟨⟩⟩ := acquire_bind hs
    refine ⟨.forkRun x np nt hx hp rfl rfl rfl rfl
      (lockEffect_here hx hp hx (update_self _ _ _) (.acquire_cons hlock)),
      kin_goto hx hp rfl le_rfl rfl (.update rfl fun u _ hsl => ?_) (.run rfl)⟩
    by_cases hu : u = nt
    · subst hu
      simp [makeRunnable] at hsl
    · rw [Effect.makeRunnable_thread _ _ hu] at hsl ⊢
      exact ⟨hsl, rfl⟩
  · -- fork7
    obtain ⟨lock, hlock, ⟨⟩⟩ := release_bind hs
    exact does_plain hx hp (.release_cons hlock nofun) (.inl rfl)
  · cases hs

/-- A step of the thread in slot `x`. -/
theorem threadStep_does (hG : s.Careful (c, ch))
    (hs : s.threadStep mon c x ch = some s') : Does mon c s s' := by
  have hruns := h.runs c x hx
  unfold Machine.threadStep at hs
  split at hs
  · next b hp => exact baseStep_does h hx hp hG hs
  · next b hp =>
    obtain ⟨lock, hlock, ⟨⟩⟩ := release_bind hs
    rw [hp] at hruns
    obtain ⟨⟨hfree, hb⟩, -⟩ := hruns
    refine does_move hx hp ?_ ⟨fun st hst => hst.2 ▸ hb, fun h => h, fun _ h => h, nofun, .inl⟩
      (inner_or (d := b) rfl) rfl (kin_of_unlocked hfree) (fun _ h => h) (fun _ h => h)
      fun hl => .inl ⟨hl.1, nofun⟩
    rw [hfree]
    exact .release_cons hlock nofun
  · next k hp =>
    obtain ⟨lock, hlock, ⟨⟩⟩ := release_bind hs
    exact does_goto hx hp ⟨rfl, rfl, rfl, rfl, le_rfl⟩ (.update (.setThread _ (.refl _)))
      (.release_cons hlock nofun)
      ⟨fun st hst => by cases hst; exact k.allows_running, fun h => h, nofun, nofun, .inl⟩
      (inner_or (d := .reacquire k) rfl) (.setThread rfl (.inl rfl))
      (.move (Still.update ⟨.refl _, rfl, rfl, rfl⟩) rfl rfl nofun nofun
        fun hl => .inl ⟨hl.1, nofun⟩)
  · cases hs

end

/-- The scheduler goes on at `p'`. -/
theorem idle_does {p p' : CpuPos} (hc : s.cpu c = p) (h : Kept s t)
    (hpid : t.nextpid = s.nextpid) (hq : Quiet s.proc t.proc)
    (hl : LockMove c s.lock t.lock p.locks p'.locks) (hp : ∀ x, p ≠ .run x)
    (hp' : ∀ x, p' ≠ .run x) (hstill : ∀ q, Still (s.proc q) (t.proc q)) (hnaps : Naps none s t) :
    Does mon c s (t.setCpu c p') := by
  have hc' : (t.setCpu c p').cpu c = p' := update_self _ _ _
  refine ⟨.idle (by rw [hc]; exact hp) (by rw [hc']; exact hp') (fun c' hne => ?_) h.pos
    h.mem hq ?_,
    .idle h.pos hpid h.init hstill hnaps⟩
  · have hkeep : (t.setCpu c p').cpu c' = t.cpu c' := update_of_ne hne _ _
    rw [hkeep, h.cpu]
  · unfold LockEffect
    rw [held_idle hc hp, held_idle hc' hp']
    exact hl

omit [DecidableEq C] in
theorem nextRunnable_state {k : ℕ} {u : ThreadId}
    (hu : s.nextRunnable q k = some u) : s.state (q, u) = .runnable := by
  unfold Machine.nextRunnable at hu
  split_ifs at hu
  have := find?_some hu
  simp only [decide_eq_true_eq] at this
  exact this.2

variable {a : C × Choice K}

section

variable (h : s.Inv) (hG : s.Careful a) (hs : s.step mon a = some s')

include h hG hs

/-- **Every careful step does one of these things.** -/
theorem step_does : Does mon a.1 s s' := by
  obtain ⟨c, ch⟩ := a
  have hidle : ∀ {lock : Lk → Option C} {p p' : CpuPos}, s.cpu c = p →
      LockMove c s.lock lock p.locks p'.locks → (∀ x, p ≠ .run x) → (∀ x, p' ≠ .run x) →
      Does mon c s (({ s with lock := lock } : Machine C M).setCpu c p') := fun hc hl hp hp' =>
    idle_does hc ⟨rfl, rfl, rfl, rfl, le_rfl⟩ rfl (.refl _) hl hp hp' (fun _ => .refl _)
    (.refl _ rfl)
  unfold Machine.step at hs
  dsimp only at hs
  split at hs
  · next x hx => exact threadStep_does h hx hG hs
  · -- the scheduler takes the lock of a process
    next q hc =>
    obtain ⟨lock, hlock, ⟨⟩⟩ := acquire_bind hs
    exact hidle hc (.acquire_cons hlock) nofun nofun
  · next q chan hc =>
    cases hs
    exact hidle hc (.same rfl fun _ => Iff.rfl) nofun nofun
  · next q k hc =>
    split at hs
    · next u hu =>
      cases hs
      have hst : s.state (q, u) = .runnable := nextRunnable_state hu
      have hsets := Sets.setThread s.proc (q, u) { s.thread (q, u) with state := .running }
      exact ⟨.dispatch (q, u) k hc hst rfl rfl rfl hsets rfl,
        .idle rfl rfl rfl (Still.update ⟨.refl _, rfl, rfl, rfl⟩)
          (.setThread (y := (q, u)) rfl (.inr nofun))⟩
    · obtain ⟨lock, hlock, ⟨⟩⟩ := release_bind hs
      exact hidle hc (.release_cons hlock nofun) nofun nofun
  · next chan q back hc =>
    obtain ⟨lock, hlock, ⟨⟩⟩ := acquire_bind hs
    exact idle_does hc ⟨rfl, rfl, rfl, rfl, le_rfl⟩ rfl (.update (.wakeupThreads _ _ _))
      (.acquire_cons hlock) nofun nofun (Still.update ⟨.refl _, rfl, rfl, rfl⟩) (.wakeSlot rfl)
  · next chan q back hc =>
    obtain ⟨lock, hlock, hs⟩ := release_bind hs
    split at hs
    · cases hs
      exact hidle hc (.release_cons hlock nofun) nofun nofun
    · cases hs
      exact hidle hc (.release_cons hlock nofun) nofun nofun
  · cases hs

/-- **Every careful step has one of the effects.** -/
theorem step_effect : Effect mon a.1 s s' := (step_does h hG hs).effect

/-- **Every careful step does one of the things of `Kin` to the families.** -/
theorem step_kin : Kin a.1 s s' := (step_does h hG hs).kin

end

end Xv6.Smp
