import Xv6.Proc.Table

/-!
# What a step does to each slot

A step of the table changes a slot in a few small ways, one after the other; most steps change
one slot.  `Change` lists them, each with what is known of the step when it happens, and
`Table.step_effect` says that there are no others.  What holds of every slot in every run is then
shown once for each kind of change.
-/

namespace Xv6

open Relation Proc

/-- The action takes slot `q` for a new process. -/
def Act.Claims (q : ProcId) : Act → Prop
  | .fork _ _ (some np) => np = q
  | _ => False

/-- The action ends the process in slot `q`. -/
def Act.Exits (q : ProcId) : Act → Prop
  | .exit x _ => x.1 = q
  | .kthreadExit x _ true => x.1 = q
  | _ => False

/-- The child whose slot a parent in `fork` has claimed. -/
def Pc.child : Pc → Option ProcId
  | .forkParent np _ => some np
  | .forkRunnable np _ => some np
  | _ => none

/-- The entries of `SIGKILL` and `SIGSTOP` are the default. -/
def Proc.Default (p : Proc) : Prop :=
  p.signalHandlers SIGKILL = SIG_DFL ∧ p.signalHandlers SIGSTOP = SIG_DFL

/-! ### New threads -/

variable {p : Proc}

theorem findThread_unused {t : ThreadId}
    (h : (p.findThread fun th => th.state = .unused) = some t) : (p.threads t).state = .unused := by
  simpa using List.find?_some h

theorem allocthread_some {p p' : Proc} {tid tid' : ℤ} {page : Option Trapframe} {t : ThreadId}
    (h : p.allocthread tid page = (some t, p', tid')) : (p.threads t).state = .unused ∧
      p' = p.setThread t
        { p.threads t with id := tid, state := .used, userTrapFrameBackup := page } := by
  unfold allocthread at h
  split at h
  · cases h
  · next hfind =>
    cases page with
    | none => cases h
    | some f =>
      cases h
      exact ⟨findThread_unused hfind, rfl⟩

namespace Table

/-- The thread that the action puts to sleep, and the channel. -/
def naps (s : Table) : Act → Option (Tid × Chan)
  | .sleep x chan => some (x, chan)
  | .wait x _ =>
    if s.reaped x = none ∧ (∃ q, (s.proc q).parent = some x.1) ∧ (s.proc x.1).killed = 0 then
      some (x, .proc x.1)
    else none
  | .kthreadJoin x id _ =>
    if id = 0 ∨ id = (s.thread x).id then none
    else
      match (s.proc x.1).findThread fun th => th.id = id with
      | none => none
      | some t =>
        if (s.thread (x.1, t)).state = .zombie ∨ (s.thread x).killed ≠ 0 then none
        else some (x, .thread x.1 t)
  | _ => none

/-- The action sends a signal to slot `q`, or the process in it begins, ends or is freed. -/
def Turns (s : Table) (q : ProcId) : Act → Prop
  | .fork _ _ np => np = some q
  | .forkRunnable x => (s.pc x).child = some q
  | .kill _ _ _ found => found = some q
  | .exit x _ => x.1 = q
  | .kthreadExit x _ last => last = true ∧ x.1 = q
  | .wait x copied => copied = true ∧ s.reaped x = some q
  | .kthreadCreate x _ _ page => page = none ∧ x.1 = q ∧ ∃ t, ((s.proc q).threads t).state = .unused
  | _ => False

/-- One change of slot `q` in the step `a` from `s`. -/
inductive Change (s : Table) (a : Act) (q : ProcId) : Proc → Proc → Prop
  /-- A thread that runs or may run. -/
  | thread {p : Proc} {t : ThreadId} {th : Thread}
      (hold : (p.threads t).state = .runnable ∨ (p.threads t).state = .running)
      (hnew : th.state = .runnable ∨ th.state = .running) : Change s a q p (p.setThread t th)
  | sleep {t : ThreadId} {chan : Chan} (hrun : ((s.proc q).threads t).state = .running)
      (hnap : s.naps a = some ((q, t), chan)) : Change s a q (s.proc q) ((s.proc q).setThread t
        { (s.proc q).threads t with chan := some chan, state := .sleeping })
  | zombie {t : ThreadId} {status : ℤ} {last : Bool}
      (hrun : ((s.proc q).threads t).state = .running)
      (ha : a = .kthreadExit (q, t) status last) : Change s a q (s.proc q) ((s.proc q).setThread t
        { (s.proc q).threads t with state := .zombie, xstate := status })
  | join {p : Proc} {t u : ThreadId} (hrun : (p.threads u).state = .running)
      (hz : (p.threads t).state = .zombie) :
      Change s a q p (p.setThread t (freethread (p.threads t)))
  | frame (p : Proc) (t : ThreadId) (f : Trapframe) : Change s a q p (p.setFrame t f)
  /-- Fields that neither the scheduler nor `kill` looks at. -/
  | fields {p p' : Proc} (hthreads : p'.threads = p.threads) (hstate : p'.state = p.state)
      (hpid : p'.pid = p.pid) (hpend : p'.penddingSignals = p.penddingSignals)
      (hdfl : (∀ r, (s.proc r).Default) → p.Default → p'.Default) : Change s a q p p'
  | clear (p : Proc) (i : Fin 32) : Change s a q p (p.clearSignal i)
  | wakeup (p : Proc) (self : Option ThreadId) (chan : Option Chan) :
      Change s a q p (p.wakeupThreads self chan)
  | execMark {p : Proc} {t : ThreadId} (hrun : (p.threads t).state = .running) :
      Change s a q p (p.execMark t)
  | sigKill {p : Proc} {t : ThreadId} {i : Fin 32} (hrun : (p.threads t).state = .running)
      (ha : a = .pass (q, t)) (hfrozen : (s.proc q).frozen ≠ 1)
      (hscan : scan (s.proc q) = some (i, .kill))
      (hsame : ∀ u, (p.threads u).state = ((s.proc q).threads u).state) :
      Change s a q p p.sigKillHandler
  | arrive {x : Tid} {pid signum : ℤ} (ha : a = .kill x pid signum (some q))
      (hfound : some q = s.killFinds pid signum) : Change s a q (s.proc q)
        ((s.proc q).arrive (sigBit (Fin.ofNat 32 signum.toNat)))
  | exitMark (p : Proc) (status : ℤ) (ha : s.Turns q a) : Change s a q p (p.exitMark status)
  | free (p : Proc) (ha : s.Turns q a) : Change s a q p p.freeproc
  | claim (p : Proc) (pid : ℤ) (ha : s.Turns q a) :
      Change s a q p { p with pid := pid, state := .used }
  | frames (p : Proc) (frames : ThreadId → Trapframe) : Change s a q p (p.setFrames frames)
  | newThread {p : Proc} {t : ThreadId} (tid : ℤ) (page : Option Trapframe)
      (hfree : (p.threads t).state = .unused)
      (hrun : s.Turns q a ∨ ∃ u, (p.threads u).state = .running) : Change s a q p (p.setThread t
        { p.threads t with id := tid, state := .used, userTrapFrameBackup := page })
  | start {p : Proc} {t : ThreadId} (hused : (p.threads t).state = .used)
      (hrun : ∃ u, (p.threads u).state = .running) :
      Change s a q p (p.setThread t { p.threads t with state := .runnable })
  | makeRunnable (p : Proc) (nt : ThreadId) (ha : s.Turns q a) :
      Change s a q p (p.makeRunnable nt)

/-- What the step `a` from `s` does to the slots, and to the parents in `fork`. -/
structure Effect (s : Table) (a : Act) (s' : Table) : Prop where
  proc : ∀ q, ReflTransGen (Change s a q) (s.proc q) (s'.proc q)
  child : ∀ x np, (s'.pc x).child = some np → (s.pc x).child = some np ∨ a.Claims np

variable {s s₁ s' : Table} {a : Act} {q : ProcId} {x : Tid}

namespace Effect

theorem refl (s : Table) (a : Act) : Effect s a s := ⟨fun _ => .refl, fun _ _ => .inl⟩

section

variable (h : Effect s a s₁)

include h

theorem setProc (hp : ReflTransGen (Change s a q) (s₁.proc q) p) :
    Effect s a (s₁.setProc q p) := by
  refine ⟨fun r => ?_, h.child⟩
  by_cases hr : r = q
  · subst hr
    simpa [Table.setProc] using (h.proc r).trans hp
  · simpa [Table.setProc, hr] using h.proc r

theorem goto (x : Tid) {c : Pc}
    (hc : ∀ np, c.child = some np → (s.pc x).child = some np ∨ a.Claims np) :
    Effect s a (s₁.goto x c) := by
  refine ⟨h.proc, fun y np hy => ?_⟩
  by_cases hyx : y = x
  · subst hyx
    exact hc np (by simpa [Table.goto] using hy)
  · exact h.child y np (by simpa [Table.goto, hyx] using hy)

theorem one (hp : Change s a q (s₁.proc q) p) :
    Effect s a (s₁.setProc q p) := h.setProc (.single hp)

theorem move {c : Pc} (hp : Change s a x.1 (s₁.proc x.1) p)
    (hc : ∀ np, c.child = some np → (s.pc x).child = some np ∨ a.Claims np) :
    Effect s a ((s₁.setProc x.1 p).goto x c) := (h.one hp).goto x hc

theorem wakeup (x : Option Tid) (chan : Option Chan) : Effect s a (s₁.wakeup x chan) :=
  ⟨fun q => (h.proc q).tail (.wakeup _ _ _), h.child⟩

end

theorem sleepOn {chan : Chan} (hrun : (s.thread x).state = .running)
    (hnap : s.naps a = some (x, chan)) : Effect s a (s.sleepOn x chan) :=
  (refl s a).move (.sleep hrun hnap) nofun

theorem exit (h : Effect s a s₁) (status : ℤ) (ha : s.Turns x.1 a) :
    Effect s a (s₁.exit x status) := by
  have hadopt : Effect s a { s₁ with
      proc := fun q =>
        if (s₁.proc q).parent = some x.1 then { s₁.proc q with parent := some s₁.initproc }
        else s₁.proc q } := by
    refine ⟨fun q => (h.proc q).trans ?_, h.child⟩
    dsimp only
    split_ifs
    · exact .single (.fields rfl rfl rfl rfl fun _ => id)
    · exact .refl
  have hreparent : Effect s a (s₁.reparent x) := by
    unfold Table.reparent
    dsimp only
    split_ifs
    · exact hadopt.wakeup _ _
    · exact hadopt
  exact (hreparent.wakeup _ _).one (.exitMark _ status ha)

/-- What every change of a slot keeps is kept by the step. -/
theorem invariant {I : Proc → Prop} (h : Effect s a s')
    (hI : ∀ {p p'}, Change s a q p p' → I p → I p') (h0 : I (s.proc q)) : I (s'.proc q) := by
  have hq := h.proc q
  generalize s'.proc q = p at hq ⊢
  induction hq with
  | refl => exact h0
  | tail _ hc ih => exact hI hc ih

end Effect

/-! ### Threads and processes are allocated -/

theorem changes_allocthread (tid : ℤ) (page : Option Trapframe)
    (hrun : s.Turns q a ∨ ∃ u, (p.threads u).state = .running)
    (hnone : page = none → (∃ t, (p.threads t).state = .unused) → s.Turns q a) :
    ReflTransGen (Change s a q) p (p.allocthread tid page).2.1 := by
  unfold allocthread
  split
  · exact .refl
  · next t ht =>
    have hfree := findThread_unused ht
    have hnew : ReflTransGen (Change s a q) p _ := .single (.newThread tid page hfree hrun)
    cases page with
    | none => exact hnew.tail (.free _ (hnone rfl ⟨t, hfree⟩))
    | some f => exact hnew

theorem changes_allocproc (p : Proc) (pid tid : ℤ) (k : Pages) (ha : s.Turns q a) :
    ReflTransGen (Change s a q) p (p.allocproc pid tid k).2.1 := by
  have hclaim : ReflTransGen (Change s a q) p { p with pid := pid, state := .used } :=
    .single (.claim p pid ha)
  unfold allocproc
  dsimp only
  split
  · exact hclaim.tail (.free _ ha)
  · next frames _ =>
    have hframes := hclaim.tail (.frames _ frames)
    split
    · have hspace : ReflTransGen (Change s a q) p
          (({ p with pid := pid, state := .used } : Proc).setFrames frames).emptySpace :=
        hframes.tail (.fields rfl rfl rfl rfl fun _ _ => ⟨rfl, rfl⟩)
      have hal := hspace.trans (changes_allocthread tid k.backup (.inl ha) fun _ _ => ha)
      split
      · next heq =>
        rw [heq] at hal
        exact hal.tail (.free _ ha)
      · exact hal
    · exact hframes.tail (.free _ ha)

theorem effect_fork {k : Pages} {np : Option ProcId} (ha : a = .fork x k np)
    (hs : s.fork x k np = some s') : Effect s a s' := by
  cases np with
  | none =>
    cases hs
    exact .refl s a
  | some np =>
    have hturns : s.Turns np a := by rw [ha]; rfl
    have hchild := changes_allocproc (s.proc np) s.nextpid s.nexttid k hturns
    simp only [Table.fork] at hs
    split at hs
    · next heq =>
      rw [heq] at hchild
      cases hs
      exact ⟨((Effect.refl s a).setProc hchild).proc, fun _ _ => .inl⟩
    · next nt child tid heq =>
      rw [heq] at hchild
      have h1 : Effect s a { s.setProc np child with nextpid := s.nextpid + 1, nexttid := tid } :=
        ⟨((Effect.refl s a).setProc hchild).proc, fun _ _ => .inl⟩
      unfold Table.forkCopy at hs
      split_ifs at hs
      · obtain ⟨f, -, hs⟩ := Option.bind_eq_some_iff.1 hs
        cases hs
        have hcopy : Change s a np (child.setFrame nt { f with a0 := 0 })
            (((s.setProc np child).proc x.1).forkInto f child nt) :=
          .fields rfl rfl rfl rfl fun hall (hp : child.Default) => by
            show ((s.setProc np child).proc x.1).Default
            by_cases hx : x.1 = np
            · simpa [Table.setProc, hx] using hp
            · simpa [Table.setProc, hx] using hall x.1
        have hslot := (hchild.tail (.frame _ nt { f with a0 := 0 })).tail hcopy
        have h2 : Effect s a ({ s.setProc np child with
            nextpid := s.nextpid + 1, nexttid := tid }.setProc
            np (((s.setProc np child).proc x.1).forkInto f child nt)) := by
          refine ⟨fun r => ?_, fun _ _ => .inl⟩
          by_cases hr : r = np
          · subst hr
            simpa [Table.setProc] using hslot
          · simpa [Table.setProc, hr] using ReflTransGen.refl
        have hproc : (s.setProc np child).proc np = child := by simp [Table.setProc]
        rw [show ({ s.setProc np child with nextpid := s.nextpid + 1, nexttid := tid } :
          Table).proc np = child from hproc]
        exact (h2.goto (np, nt) (c := .run) nofun).goto x fun c hc =>
          .inr (by rw [ha]; exact Option.some.inj hc)
      · cases hs
        exact h1.one (.free _ hturns)

theorem effect_kthreadCreate {start stack : Word} {page : Option Trapframe}
    (ha : a = .kthreadCreate x start stack page) (hrun : (s.thread x).state = .running)
    (hs : s.kthreadCreate x start stack page = some s') : Effect s a s' := by
  have hal := changes_allocthread (s := s) (a := a) (q := x.1) s.nexttid page (.inr ⟨x.2, hrun⟩)
    fun hpage hfree => by rw [ha]; exact ⟨hpage, rfl, hfree⟩
  unfold Table.kthreadCreate at hs
  split at hs
  · next heq =>
    rw [heq] at hal
    cases hs
    exact ⟨((Effect.refl s a).setProc hal).proc, fun _ _ => .inl⟩
  · next nt p tid heq =>
    rw [heq] at hal
    obtain ⟨f, -, hs⟩ := Option.bind_eq_some_iff.1 hs
    cases hs
    obtain ⟨hfree, rfl⟩ := allocthread_some heq
    have hne : x.2 ≠ nt := by
      rintro rfl
      exact absurd (hrun.symm.trans hfree) (by decide)
    have hstart := (hal.tail (.frame _ nt { f with
      epc := start, sp := stack + BitVec.ofNat 64 MAX_STACK_SIZE - 16 })).tail
        (.start (t := nt) (by simp [setFrame]) ⟨x.2, by
          simpa [setFrame, Proc.setThread, hne, Table.thread] using hrun⟩)
    have h1 := ((Effect.refl s a).setProc hstart).goto (x.1, nt) (c := .run) (by rintro _ ⟨⟩)
    exact ⟨h1.proc, h1.child⟩

/-! ### Passes -/

theorem effect_passLoop (h : Effect s a s₁) (ha : a = .pass x)
    (hrun : (s₁.thread x).state = .running)
    (hsame : ∀ u, (s₁.thread (x.1, u)).state = (s.thread (x.1, u)).state)
    (hfrozen : (s₁.proc x.1).frozen = (s.proc x.1).frozen)
    (hscan : scan (s₁.proc x.1) = scan (s.proc x.1)) : Effect s a (s₁.passLoop x) := by
  unfold Table.passLoop
  dsimp only
  split_ifs with hf
  · exact h.goto x nofun
  · exact h.move (.thread (.inr hrun) (.inl rfl)) nofun
  · split
    · exact h.goto x nofun
    · next i hi =>
      exact (h.setProc (q := x.1) (.tail
        (.single (.sigKill hrun ha (hfrozen ▸ hf) (hscan ▸ hi) hsame))
        (.clear _ i))).goto x nofun
    · exact h.move (.clear _ _) nofun
    · exact h.goto x nofun
    · exact h.goto x nofun

theorem effect_pass (hs : s.pass x = some s') : Effect s (.pass x) s' := by
  unfold Table.pass at hs
  split_ifs at hs with hrun hfreeze
  · obtain ⟨p, hp, hs⟩ := Option.bind_eq_some_iff.1 hs
    obtain ⟨f, -, hp⟩ := Option.bind_eq_some_iff.1 hp
    obtain ⟨_, -, hp⟩ := Option.bind_eq_some_iff.1 hp
    cases hp
    cases hs
    have hsave : Effect s (.pass x) (s.setProc x.1 ((s.proc x.1).setThread x.2
        { (s.proc x.1).threads x.2 with userTrapFrameBackup := some f })) :=
      (Effect.refl s _).one (.thread (.inr hrun.1.1) (.inr hrun.1.1))
    have hstate : ∀ u, ((s.setProc x.1 ((s.proc x.1).setThread x.2
        { (s.proc x.1).threads x.2 with userTrapFrameBackup := some f })).thread (x.1, u)).state =
        (s.thread (x.1, u)).state := fun u => by
      by_cases hu : u = x.2
      · subst hu
        simp [Table.thread, Table.setProc]
      · simp [Table.thread, Table.setProc, Proc.setThread, hu]
    refine effect_passLoop hsave rfl ((hstate x.2).trans hrun.1.1) hstate ?_ ?_
    · simp [Table.setProc, Proc.setThread]
    · exact scan_congr fun j => by simp [Table.setProc, Proc.setThread, dispatch]
  · cases hs
    exact effect_passLoop (.refl s _) rfl hfreeze.1 (fun _ => rfl) rfl rfl

theorem userhandler_eq {stub : List Byte} {p p' : Proc} {t : ThreadId} {i : Fin 32}
    (h : userhandler stub p t i = some p') : ∃ f, p'.threads = (p.setFrame t f).threads ∧
      p'.state = p.state ∧ p'.pid = p.pid ∧
      p'.penddingSignals = (p.clearSignal i).penddingSignals ∧
      p'.signalHandlers = p.signalHandlers := by
  obtain ⟨f, -, h⟩ := Option.bind_eq_some_iff.1 h
  obtain ⟨b, -, h⟩ := Option.bind_eq_some_iff.1 h
  obtain ⟨m, -, h⟩ := Option.bind_eq_some_iff.1 h
  cases h
  exact ⟨_, rfl, rfl, rfl, rfl, rfl⟩

theorem effect_passOn {stub : List Byte} (hs : s.passOn x stub = some s') :
    Effect s (.passOn x stub) s' := by
  have h := Effect.refl s (.passOn x stub)
  unfold Table.passOn at hs
  split_ifs at hs
  dsimp only at hs
  split at hs
  · cases hs; exact h.move (.fields rfl rfl rfl rfl fun _ => id) nofun
  · cases hs; exact h.move (.clear _ _) nofun
  · cases hs; exact h.move (.fields rfl rfl rfl rfl fun _ => id) nofun
  · cases hs; exact h.move (.fields rfl rfl rfl rfl fun _ => id) nofun
  · cases hs; exact h.move (.clear _ _) nofun
  · next i _ =>
    obtain ⟨p, hp, hs⟩ := Option.bind_eq_some_iff.1 hs
    cases hs
    obtain ⟨f, hthreads, hstate, hpid, hpend, hhandlers⟩ := userhandler_eq hp
    refine Effect.goto (h.setProc (.tail (.tail (.single (.frame _ x.2 f)) (.clear _ i)) ?_)) x
      nofun
    refine .fields hthreads hstate hpid hpend fun _ hdfl => ?_
    rw [Proc.Default, hhandlers]
    exact hdfl
  · cases hs

theorem step_effect (hs : s.step a = some s') : Effect s a s' := by
  have h := Effect.refl s a
  cases a <;> simp only [Table.step] at hs
  case sched x =>
    split_ifs at hs with hx
    cases hs
    exact h.one (.thread (.inl hx.2) (.inr rfl))
  case yield x =>
    split_ifs at hs with hx
    cases hs
    exact h.one (.thread (.inr hx.1) (.inl rfl))
  case sleep x chan =>
    split_ifs at hs with hx
    cases hs
    exact .sleepOn hx.1 rfl
  case resume x =>
    split_ifs at hs with hx
    cases hs
    exact h.move (.thread (.inr hx.1) (.inr hx.1)) nofun
  case wakeup x chan =>
    split_ifs at hs
    cases hs
    exact h.wakeup x _
  case fork x k np =>
    split_ifs at hs
    exact effect_fork rfl hs
  case forkParent x =>
    split at hs
    · next np nt hpc =>
      split_ifs at hs
      cases hs
      refine Effect.goto (h.one ?_) x fun c hc => .inl ?_
      · exact .fields rfl rfl rfl rfl fun _ => id
      · rw [hpc]
        exact hc
    · cases hs
  case forkRunnable x =>
    split at hs
    · next np nt hpc =>
      split_ifs at hs
      cases hs
      refine (h.one (.makeRunnable _ nt ?_)).goto x nofun
      simp [Turns, hpc, Pc.child]
    · cases hs
  case kill x pid signum found =>
    split_ifs at hs with hx
    cases hs
    cases found with
    | none => exact h
    | some q => exact h.one (.arrive rfl hx.2)
  case exit x status =>
    split_ifs at hs
    cases hs
    exact h.exit status rfl
  case wait x copied =>
    split_ifs at hs with hx
    cases hs
    unfold Table.wait
    cases hr : s.reaped x with
    | some np =>
      dsimp only
      split_ifs with hcopied
      · exact h.one (.free _ ⟨hcopied, hr⟩)
      · exact h
    | none =>
      dsimp only
      split_ifs with hsleep
      · exact .sleepOn hx.1 (if_pos ⟨hr, hsleep⟩)
      · exact h
  case exec x =>
    split_ifs at hs with hx
    cases hs
    exact h.move (.execMark hx.1) nofun
  case execDone x im =>
    split_ifs at hs
    cases im with
    | none =>
      cases hs
      exact h.goto x nofun
    | some im =>
      obtain ⟨f, -, hs⟩ := Option.bind_eq_some_iff.1 hs
      cases hs
      have hframe : Change s (.execDone x (some im)) x.1 (s.proc x.1) ((s.proc x.1).setFrame x.2
          { f with a1 := im.sp, epc := im.entry, sp := im.sp }) := .frame _ _ _
      refine Effect.goto (h.setProc (.tail (.single hframe) ?_)) x nofun
      exact .fields rfl rfl rfl rfl fun _ _ => ⟨rfl, rfl⟩
  case unexpected x =>
    split_ifs at hs with hx
    cases hs
    have hmark : Change s (.unexpected x) x.1 (s.proc x.1)
        ((s.proc x.1).setThread x.2 { s.thread x with killed := 1 }) :=
      .thread (.inr hx.1) (.inr hx.1)
    exact h.setProc (.tail (.single hmark) (.fields rfl rfl rfl rfl fun _ => id))
  case pass x => exact effect_pass hs
  case passOn x stub => exact effect_passOn hs
  case sigprocmask x mask =>
    split_ifs at hs
    cases hs
    exact h.one (.fields rfl rfl rfl rfl fun _ => id)
  case sigaction x signum act oldact junk =>
    split_ifs at hs
    obtain ⟨⟨v, p⟩, hp, hs⟩ := Option.bind_eq_some_iff.1 hs
    cases hs
    have heq := sigaction_eq hp
    exact h.one (.fields (by rw [heq]) (by rw [heq]) (by rw [heq]) (by rw [heq])
      fun _ hdfl => ⟨(sigaction_others hp (.inr (.inl rfl))).1.trans hdfl.1,
        (sigaction_others hp (.inr (.inr rfl))).1.trans hdfl.2⟩)
  case sigret x =>
    split_ifs at hs
    obtain ⟨p, hp, hs⟩ := Option.bind_eq_some_iff.1 hs
    cases hs
    obtain ⟨_, -, hp⟩ := Option.bind_eq_some_iff.1 hp
    obtain ⟨b, -, hp⟩ := Option.bind_eq_some_iff.1 hp
    cases hp
    refine h.setProc (.tail (.single (.frame _ x.2 b)) ?_)
    exact .fields rfl rfl rfl rfl fun _ => id
  case kthreadCreate x start stack page =>
    split_ifs at hs with hx
    exact effect_kthreadCreate rfl hx.1 hs
  case kthreadExit x status last =>
    split_ifs at hs with hx
    have hself := h.one (q := x.1) (@Change.zombie s _ _ _ status _ hx.1.1 rfl)
    unfold Table.kthreadExit at hs
    dsimp only at hs
    split_ifs at hs with hlast
    · cases hs
      exact hself.exit status ⟨hlast, rfl⟩
    · cases hs
      exact hself.wakeup _ _
  case kthreadJoin x id copied =>
    split_ifs at hs with hx
    cases hs
    unfold Table.kthreadJoin
    by_cases hid : id = 0 ∨ id = (s.thread x).id
    · rw [if_pos hid]
      exact h
    rw [if_neg hid]
    cases hfind : (s.proc x.1).findThread fun th => th.id = id with
    | none => exact h
    | some t =>
      dsimp only
      split_ifs with hz hcopied hkilled
      · exact h.one (.join hx.1 hz)
      · exact h
      · exact h
      · refine .sleepOn hx.1 ?_
        simp only [naps, if_neg hid, hfind, hz, hkilled, or_self, if_false]

theorem state_of_exits (hs : s.step a = some s') (ha : a.Exits q) :
    (s'.proc q).state = .zombie := by
  have hexit : ∀ (s : Table) (x : Tid) (status : ℤ), ((s.exit x status).proc x.1).state = .zombie :=
    fun s x status => by simp [Table.exit, Table.setProc, exitMark]
  cases a with
  | exit x status =>
    obtain rfl : x.1 = q := ha
    simp only [Table.step] at hs
    split_ifs at hs
    cases hs
    exact hexit s x status
  | kthreadExit x status last =>
    cases last with
    | false => exact ha.elim
    | true =>
      obtain rfl : x.1 = q := ha
      simp only [Table.step, Table.kthreadExit, if_true] at hs
      split_ifs at hs
      cases hs
      exact hexit _ x status
  | _ => exact ha.elim

/-- The first process is set up as in `fork`, in a table of zeroed slots. -/
theorem userinit_effect {k : Pages} {mem : UserMem} (hboot : userinit k mem = some s') :
    ∃ s : Table, (∀ q, s.proc q = zero) ∧ Effect s (.fork (0, 0) k (some 0)) s' := by
  let s : Table := ⟨fun _ => zero, fun _ => .run, 0, 0, 0⟩
  have hchild := changes_allocproc (s := s) (q := 0) (a := .fork (0, 0) k (some 0)) zero 1 1 k rfl
  unfold userinit at hboot
  split at hboot
  · cases hboot
  · next nt p tid heq =>
    rw [heq] at hchild
    obtain ⟨f, -, hboot⟩ := Option.bind_eq_some_iff.1 hboot
    cases hboot
    have hfields : Change s (.fork (0, 0) k (some 0)) 0
        (p.setFrame nt { f with epc := 0, sp := BitVec.ofNat 64 PGSIZE })
        { p.setFrame nt { f with epc := 0, sp := BitVec.ofNat 64 PGSIZE } with
          pagetable := some mem, sz := BitVec.ofNat 64 PGSIZE, frozen := 0, signalMask := 0 } :=
      .fields rfl rfl rfl rfl fun _ => id
    have hp := ((hchild.tail (.frame _ _ _)).tail hfields).tail (.makeRunnable _ nt rfl)
    exact ⟨s, fun _ => rfl, ((Effect.refl s _).setProc (q := 0) hp).proc, nofun⟩

end Table

end Xv6
