import Xv6.Smp.Waiting

/-!
# Every child is reaped once

A run of the machine with the list of what happens in the families: which process is born to which,
exits with which status, is reaped by a `wait` of which, and which `wait` finds no children.  While
no process has a second thread, and `fork` gets the page for the new thread, a process is reaped at
most once, after its exit and with its status, by the process that forked it or, once that one has
exited, by the first process; and a `wait` finds no children only if all have been reaped.
-/

namespace Xv6.Smp

/-- What happens in the families; processes are named by their pids. -/
inductive Event
  | born (parent child : ℤ)
  | exited (pid status : ℤ)
  | reaped (parent pid status : ℤ) -- A `wait` of `parent` returns `pid` with the status
  | childless (pid : ℤ) -- A `wait` finds no children
  deriving DecidableEq, Repr

namespace Event

/-- The first process. -/
def initpid : ℤ := 1

/-- The child has been reaped. -/
def Reaped (log : List Event) (child : ℤ) : Prop :=
  ∃ parent status, reaped parent child status ∈ log

/-- The process has exited. -/
def Exited (log : List Event) (pid : ℤ) : Prop := ∃ status, exited pid status ∈ log

/-- The event makes sense after the earlier ones. -/
def Justified (log : List Event) : Event → Prop
  | born _ child => ∀ parent, born parent child ∉ log
  | exited pid _ => ¬ Exited log pid
  | reaped parent pid status => ¬ Reaped log pid ∧ exited pid status ∈ log ∧
      ∃ forker, born forker pid ∈ log ∧ (parent = forker ∨ parent = initpid ∧ Exited log forker)
  | childless pid => ∀ forker child, born forker child ∈ log →
      forker = pid ∨ pid = initpid ∧ Exited log forker → Reaped log child

/-- Every event makes sense after the earlier ones; the last one comes first in the list. -/
def Sound : List Event → Prop
  | [] => True
  | e :: log => Justified log e ∧ Sound log

end Event

variable {C M K : Type} [DecidableEq C]

/-- The event of a step: `np->parent = p` in `fork`, `p->state = ZOMBIE` in `exit`, `freeproc(np)`
in `wait`, and the scan of `wait` that sees no child. -/
def Machine.event (s : Machine C M) (a : C × Choice K) : Option Event :=
  match s.cpu a.1 with
  | .run x =>
    match s.pos x, a.2 with
    | .here (.fork4 np _), .go => some (.born (s.proc x.1).pid (s.proc np).pid)
    | .here (.exit1 e), .go => some (.exited (s.proc x.1).pid e.status)
    | .here (.waitAt np), .flag true =>
      if (s.proc np).state = .zombie then
        some (.reaped (s.proc x.1).pid (s.proc np).pid (s.proc np).xstate)
      else none
    | .here (.body .user), .wait =>
      if (s.nextChild x.1 0).isNone then some (.childless (s.proc x.1).pid) else none
    | .here (.reacquire .wait), .go =>
      if (s.nextChild x.1 0).isNone then some (.childless (s.proc x.1).pid) else none
    | _, _ => none
  | _ => none

/-- A step together with its event. -/
def loggedStep (mon : Monitor M K) (s : Machine C M × List Event) (a : C × Choice K) :
    Option (Machine C M × List Event) :=
  (s.1.step mon a).map fun s' => (s', (s.1.event a).toList ++ s.2)

/-- No process gets a second thread. -/
def Choice.Unthreaded : Choice K → Prop
  | .kthreadCreate _ _ _ => False
  | _ => True

/-- `fork` gets the page for the backup frame of the new thread. -/
def Choice.Backed : Choice K → Prop
  | .pages k => k.backup ≠ none
  | _ => True

/-- The condition on the steps; `nextpid`, an `int`, does not overflow. -/
def Lone (s : Machine C M × List Event) (a : C × Choice K) : Prop :=
  a.2.Unthreaded ∧ a.2.Backed ∧ s.1.nextpid < 2 ^ 31 - 1

variable {mon : Monitor M K} {s s' : Machine C M} {c : C} {x y : Tid} {log : List Event}

variable {a : C × Choice K}

theorem step_here {b : Base} (hx : s.cpu a.1 = .run x) (hp : s.pos x = .here b) :
    s.step mon a = s.baseStep mon a.1 x b a.2 := by
  unfold Machine.step
  dsimp only
  rw [hx]
  dsimp only
  unfold Machine.threadStep
  rw [hp]

/-! ### Processes with one thread -/

/-- No process has two threads. -/
def Machine.Solo (s : Machine C M) : Prop :=
  ∀ q t t', s.state (q, t) ≠ .unused → s.state (q, t') ≠ .unused → t = t'

variable {t : ThreadId}

section

omit [DecidableEq C]

/-- The thread that executes is the only one of its process. -/
theorem Machine.Solo.only (hsolo : s.Solo) (h : s.Inv) (hx : s.cpu c = .run x)
    (ht : t ≠ x.2) : s.state (x.1, t) = .unused := by
  by_contra hne
  refine ht (hsolo x.1 t x.2 hne ?_)
  rcases h.exec_state hx with hst | hst <;> exact fun hun => by cases hst.symm.trans hun

theorem Machine.Solo.careful (hsolo : s.Solo) (h : s.Inv)
    (hG : Lone (s, log) a) : s.Careful a := by
  obtain ⟨c, ch⟩ := a
  unfold Machine.Careful
  dsimp only
  split
  · next x hx =>
    split
    · intro c' t ht
      have hun := hsolo.only h hx ht
      exact h.not_exec (by rw [hun]; simp) (by rw [hun]; simp) c'
    · next id t hp =>
      have hne : ∀ {b : Base}, s.pos (x.1, t) = .here b → b ≠ .joinAt id t → False := by
        intro b hb hne
        by_cases ht : t = x.2
        · rw [ht, hp] at hb
          exact hne (Pos.here.inj hb).symm
        · obtain ⟨c', hc'⟩ := h.executes hb
          have hun := hsolo.only h hx ht
          rcases h.exec_state hc' with hst | hst <;> cases hun.symm.trans hst
      exact ⟨fun hb => hne hb (by simp), fun hb => hne hb (by simp)⟩
    · exact hG.1.elim
    · exact hG.2.1
    · trivial
  · trivial

/-- `hproc` says what a step does to the process of the thread that executes; the other threads of
it are woken up at most. -/
theorem unused_of_update {p : Proc} (hproc : s'.proc = Function.update s.proc x.1 p)
    (hw : Woken ((s.proc x.1).threads t).state (p.threads t).state)
    (hun : s.state (x.1, t) = .unused) : s'.state (x.1, t) = .unused := by
  have hun : ((s.proc x.1).threads t).state = .unused := hun
  have hself : s'.state (x.1, t) = (p.threads t).state :=
    Effect.state_of_update_self (y := (x.1, t)) hproc rfl
  exact hself.trans ((hw.eq (by rw [hun]; nofun)).trans hun)

/-- The system calls other than `kthread_create` start no thread of the process. -/
theorem syscallStep_unused {ch : Choice K}
    (hch : ∀ start stack page, ch ≠ .kthreadCreate start stack page)
    (hs : s.syscallStep mon c x ch = some s') (ht : t ≠ x.2)
    (hun : s.state (x.1, t) = .unused) : s'.state (x.1, t) = .unused := by
  have hsame : s'.proc = s.proc → s'.state (x.1, t) = .unused := fun hproc => by
    unfold Machine.state Machine.thread
    rw [hproc]
    exact hun
  unfold Machine.syscallStep at hs
  split at hs
  · exact absurd rfl (hch _ _ _)
  · obtain ⟨lock, -, ⟨⟩⟩ := acquire_bind hs
    exact unused_of_update rfl (.inl (congrArg Thread.state (Function.update_of_ne ht _ _))) hun
  · split_ifs at hs
    · cases hs
      exact hun
    · obtain ⟨lock, -, ⟨⟩⟩ := acquire_bind hs
      refine hsame ?_
      unfold Machine.joinFrom
      split <;> rfl
  · cases hs
    exact hsame rfl
  · split_ifs at hs
    cases hs
    exact hsame rfl
  · obtain ⟨lock, -, ⟨⟩⟩ := acquire_bind hs
    refine hsame ?_
    unfold Machine.waitFrom
    split <;> rfl
  · obtain ⟨lock, -, ⟨⟩⟩ := acquire_bind hs
    exact unused_of_update rfl ((Roused.execMark _ _).thread t) hun
  · obtain ⟨lock, -, ⟨⟩⟩ := acquire_bind hs
    exact unused_of_update rfl ((Roused.sigKillHandler _).thread t) hun
  · cases hs

end

theorem bodyStep_unused {ch : Choice K}
    (hch : ∀ start stack page, ch ≠ .kthreadCreate start stack page)
    (hs : s.bodyStep mon c x .user ch = some s') (ht : t ≠ x.2)
    (hun : s.state (x.1, t) = .unused) : s'.state (x.1, t) = .unused := by
  have hyield : ∀ {b : Base}, s.yieldStep c x b = some s' → s'.state (x.1, t) = .unused := by
    intro b hs
    obtain ⟨lock, -, ⟨⟩⟩ := acquire_bind hs
    exact unused_of_update rfl (.inl (congrArg Thread.state (Function.update_of_ne ht _ _))) hun
  unfold Machine.bodyStep at hs
  split at hs
  · exact hyield hs
  · exact hyield hs
  · obtain ⟨lock, -, ⟨⟩⟩ := acquire_bind hs
    exact hun
  · cases hs
    exact hun
  · obtain ⟨m, -, hs⟩ := Option.bind_eq_some_iff.1 hs
    cases hs
    exact hun
  · split_ifs at hs
    exact syscallStep_unused hch hs ht hun
  · next _ hclosing => exact absurd hclosing nofun
  · cases hs

/-- What a step without `kthread_create` does to the threads of a process: free slots stay free, or
the process is new and has one thread. -/
theorem Effect.lone (h : s.Inv) (he : Effect mon c s s')
    (hcreate : ∀ x t, s.cpu c = .run x → s.pos x = .here (.body .user) → t ≠ x.2 →
      s.state (x.1, t) = .unused → s'.state (x.1, t) = .unused) (q : ProcId) :
    (∀ t, s.state (q, t) = .unused → s'.state (q, t) = .unused) ∨
      ∃ nt, ∀ t, t ≠ nt → s'.state (q, t) = .unused := by
  by_cases hall : ∀ t, s.state (q, t) = .unused → s'.state (q, t) = .unused
  · exact .inl hall
  · refine .inr ?_
    simp only [not_forall] at hall
    obtain ⟨t, hun, hused⟩ := hall
    have hidle := h.not_exec (x := (q, t)) (by rw [hun]; decide) (by rw [hun]; decide) c
    cases he.shift h (q, t) with
    | same hst => exact absurd (hst.trans hun) hused
    | woken hst | dispatch hst | forkRun _ _ _ _ hst => cases hun.symm.trans hst
    | leave _ hx | kexit hx => exact absurd hx hidle
    | exit _ _ _ _ _ _ _ _ hne => exact absurd hun hne
    | create x hq hx hp hst hst' =>
      obtain rfl : x.1 = q := hq
      have hne : t ≠ x.2 := fun ht => hidle (by rw [ht]; exact hx)
      exact absurd (hcreate x t hx hp hne hun) hused
    | reap _ hst' => exact absurd hst' hused
    | fork _ _ _ _ hrest => exact ⟨t, hrest⟩

theorem Machine.Solo.step (hsolo : s.Solo) (h : s.Inv) (hG : Lone (s, log) a)
    (hs : s.step mon a = some s') : s'.Solo := by
  obtain ⟨c, ch⟩ := a
  have he := step_effect h (hsolo.careful h hG) hs
  intro q t t' ht ht'
  have hcreate : ∀ x t, s.cpu c = .run x → s.pos x = .here (.body .user) → t ≠ x.2 →
      s.state (x.1, t) = .unused → s'.state (x.1, t) = .unused := by
    intro x t hx hp hne hun
    rw [step_here hx hp] at hs
    refine bodyStep_unused ?_ hs hne hun
    rintro start stack page rfl
    exact hG.1
  rcases he.lone h hcreate q with hkeep | ⟨nt, hrest⟩
  · exact hsolo q t t' (fun hun => ht (hkeep t hun)) fun hun => ht' (hkeep t' hun)
  · have heq : ∀ u, s'.state (q, u) ≠ .unused → u = nt := fun u hu => by
      by_contra hne
      exact hu (hrest u hne)
    exact (heq t ht).trans (heq t' ht').symm

/-! ### Steps and events -/

/-- The events of the steps at the positions where a process gets a parent, exits or is reaped. -/
theorem event_adopt {np : ProcId} {nt : ThreadId} (hx : s.cpu a.1 = .run x)
    (hp : s.pos x = .here (.fork4 np nt)) (hs : s.step mon a = some s')
    (hpar : (s'.proc np).parent ≠ (s.proc np).parent) :
    s.event a = some (.born (s.proc x.1).pid (s.proc np).pid) := by
  obtain ⟨c, ch⟩ := a
  rw [step_here hx hp] at hs
  dsimp only at hx hs
  cases ch with
  | go => simp [Machine.event, hx, hp]
  | yield =>
    exfalso
    simp only [Machine.baseStep] at hs
    split_ifs at hs
    obtain ⟨lock, -, ⟨⟩⟩ := acquire_bind hs
    exact hpar (@Still.update x.1 ((s.proc x.1).setThread x.2 _) s.proc
      ⟨.refl _, rfl, rfl, rfl⟩ np).parent
  | _ => cases hs

theorem event_mark {e : Exiting} (hx : s.cpu a.1 = .run x)
    (hp : s.pos x = .here (.exit1 e)) (hs : s.step mon a = some s') :
    s.event a = some (.exited (s.proc x.1).pid e.status) := by
  obtain ⟨c, ch⟩ := a
  rw [step_here hx hp] at hs
  dsimp only at hx hs
  cases ch with
  | go => simp [Machine.event, hx, hp]
  | yield => simp [Machine.baseStep, Base.locks] at hs
  | _ => cases hs

theorem event_reap {np : ProcId} (hx : s.cpu a.1 = .run x)
    (hp : s.pos x = .here (.waitAt np)) (hz : (s.proc np).state = .zombie)
    (hs : s.step mon a = some s') (hst : (s'.proc np).state ≠ .zombie) :
    s.event a = some (.reaped (s.proc x.1).pid (s.proc np).pid (s.proc np).xstate) := by
  obtain ⟨c, ch⟩ := a
  rw [step_here hx hp] at hs
  dsimp only at hx hs
  cases ch with
  | flag copied =>
    cases copied with
    | true => simp [Machine.event, hx, hp, hz]
    | false =>
      exfalso
      obtain ⟨lock, -, hs⟩ := acquire_bind hs
      rw [if_pos hz] at hs
      cases hs
      exact hst hz
  | yield => simp [Machine.baseStep, Base.locks] at hs
  | _ => cases hs

/-- What the step does that has an event. -/
inductive Happens (s s' : Machine C M) (x : Tid) : Event → Prop
  | born {np : ProcId} {nt : ThreadId} (hp : s.pos x = .here (.fork4 np nt))
      (hproc : s'.proc np = { s.proc np with parent := some x.1 }) :
      Happens s s' x (.born (s.proc x.1).pid (s.proc np).pid)
  | exited {e : Exiting} (hp : s.pos x = .here (.exit1 e))
      (hproc : s'.proc x.1 = (s.proc x.1).exitMark e.status) :
      Happens s s' x (.exited (s.proc x.1).pid e.status)
  | reaped {np : ProcId} (hp : s.pos x = .here (.waitAt np)) (hz : (s.proc np).state = .zombie)
      (hproc : s'.proc np = (s.proc np).freeproc) :
      Happens s s' x (.reaped (s.proc x.1).pid (s.proc np).pid (s.proc np).xstate)
  | childless (hnext : s.nextChild x.1 0 = none) (hw : s.lock .wait = none)
      (hp : s.pos x ≠ .here .exit2) (hparting : (s.pos x).parting = false) :
      Happens s s' x (.childless (s.proc x.1).pid)

theorem happens_of_event {e : Event} (hs : s.step mon a = some s')
    (he : s.event a = some e) : ∃ x, s.cpu a.1 = .run x ∧ Happens s s' x e := by
  obtain ⟨c, ch⟩ := a
  unfold Machine.event at he
  dsimp only at he ⊢
  split at he
  · next x hx =>
    refine ⟨x, hx, ?_⟩
    split at he
    · next np nt hp =>
      cases he
      rw [step_here hx hp] at hs
      obtain ⟨lock, -, ⟨⟩⟩ := acquire_bind hs
      exact .born hp (Function.update_self _ _ _)
    · next e hp =>
      cases he
      rw [step_here hx hp] at hs
      obtain ⟨lock, -, ⟨⟩⟩ := acquire_bind hs
      exact .exited hp (Function.update_self _ _ _)
    · next np hp =>
      split_ifs at he with hz
      cases he
      rw [step_here hx hp] at hs
      obtain ⟨lock, -, hs⟩ := acquire_bind hs
      rw [if_pos hz, if_pos rfl] at hs
      cases hs
      exact .reaped hp hz (Function.update_self _ _ _)
    · next hp =>
      split_ifs at he with hnone
      cases he
      rw [step_here hx hp] at hs
      refine .childless (Option.isNone_iff_eq_none.1 hnone) ?_ (by rw [hp]; simp) (by rw [hp]; rfl)
      unfold Machine.baseStep Machine.bodyStep at hs
      dsimp only at hs
      split_ifs at hs
      obtain ⟨lock, hlock, -⟩ := acquire_bind hs
      exact acquire_free hlock
    · next hp =>
      split_ifs at he with hnone
      cases he
      rw [step_here hx hp] at hs
      refine .childless (Option.isNone_iff_eq_none.1 hnone) ?_ (by rw [hp]; simp) (by rw [hp]; rfl)
      obtain ⟨lock, hlock, -⟩ := acquire_bind hs
      exact acquire_free hlock
    · cases he
  · cases he

/-! ### The list and the table -/

/-- The process has exited, or is in `exit` past `acquire(&wait_lock)`. -/
def Machine.Left (s : Machine C M) (log : List Event) (pid : ℤ) : Prop :=
  Event.Exited log pid ∨ ∃ z b, s.pos z = .here b ∧ b.parting = true ∧ (s.proc z.1).pid = pid

/-- What the list of events says about the table. -/
structure Chronicle (s : Machine C M) (log : List Event) : Prop where
  init : (s.proc s.initproc).pid = Event.initpid
  pid_lt : ∀ q, (s.proc q).state ≠ .unused → (s.proc q).pid < s.nextpid
  pid_inj : ∀ q r, (s.proc q).state ≠ .unused → (s.proc r).state ≠ .unused →
    (s.proc q).pid = (s.proc r).pid → q = r
  zombie : ∀ q, (s.proc q).state = .zombie → .exited (s.proc q).pid (s.proc q).xstate ∈ log
  exited : ∀ pid, Event.Exited log pid → pid < s.nextpid ∧
    ∀ q, (s.proc q).state ≠ .unused → (s.proc q).pid = pid → (s.proc q).state = .zombie
  reaped : ∀ pid, Event.Reaped log pid → pid < s.nextpid ∧
    ∀ q, (s.proc q).state ≠ .unused → (s.proc q).pid ≠ pid
  forker : ∀ q r, (s.proc q).parent = some r → ∃ forker, .born forker (s.proc q).pid ∈ log
  /-- A child is reaped, or its parent is who forked it, or the first process once that one has
  left. -/
  children : ∀ forker child, .born forker child ∈ log → Event.Reaped log child ∨
    ∃ q r, (s.proc q).state ≠ .unused ∧ (s.proc q).pid = child ∧ (s.proc q).parent = some r ∧
      ((s.proc r).pid = forker ∨ r = s.initproc ∧ s.Left log forker)

variable {q : ProcId}

section

variable (h : s.Inv) (hk : Kin c s s')

include h hk

omit [DecidableEq C] in
/-- The pid of a slot in use is that from before, or new. -/
theorem Kin.pid_cases (hq : (s'.proc q).state ≠ .unused) :
    (s.proc q).state ≠ .unused ∧ (s'.proc q).pid = (s.proc q).pid ∨
      (s'.proc q).pid = s.nextpid ∧ s'.nextpid = s.nextpid + 1 ∧
        ∃ x nt, s.cpu c = .run x ∧ s'.pos x = .here (.fork3 q (some nt) false) := by
  cases hk.lot q with
  | still hs =>
    refine .inl ⟨fun hun => hq ?_, hs.pid⟩
    exact (hs.state.eq (by rw [hun]; nofun)).trans hun
  | disown _ _ _ _ _ _ _ hproc | adopt _ _ _ _ _ hproc => rw [hproc] at hq ⊢; exact .inl ⟨hq, rfl⟩
  | run x nt hx hp hproc =>
    rw [hproc]
    exact .inl ⟨by rw [(h.child hx hp).1]; nofun, rfl⟩
  | mark x e hx hp hxq hproc =>
    subst hxq
    rw [hproc]
    exact .inl ⟨(h.live_here hx hp nofun).1, rfl⟩
  | born x nt hx hp' _ _ hpid _ hnext => exact .inr ⟨hpid, hnext, x, nt, hx, hp'⟩
  | reap _ _ _ _ hproc => rw [hproc] at hq; exact absurd rfl hq
  | fail _ hun => exact absurd hun hq

omit [DecidableEq C] in
theorem Kin.pid_live (hq : (s.proc q).Live) :
    (s'.proc q).pid = (s.proc q).pid := by
  cases hk.lot q with
  | still hs => exact hs.pid
  | disown _ _ _ _ _ _ _ hproc | adopt _ _ _ _ _ hproc => rw [hproc]
  | run _ _ hx hp => exact absurd (h.child hx hp).1 hq.2.1
  | mark _ _ _ _ _ hproc => rw [hproc]; rfl
  | born _ _ _ _ hfree | fail hfree => exact absurd hfree hq.1
  | reap _ _ _ hz => exact absurd hz hq.2.2

omit [DecidableEq C] in
/-- A zombie whose slot stays in use stays a zombie. -/
theorem Kin.zombie_keep (hz : (s.proc q).state = .zombie) (hq : (s'.proc q).state ≠ .unused) :
    (s'.proc q).state = .zombie := by
  cases hk.lot q with
  | still hs => exact (hs.state.eq (by rw [hz]; nofun)).trans hz
  | disown _ _ _ _ _ _ _ hproc | adopt _ _ _ _ _ hproc => rw [hproc]; exact hz
  | run _ _ hx hp => exact absurd ((h.child hx hp).1.symm.trans hz) nofun
  | mark _ _ _ _ _ hproc => rw [hproc]; rfl
  | born _ _ _ _ hfree | fail hfree => exact absurd (hfree.symm.trans hz) nofun
  | reap _ _ _ _ hproc => rw [hproc] at hq; exact absurd rfl hq

end

namespace Event

variable {e : Event} {o : Option Event} {pid : ℤ}

theorem mem_of_old (he : e ∈ log) : e ∈ o.toList ++ log := List.mem_append_right _ he

theorem mem_of_new (he : o = some e) : e ∈ o.toList ++ log := by
  rw [he]
  exact List.mem_cons_self

theorem mem_cases (he : e ∈ o.toList ++ log) : e ∈ log ∨ o = some e := by
  rcases List.mem_append.1 he with hnew | hold
  · exact .inr (Option.mem_toList.1 hnew)
  · exact .inl hold

theorem Exited.old (h : Exited log pid) : Exited (o.toList ++ log) pid :=
  h.imp fun _ => mem_of_old

theorem Reaped.old (h : Reaped log pid) : Reaped (o.toList ++ log) pid :=
  h.imp fun _ => .imp fun _ => mem_of_old

end Event

namespace Chronicle

open Event

variable {a : C × Choice K} {pid : ℤ}

omit [DecidableEq C] in
/-- A slot in use has the pid of a process that exited, or was reaped, only if it had before. -/
theorem old_pid (h : s.Inv) (hk : Kin c s s') (hq : (s'.proc q).state ≠ .unused)
    (hlt : pid < s.nextpid) (heq : (s'.proc q).pid = pid) :
    (s.proc q).state ≠ .unused ∧ (s.proc q).pid = pid := by
  rcases hk.pid_cases h hq with ⟨hold, hpid⟩ | ⟨hnew, -⟩
  · exact ⟨hold, hpid.symm.trans heq⟩
  · rw [hnew] at heq
    exact absurd hlt (by rw [heq]; exact lt_irrefl _)

section

variable (hc : Chronicle s log)

include hc

omit [DecidableEq C] in
theorem pid_lt_step (h : s.Inv) (hk : Kin c s s')
    (hq : (s'.proc q).state ≠ .unused) : (s'.proc q).pid < s'.nextpid := by
  rcases hk.pid_cases h hq with ⟨hold, hpid⟩ | ⟨hnew, hnext, -⟩
  · rw [hpid]
    exact lt_of_lt_of_le (hc.pid_lt q hold) hk.nextpid_le
  · rw [hnew, hnext]
    omega

omit [DecidableEq C] in
theorem pid_inj_step (h : s.Inv) (hk : Kin c s s') {q r : ProcId}
    (hq : (s'.proc q).state ≠ .unused) (hr : (s'.proc r).state ≠ .unused)
    (heq : (s'.proc q).pid = (s'.proc r).pid) : q = r := by
  rcases hk.pid_cases h hq with ⟨hq0, hpq⟩ | ⟨hnq, -, x, nt, hx, hp⟩
  · obtain ⟨hr0, hpr⟩ := old_pid h hk hr (hc.pid_lt q hq0) (heq.symm.trans hpq)
    exact hc.pid_inj q r hq0 hr0 hpr.symm
  · rcases hk.pid_cases h hr with ⟨hr0, hpr⟩ | ⟨-, -, x', nt', hx', hp'⟩
    · have := hc.pid_lt r hr0
      rw [← hpr, ← heq, hnq] at this
      exact absurd this (lt_irrefl _)
    · -- the thread that executes sets up one child
      rw [CpuPos.run.inj (hx'.symm.trans hx), hp] at hp'
      injection hp' with hb
      injection hb with hqr

theorem zombie_step (hk : Kin a.1 s s') (hs : s.step mon a = some s')
    (hz : (s'.proc q).state = .zombie) :
    .exited (s'.proc q).pid (s'.proc q).xstate ∈ (s.event a).toList ++ log := by
  cases hk.lot q with
  | still hst =>
    rw [hst.pid, hst.xstate]
    exact mem_of_old (hc.zombie q (hst.state_eq hz nofun))
  | disown _ _ _ _ _ _ _ hproc | adopt _ _ _ _ _ hproc =>
    rw [hproc] at hz ⊢; exact mem_of_old (hc.zombie q hz)
  | run _ _ _ _ hproc | reap _ _ _ _ hproc => rw [hproc] at hz; cases hz
  | mark x e hx hp hxq hproc =>
    subst hxq
    rw [hproc]
    exact mem_of_new (event_mark hx hp hs)
  | born _ _ _ _ _ hused => rw [hused] at hz; cases hz
  | fail _ hun => rw [hun] at hz; cases hz

theorem exited_step (h : s.Inv) (hk : Kin a.1 s s')
    (hs : s.step mon a = some s') (he : Event.Exited ((s.event a).toList ++ log) pid) :
    pid < s'.nextpid ∧
      ∀ q, (s'.proc q).state ≠ .unused → (s'.proc q).pid = pid → (s'.proc q).state = .zombie := by
  obtain ⟨status, he⟩ := he
  rcases mem_cases he with hold | hnew
  · obtain ⟨hlt, hall⟩ := hc.exited pid ⟨status, hold⟩
    refine ⟨lt_of_lt_of_le hlt hk.nextpid_le, fun q hq heq => ?_⟩
    obtain ⟨hq0, hpq⟩ := old_pid h hk hq hlt heq
    exact hk.zombie_keep h (hall q hq0 hpq) hq
  · obtain ⟨x, hx, hhap⟩ := happens_of_event hs hnew
    cases hhap with
    | exited hp hproc =>
      have hlive := h.live_here hx hp nofun
      have hlt := hc.pid_lt x.1 hlive.1
      refine ⟨lt_of_lt_of_le hlt hk.nextpid_le, fun q hq heq => ?_⟩
      obtain ⟨hq0, hpq⟩ := old_pid h hk hq hlt heq
      rw [hc.pid_inj q x.1 hq0 hlive.1 hpq, hproc]
      rfl

theorem reaped_step (h : s.Inv) (hk : Kin a.1 s s')
    (hs : s.step mon a = some s') (he : Reaped ((s.event a).toList ++ log) pid) :
    pid < s'.nextpid ∧ ∀ q, (s'.proc q).state ≠ .unused → (s'.proc q).pid ≠ pid := by
  obtain ⟨parent, status, he⟩ := he
  rcases mem_cases he with hold | hnew
  · obtain ⟨hlt, hall⟩ := hc.reaped pid ⟨parent, status, hold⟩
    refine ⟨lt_of_lt_of_le hlt hk.nextpid_le, fun q hq heq => ?_⟩
    obtain ⟨hq0, hpq⟩ := old_pid h hk hq hlt heq
    exact hall q hq0 hpq
  · obtain ⟨x, hx, hhap⟩ := happens_of_event hs hnew
    cases hhap with
    | @reaped np hp hz hproc =>
      have hnp : (s.proc np).state ≠ .unused := by rw [hz]; nofun
      have hlt := hc.pid_lt np hnp
      refine ⟨lt_of_lt_of_le hlt hk.nextpid_le, fun q hq heq => ?_⟩
      obtain ⟨hq0, hpq⟩ := old_pid h hk hq hlt heq
      rw [hc.pid_inj q np hq0 hnp hpq, hproc] at hq
      exact hq rfl

end

omit [DecidableEq C] in
/-- The child that gets its parent in `fork` has none before. -/
theorem adopt_fresh (h : s.Inv) (hf : s.Family) {np : ProcId} {nt : ThreadId}
    (hx : s.cpu c = .run x) (hp : s.pos x = .here (.fork4 np nt)) :
    (s.proc np).parent = none ∧ (s.proc np).state = .used := by
  have hrun : s.state x = .running := h.state_here hx hp
  exact ⟨hf.fresh x np (by rw [hp]; rfl) (Machine.Inv.not_gone hrun),
    (h.forking x np nt (by rw [hp]; rfl) (Machine.Inv.not_gone hrun)).1⟩

theorem forker_step (hc : Chronicle s log) (h : s.Inv) (hf : s.Family) (hk : Kin a.1 s s')
    (hs : s.step mon a = some s') {q r : ProcId} (hpar : (s'.proc q).parent = some r) :
    ∃ forker, .born forker (s'.proc q).pid ∈ (s.event a).toList ++ log := by
  have hold : ∀ {r : ProcId}, (s.proc q).parent = some r → (s'.proc q).pid = (s.proc q).pid →
      ∃ forker, .born forker (s'.proc q).pid ∈ (s.event a).toList ++ log := fun hpar hpid => by
    rw [hpid]
    exact (hc.forker q _ hpar).imp fun _ => mem_of_old
  cases hk.lot q with
  | still hst => exact hold (hst.parent.symm.trans hpar) hst.pid
  | disown _ _ _ _ _ _ hparent hproc => exact hold hparent (by rw [hproc])
  | adopt x nt hx hp _ hproc =>
    have hnone := (adopt_fresh h hf hx hp).1
    have hborn := event_adopt hx hp hs (by rw [hproc, hnone]; nofun)
    rw [hproc]
    exact ⟨_, mem_of_new hborn⟩
  | run _ _ _ _ hproc | mark _ _ _ _ _ hproc =>
    rw [hproc] at hpar; exact hold hpar (by rw [hproc]; rfl)
  | born _ _ _ _ hfree _ _ hparent =>
    rw [hparent, hf.free q hfree] at hpar
    cases hpar
  | reap _ _ _ _ hproc => rw [hproc] at hpar; cases hpar
  | fail _ _ hparent => rw [hparent] at hpar; cases hpar

theorem left_step (h : s.Inv) (hk : Kin a.1 s s') (hs : s.step mon a = some s')
    (hl : s.Left log pid) : s'.Left ((s.event a).toList ++ log) pid := by
  rcases hl with hex | ⟨z, b, hb, hparting, hpid⟩
  · exact .inl hex.old
  · obtain ⟨c', hc'⟩ := h.executes hb
    have hlive : (s.proc z.1).Live := h.live_here hc' hb (by rintro rfl; cases hparting)
    have hpid' := (hk.pid_live h hlive).trans hpid
    by_cases hz : s.cpu a.1 = .run z
    · rcases hk.deed hz with ⟨hpos, -⟩ | hdeed
      · exact .inr ⟨z, b, hpos.trans hb, hparting, hpid'⟩
      · generalize hp' : s'.pos z = p' at hdeed
        rw [hb] at hdeed
        have hkeep : ∀ {b' : Base}, p' = .here b' → b'.parting = true →
            s'.Left ((s.event a).toList ++ log) pid := fun hpb hpart =>
          .inr ⟨z, _, hp'.trans hpb, hpart, hpid'⟩
        cases hdeed with
        | move _ hnot => exact absurd hparting (by rw [show b.parting = false from hnot]; nofun)
        | scan _ hk0 =>
          rcases hk0 with ⟨-, hnot⟩ | ⟨np0, hp, -⟩
          · exact absurd hparting (by rw [show b.parting = false from hnot]; nofun)
          · cases hp
            cases hparting
        | rouse hr => exact hkeep rfl hr
        | next hr => exact hkeep rfl hr
        | woken => exact hkeep rfl rfl
        | disown => exact hkeep rfl rfl
        | disowned => exact hkeep rfl rfl
        | @mark e =>
          have hev := event_mark hz hb hs
          exact .inl ⟨e.status, by rw [← hpid]; exact mem_of_new hev⟩
        | _ => cases hparting
    · exact .inr ⟨z, b, hk.here_after h hz hb, hparting, hpid'⟩

theorem children_step (hc : Chronicle s log) (h : s.Inv) (hf : s.Family) (hk : Kin a.1 s s')
    (hs : s.step mon a = some s') {forker child : ℤ}
    (hb : .born forker child ∈ (s.event a).toList ++ log) :
    Reaped ((s.event a).toList ++ log) child ∨
      ∃ q r, (s'.proc q).state ≠ .unused ∧ (s'.proc q).pid = child ∧
        (s'.proc q).parent = some r ∧ ((s'.proc r).pid = forker ∨
          r = s'.initproc ∧ s'.Left ((s.event a).toList ++ log) forker) := by
  rcases mem_cases hb with hold | hnew
  · rcases hc.children forker child hold with hre | ⟨q, r, hq, hpid, hpar, hr⟩
    · exact .inl hre.old
    · -- the parent stays alive, with its pid
      have hkeep : (s'.proc q).state ≠ .unused → (s'.proc q).pid = (s.proc q).pid →
          (s'.proc q).parent = (s.proc q).parent → ∃ q r, (s'.proc q).state ≠ .unused ∧
            (s'.proc q).pid = child ∧ (s'.proc q).parent = some r ∧ ((s'.proc r).pid = forker ∨
              r = s'.initproc ∧ s'.Left ((s.event a).toList ++ log) forker) := by
        intro hq' hpid' hpar'
        refine ⟨q, r, hq', hpid'.trans hpid, hpar'.trans hpar, hr.imp (fun hr => ?_) fun hr => ?_⟩
        · exact (hk.pid_live h (hf.parents q r hpar)).trans hr
        · exact ⟨hr.1.trans hk.initproc_eq.symm, left_step h hk hs hr.2⟩
      cases hk.lot q with
      | still hst =>
        refine .inr (hkeep (fun hun => hq ?_) hst.pid hst.parent)
        exact hst.state_eq hun nofun
      | disown x k e hx hp _ hparent hproc hp' =>
        have hrx : r = x.1 := Option.some.inj (hpar.symm.trans hparent)
        subst hrx
        have hleaves : (s.pos x).leaves := by
          rcases hp with ⟨hp, -⟩ | ⟨chan, q', -, hp⟩ <;> rw [hp] <;> exact ⟨rfl, nofun⟩
        have hlive := hf.parents q x.1 hpar
        refine .inr ⟨q, s'.initproc, by rw [hproc]; exact hq, by rw [hproc]; exact hpid,
          by rw [hproc, hk.initproc_eq], .inr ⟨rfl, .inr ⟨x, _, hp', rfl, ?_⟩⟩⟩
        rw [hk.pid_live h hlive]
        exact hr.resolve_right fun hinit => hf.leaves x hleaves hinit.1
      | adopt x nt hx hp =>
        rw [(adopt_fresh h hf hx hp).1] at hpar
        cases hpar
      | run _ _ _ _ hproc | mark _ _ _ _ _ hproc =>
        exact .inr (hkeep (by rw [hproc]; nofun) (by rw [hproc]; rfl) (by rw [hproc]; rfl))
      | born _ _ _ _ hfree | fail hfree => exact absurd hfree hq
      | reap x hx hp hz hproc =>
        have hev := event_reap hx hp hz hs (by rw [hproc]; nofun)
        exact .inl ⟨_, _, by rw [← hpid]; exact mem_of_new hev⟩
  · obtain ⟨x, hx, hhap⟩ := happens_of_event hs hnew
    cases hhap with
    | @born np nt hp hproc =>
      have hused := (adopt_fresh h hf hx hp).2
      refine .inr ⟨np, x.1, by rw [hproc]; dsimp only; rw [hused]; nofun, by rw [hproc],
        by rw [hproc], .inl (hk.pid_live h (h.live_here hx hp nofun))⟩

/-- **One step.** -/
theorem step (hc : Chronicle s log) (h : s.Inv) (hf : s.Family) (hk : Kin a.1 s s')
    (hs : s.step mon a = some s') : Chronicle s' ((s.event a).toList ++ log) where
  init := by rw [hk.initproc_eq, hk.pid_live h hf.init]; exact hc.init
  pid_lt _ := hc.pid_lt_step h hk
  pid_inj _ _ := hc.pid_inj_step h hk
  zombie _ := hc.zombie_step hk hs
  exited _ := hc.exited_step h hk hs
  reaped _ := hc.reaped_step h hk hs
  forker _ _ := hc.forker_step h hf hk hs
  children _ _ := hc.children_step h hf hk hs

omit [DecidableEq C] in
/-- While a thread holds `wait_lock` outside `exit`, or nobody holds it, a process that has left
has exited. -/
theorem exited_of_left (h : s.Inv) (hx : s.cpu c = .run x) (hw : s.Guarded x)
    (hp : (s.pos x).parting = false) (hl : s.Left log pid) : Event.Exited log pid := by
  refine hl.resolve_right ?_
  rintro ⟨z, b, hb, hparting, -⟩
  have hzx : z = x := h.alone hx hw hb (by
    cases hkin : b.kin with
    | true => rfl
    | false => exact absurd hparting (by rw [Base.parting_of_kin hkin]; nofun))
  rw [← hzx, hb] at hp
  exact absurd hparting (by rw [show b.parting = false from hp]; nofun)

theorem justified (hc : Chronicle s log) (h : s.Inv) (hf : s.Family) (hw : s.Waiting)
    (hs : s.step mon a = some s') {e : Event} (he : s.event a = some e) : Justified log e := by
  obtain ⟨x, hx, hhap⟩ := happens_of_event hs he
  cases hhap with
  | @born np nt hp =>
    obtain ⟨hnone, hused⟩ := adopt_fresh h hf hx hp
    have hnp : (s.proc np).state ≠ .unused := by rw [hused]; nofun
    intro forker hborn
    rcases hc.children forker _ hborn with hre | ⟨q, r, hq, hpid, hpar, -⟩
    · exact (hc.reaped _ hre).2 np hnp rfl
    · rw [hc.pid_inj q np hq hnp hpid, hnone] at hpar
      cases hpar
  | exited hp =>
    have hlive := h.live_here hx hp nofun
    exact fun hex => hlive.2.2 ((hc.exited _ hex).2 x.1 hlive.1 rfl)
  | @reaped np hp hz =>
    have hnp : (s.proc np).state ≠ .unused := by rw [hz]; nofun
    have hpar := hw.found x np hp
    have hnot : ¬ Reaped log (s.proc np).pid := fun hre => (hc.reaped _ hre).2 np hnp rfl
    obtain ⟨forker, hborn⟩ := hc.forker np x.1 hpar
    refine ⟨hnot, hc.zombie np hz, forker, hborn, ?_⟩
    obtain ⟨q, r, hq, hpid, hparq, hr⟩ := (hc.children forker _ hborn).resolve_left hnot
    rw [hc.pid_inj q np hq hnp hpid, hpar] at hparq
    cases hparq
    refine hr.imp_right fun hinit => ⟨by rw [hinit.1]; exact hc.init, ?_⟩
    exact exited_of_left h hx (.inr (by rw [hp]; exact List.mem_cons_self))
      (by rw [hp]; rfl) hinit.2
  | childless hnext hlock hp hparting =>
    have hlive := h.live hx hp
    have hnochild : ∀ q, (s.proc q).parent ≠ some x.1 := fun q =>
      nextChild_none hnext (Nat.zero_le _)
    intro forker child hborn hforker
    refine (hc.children forker child hborn).resolve_right ?_
    rintro ⟨q, r, hq, hpid, hpar, hr⟩
    have hlr := hf.parents q r hpar
    rcases hforker with rfl | ⟨hinit, hex⟩
    · rcases hr with hr | ⟨rfl, hleft⟩
      · rw [hc.pid_inj r x.1 hlr.1 hlive.1 hr] at hpar
        exact hnochild q hpar
      · have hex := exited_of_left h hx (.inl hlock) hparting hleft
        exact hlive.2.2 ((hc.exited _ hex).2 x.1 hlive.1 rfl)
    · have hxinit : x.1 = s.initproc :=
        hc.pid_inj x.1 s.initproc hlive.1 hf.init.1 (hinit.trans hc.init.symm)
      rcases hr with hr | ⟨rfl, -⟩
      · exact hlr.2.2 ((hc.exited _ hex).2 r hlr.1 hr)
      · exact hnochild q (by rw [hxinit]; exact hpar)

end Chronicle

/-! ### Runs -/

section

open Event

variable {k : Pages} {mem : UserMem} {t₀ : Table} {m : M} {tr : List (C × Choice K)}

section

variable (h : userinit k mem = some t₀)

include h

end

/-- The invariant of the machine with its list of events. -/
structure Recorded (s : Machine C M × List Event) : Prop where
  inv : s.1.Inv
  family : s.1.Family
  waiting : s.1.Waiting
  solo : s.1.Solo
  chronicle : Chronicle s.1 s.2
  sound : Sound s.2

theorem Recorded.step {s s' : Machine C M × List Event} (hr : Recorded s)
    (hG : Lone s a) (hs : loggedStep mon s a = some s') : Recorded s' := by
  obtain ⟨s, log⟩ := s
  obtain ⟨t, ht, rfl⟩ := Option.map_eq_some_iff.1 hs
  obtain ⟨hinv, hf, hw, hsolo, hc, hsound⟩ := hr
  have hcareful := hsolo.careful hinv hG
  have he := step_effect hinv hcareful ht
  have hk := step_kin hinv hcareful ht
  refine ⟨he.inv hinv, hf.step hinv he hk, hw.step hinv hf hk, hsolo.step hinv hG ht,
    hc.step hinv hf hk ht, ?_⟩
  show Sound ((s.event a).toList ++ log)
  cases hev : s.event a with
  | none => exact hsound
  | some e => exact ⟨hc.justified hinv hf hw ht hev, hsound⟩

end

/-! ### Runs on two and three CPUs -/

instance (ch : Choice K) : Decidable ch.Unthreaded :=
  match ch with
  | .kthreadCreate _ _ _ => .isFalse id
  | .go | .yield | .sleep _ | .wakeup _ | .other _ | .kthreadExit _ | .kthreadJoin _ | .fork
  | .exit _ | .wait | .exec | .sigkill | .pages _ | .flag _ => .isTrue trivial

instance (ch : Choice K) : Decidable ch.Backed :=
  match ch with
  | .pages k => inferInstanceAs (Decidable (k.backup ≠ none))
  | .go | .yield | .sleep _ | .wakeup _ | .other _ | .kthreadCreate _ _ _ | .kthreadExit _
  | .kthreadJoin _ | .fork | .exit _ | .wait | .exec | .sigkill | .flag _ => .isTrue trivial

instance (s : Machine C M × List Event) (a : C × Choice K) : Decidable (Lone s a) :=
  inferInstanceAs (Decidable (_ ∧ _ ∧ _))

end Xv6.Smp
