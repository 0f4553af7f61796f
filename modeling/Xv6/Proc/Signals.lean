import Xv6.Proc.Coherent
import Xv6.Proc.FreeSlots

/-!
# Who acts on a signal

`kill` sets a bit in the slot whose `pid` field matches; nothing resets `pendding_signals` when
the slot changes hands.  Here: if no slot is freed with a signal pending, and no `kill` names
pid 0 (the pid of the free slots), then a process acts only on signals sent to it, by its pid,
since it was forked.

`SentSince` and `Exited` read this off the history of the run; `Coherent` and the positions of the
forking parents say which slots are in whose hands.
-/

namespace Xv6

open Transition Proc Option Function

/-- The action is a `kill(pid, i)` that returns 0 and sets the bit in slot `q`. -/
def Act.Sends (q : ProcId) (pid : ℤ) (i : Fin 32) : Act → Prop
  | .kill _ pid' signum (some q') => q' = q ∧ pid' = pid ∧ signum = i.val
  | _ => False

/-- Since slot `q` was last claimed, a `kill(pid, i)` has reached it. -/
def SentSince (q : ProcId) (pid : ℤ) (i : Fin 32) : List Act → Prop
  | [] => False
  | a :: tr => ¬ a.Claims q ∧ (a.Sends q pid i ∨ SentSince q pid i tr)

/-- Since slot `q` was last claimed, its process has exited. -/
def Exited (q : ProcId) : List Act → Prop
  | [] => False
  | a :: tr => ¬ a.Claims q ∧ (a.Exits q ∨ Exited q tr)

/-- What a step that neither allocates, frees, kills nor ends a process does to each slot. -/
structure Kept (p p' : Proc) : Prop where
  pid : p'.pid = p.pid
  state : p'.state = p.state ∨ p.Live ∧ p'.Live
  pending : ∀ i, isSet p'.penddingSignals i → isSet p.penddingSignals i
  coherent : p'.Coherent

namespace Kept

variable {p p' p'' : Proc}

theorem refl (h : p.Coherent) : Kept p p := ⟨rfl, .inl rfl, fun _ => id, h⟩

theorem live (h : Kept p p') (hp : p.Live) : p'.Live := by
  rcases h.state with heq | ⟨-, hlive⟩
  · unfold Proc.Live
    rw [heq]
    exact hp
  · exact hlive

theorem trans (h : Kept p p') (h' : Kept p' p'') : Kept p p'' where
  pid := h'.pid.trans h.pid
  state := by
    rcases h.state with heq | ⟨hlive, hlive'⟩
    · rcases h'.state with heq' | ⟨hlive', hlive''⟩
      · exact .inl (heq'.trans heq)
      · refine .inr ⟨?_, hlive''⟩
        unfold Proc.Live
        rw [← heq]
        exact hlive'
    · exact .inr ⟨hlive, h'.live hlive'⟩
  pending i hi := h.pending i (h'.pending i hi)
  coherent := h'.coherent

theorem of_live (h : p.Live) (hpid : p'.pid = p.pid) (hstate : p'.state = p.state)
    (hpend : ∀ i, isSet p'.penddingSignals i → isSet p.penddingSignals i) : Kept p p' := by
  refine ⟨hpid, .inl hstate, hpend, fun t => ?_⟩
  rw [hstate]
  exact h.allows _

theorem state_eq (h : Kept p p') (hp : ¬ p.Live) : p'.state = p.state :=
  h.state.resolve_right fun hl => hp hl.1

theorem state_eq' (h : Kept p p') (hp : ¬ p'.Live) : p'.state = p.state :=
  h.state.resolve_right fun hl => hp hl.2

theorem clear {a : UInt} {k : Fin 32} (i : Fin 32) (h : isSet (a &&& ~~~sigBit k) i) :
    isSet a i := by
  simp only [isSet_clear, Bool.and_eq_true] at h
  exact h.1

theorem wakeupThreads (h : p.Coherent) (self : Option ThreadId) (chan : Option Chan) :
    Kept p (p.wakeupThreads self chan) := by
  refine ⟨rfl, .inl rfl, fun _ => id, fun t => ?_⟩
  simp only [Proc.wakeupThreads]
  split_ifs with hc
  · exact (h.live (.inr (.inr hc.2.1))).allows _
  · exact h t

theorem sigKillHandler (h : p.Live) : Kept p p.sigKillHandler := by
  have hlive : p.sigKillHandler.Live := by
    simp only [Proc.Live, Proc.sigKillHandler]
    split_ifs
    · exact ⟨by decide, by decide, by decide⟩
    · exact h
  exact ⟨rfl, .inr ⟨h, hlive⟩, fun _ => id, fun t => hlive.allows _⟩

end Kept

variable {q : ProcId}

namespace Table

variable {s s' : Table} {a : Act} {p p' : Proc}

theorem Change.kept (ht : ¬ s.Turns q a) (hc : Change s a q p p') (h : p.Coherent) : Kept p p' := by
  have hlive : ∀ {u}, (p.threads u).state = .running → p.Live := fun hu => h.live (.inl hu)
  cases hc with
  | thread hold =>
    exact .of_live (h.live (hold.elim (fun h => .inr (.inl h)) .inl)) rfl rfl fun _ => id
  | sleep hrun | zombie hrun | join hrun | execMark hrun =>
    exact .of_live (hlive hrun) rfl rfl fun _ => id
  | frame => exact ⟨rfl, .inl rfl, fun _ => id, setFrame_coherent h _ _⟩
  | fields hthreads hstate hpid hpend =>
    refine ⟨hpid, .inl hstate, fun i hi => hpend ▸ hi, fun t => ?_⟩
    rw [hstate, hthreads]
    exact h t
  | clear => exact ⟨rfl, .inl rfl, Kept.clear, h⟩
  | wakeup => exact .wakeupThreads h _ _
  | sigKill hrun => exact .sigKillHandler (hlive hrun)
  | frames => exact ⟨rfl, .inl rfl, fun _ => id, h⟩
  | newThread _ _ _ hrun =>
    obtain ⟨u, hu⟩ := hrun.resolve_left ht
    exact .of_live (hlive hu) rfl rfl fun _ => id
  | start _ hrun =>
    obtain ⟨u, hu⟩ := hrun
    exact .of_live (hlive hu) rfl rfl fun _ => id
  | arrive ha =>
    subst ha
    exact absurd rfl ht
  | exitMark _ _ ha | free _ ha | claim _ _ ha | makeRunnable _ _ ha => exact absurd ha ht

theorem kept_of_step (hs : s.step a = some s') (ht : ¬ s.Turns q a) (h : (s.proc q).Coherent) :
    Kept (s.proc q) (s'.proc q) :=
  (step_effect hs).invariant (fun hc hk => hk.trans (hc.kept ht hk.coherent)) (.refl h)

theorem turns_of_claims (h : a.Claims q) : s.Turns q a := by
  unfold Act.Claims at h
  split at h
  · exact congrArg some h
  · exact h.elim

theorem turns_of_exits (h : a.Exits q) : s.Turns q a := by
  unfold Act.Exits at h
  split at h
  · exact h
  · exact ⟨rfl, h⟩
  · exact h.elim

/-- What `exit` leaves of the process that exits. -/
theorem exit_slot (s : Table) (x : Tid) (status : ℤ) :
    ((s.exit x status).proc x.1).pid = (s.proc x.1).pid ∧
      ((s.exit x status).proc x.1).penddingSignals = (s.proc x.1).penddingSignals ∧
      ((s.exit x status).proc x.1).Coherent ∧ (s.exit x status).pc = s.pc := by
  have hadopt : ((s.reparent x).proc x.1).pid = (s.proc x.1).pid ∧
      ((s.reparent x).proc x.1).penddingSignals = (s.proc x.1).penddingSignals ∧
      (s.reparent x).pc = s.pc := by
    simp only [Table.reparent]
    split_ifs <;> simp only [Table.wakeup, Proc.wakeupThreads] <;> split_ifs <;> simp
  have hproc : (s.exit x status).proc x.1 = (((s.reparent x).wakeup (some x)
      (((s.reparent x).proc x.1).parent.map .proc)).proc x.1).exitMark status := by
    simp [Table.exit, Table.setProc]
  rw [hproc]
  exact ⟨hadopt.1, hadopt.2.1, exitMark_coherent status, hadopt.2.2⟩

end Table

/-! ### The invariant -/

/-- What holds of slot `q` after the history `tr`. -/
structure SlotOk (tr : List Act) (q : ProcId) (p : Proc) : Prop where
  coherent : p.Coherent
  free : p.state = .unused → p.pid = 0 ∧ ∀ i, isSet p.penddingSignals i = false
  sent : ∀ i, isSet p.penddingSignals i → SentSince q p.pid i tr
  exited : Exited q tr → p.state = .zombie ∨ p.state = .unused

theorem SlotOk.kept {tr : List Act} {p p' : Proc} (h : SlotOk tr q p)
    (hk : Kept p p') : SlotOk tr q p' where
  coherent := hk.coherent
  free hp := by
    have hp' : p.state = .unused := by
      rw [← hk.state_eq' fun hl => hl.1 hp]
      exact hp
    obtain ⟨hpid, hnone⟩ := h.free hp'
    refine ⟨hk.pid.trans hpid, fun i => ?_⟩
    by_contra hi
    have := hk.pending i (by simpa using hi)
    simp [hnone i] at this
  sent i hi := by
    rw [hk.pid]
    exact h.sent i (hk.pending i hi)
  exited hex := by
    have hp := h.exited hex
    have hdead : ¬ p.Live := fun hl => hp.elim hl.2.2 hl.1
    rw [hk.state_eq hdead]
    exact hp

/-- An action that neither claims nor ends the slot joins the history. -/
theorem SlotOk.note {tr : List Act} {a : Act} {p : Proc} (h : SlotOk tr q p) (hc : ¬ a.Claims q)
    (he : ¬ a.Exits q) : SlotOk (a :: tr) q p :=
  ⟨h.coherent, h.free, fun i hi => ⟨hc, .inr (h.sent i hi)⟩,
    fun hex => h.exited (hex.2.resolve_left he)⟩

/-- What holds of the table after the history `tr`. -/
structure SigInv (tr : List Act) (s : Table) : Prop where
  slot : ∀ q, SlotOk tr q (s.proc q)
  forking : ∀ x np, (s.pc x).child = some np → (s.proc np).state = .used
  unique : ∀ x y np, (s.pc x).child = some np → (s.pc y).child = some np → x = y

variable {k : Pages}

namespace SigInv

variable {tr : List Act} {s s' : Table} {a : Act}

theorem coherent (h : SigInv tr s) (q : ProcId) : (s.proc q).Coherent := (h.slot q).coherent

variable {x : Tid}

theorem live (h : SigInv tr s) (hx : (s.thread x).state = .running) :
    (s.proc x.1).Live := (h.coherent x.1).live (.inl hx)

/-- Only slot `q` can change hands in this step. -/
theorem slotStep (h : SigInv tr s) (hs : s.step a = some s') (hT : ∀ r, s.Turns r a → r = q)
    (hq : SlotOk (a :: tr) q (s'.proc q))
    (hforking : ∀ x, (s'.pc x).child = some q → (s'.proc q).state = .used)
    (hunique : ∀ x y, (s'.pc x).child = some q → (s'.pc y).child = some q → x = y) :
    SigInv (a :: tr) s' := by
  have hkept : ∀ r, r ≠ q → Kept (s.proc r) (s'.proc r) := fun r hr =>
    Table.kept_of_step hs (fun ht => hr (hT r ht)) (h.coherent r)
  have hchild : ∀ {x np}, np ≠ q → (s'.pc x).child = some np → (s.pc x).child = some np :=
    fun hne hx => ((Table.step_effect hs).child _ _ hx).resolve_right fun hc =>
      hne (hT _ (Table.turns_of_claims hc))
  refine ⟨fun r => ?_, fun x np hx => ?_, fun x y np hx hy => ?_⟩
  · by_cases hr : r = q
    · subst hr; exact hq
    · exact ((h.slot r).kept (hkept r hr)).note (fun hc => hr (hT r (Table.turns_of_claims hc)))
        fun he => hr (hT r (Table.turns_of_exits he))
  · by_cases hnp : np = q
    · subst hnp; exact hforking x hx
    · have hused := h.forking x np (hchild hnp hx)
      rw [(hkept np hnp).state_eq fun hl => hl.2.1 hused]
      exact hused
  · by_cases hnp : np = q
    · subst hnp; exact hunique x y hx hy
    · exact h.unique x y np (hchild hnp hx) (hchild hnp hy)

theorem quiet (h : SigInv tr s) (hs : s.step a = some s') (hT : ∀ r, ¬ s.Turns r a) :
    SigInv (a :: tr) s' := by
  have hkept := fun r => Table.kept_of_step hs (hT r) (h.coherent r)
  have hchild : ∀ {x np}, (s'.pc x).child = some np → (s.pc x).child = some np := fun hx =>
    ((Table.step_effect hs).child _ _ hx).resolve_right fun hc => hT _ (Table.turns_of_claims hc)
  refine h.slotStep (q := 0) hs (fun r hr => absurd hr (hT r)) ?_ (fun x hx => ?_)
    fun x y hx hy => h.unique x y 0 (hchild hx) (hchild hy)
  · exact ((h.slot 0).kept (hkept 0)).note (fun hc => hT 0 (Table.turns_of_claims hc))
      fun he => hT 0 (Table.turns_of_exits he)
  · have hused := h.forking x 0 (hchild hx)
    rw [(hkept 0).state_eq fun hl => hl.2.1 hused]
    exact hused

/-! ### The steps that change a slot's hands -/

theorem kill (h : SigInv tr s) {pid : ℤ} {signum : ℤ} (hpid : pid ≠ 0)
    (hs : s.step (.kill x pid signum (some q)) = some s') :
    SigInv (.kill x pid signum (some q) :: tr) s' := by
  have hs' := hs
  simp only [Table.step] at hs'
  split_ifs at hs' with hx
  obtain ⟨-, hfound⟩ := hx
  have hrange : ¬ (signum < 0 ∨ 31 < signum) := by
    intro hout
    simp [Table.killFinds, hout] at hfound
  have hmatch : (s.proc q).pid = pid := by
    rw [Table.killFinds, if_neg hrange] at hfound
    simpa using List.find?_some hfound.symm
  set i : Fin 32 := Fin.ofNat 32 signum.toNat with hi
  have hval : signum = (i.val : ℤ) := by
    simp only [hi, Fin.ofNat]
    omega
  have hslot := h.slot q
  have hproc : s'.proc q = (s.proc q).arrive (sigBit i) := by
    rw [← some.inj hs']
    simp [Table.kill, Table.setProc, hi]
  have hpc : s'.pc = s.pc := by rw [← some.inj hs']; rfl
  refine h.slotStep hs (fun r hr => (some.inj hr).symm) ?_ (fun y hy => ?_) fun y z hy hz =>
    h.unique y z q (hpc ▸ hy) (hpc ▸ hz)
  · rw [hproc]
    refine ⟨hslot.coherent, fun hfree => ?_, fun j hj => ?_, fun hex => ?_⟩
    · exact absurd (hmatch.symm.trans (hslot.free hfree).1) hpid
    · simp only [arrive, isSet_or, isSet_sigBit, Bool.or_eq_true, decide_eq_true_eq] at hj
      refine ⟨id, ?_⟩
      rcases hj with hj | rfl
      · exact .inr (hslot.sent j hj)
      · exact .inl ⟨rfl, hmatch.symm, hval⟩
    · exact hslot.exited (hex.2.resolve_left id)
  · rw [hproc]
    exact h.forking y q (hpc ▸ hy)

theorem allocthread_slot {p : Proc} (hfree : ∀ t, (p.threads t).state = .unused) (tid : ℤ)
    (page : Option Trapframe) :
    (p.allocthread tid page).2.1.penddingSignals = p.penddingSignals ∧
      (∀ t, ((p.allocthread tid page).2.1.threads t).state = .unused ∨
        ((p.allocthread tid page).2.1.threads t).state = .used) ∧
      ((p.allocthread tid page).1 ≠ none → (p.allocthread tid page).2.1.state = p.state) := by
  unfold allocthread
  split
  · exact ⟨rfl, fun t => .inl (hfree t), fun _ => rfl⟩
  · next t _ =>
    have hused : ∀ u, ((p.setThread t
        { p.threads t with id := tid, state := .used, userTrapFrameBackup := page }).threads
          u).state = .unused ∨ ((p.setThread t
        { p.threads t with id := tid, state := .used, userTrapFrameBackup := page }).threads
          u).state = .used := by
      intro u
      by_cases hut : u = t
      · subst hut; simp
      · simp [Proc.setThread, hut, hfree u]
    cases page with
    | none =>
      refine ⟨rfl, fun u => .inl ?_, fun hne => absurd rfl hne⟩
      refine freeproc_coherent (fun u hr => ?_) u
      rcases hused u with hu | hu <;> rw [hu] at hr <;> cases hr
    | some f => exact ⟨rfl, hused, fun _ => rfl⟩

/-- `allocproc` on a free slot keeps the pending set; it fails and leaves the slot free, or the
slot is in use. -/
theorem allocproc_slot {p : Proc} (hfree : ∀ t, (p.threads t).state = .unused) (pid tid : ℤ)
    (k : Pages) :
    (p.allocproc pid tid k).2.1.penddingSignals = p.penddingSignals ∧
      (p.allocproc pid tid k).2.1.Coherent ∧
      ((p.allocproc pid tid k).1 = none → (p.allocproc pid tid k).2.1.state = .unused ∧
        (p.allocproc pid tid k).2.1.pid = 0) ∧
      ((p.allocproc pid tid k).1 ≠ none → (p.allocproc pid tid k).2.1.state = .used) := by
  have hidle : ∀ t, (p.threads t).state ≠ .running := fun t => by rw [hfree t]; decide
  unfold allocproc
  dsimp only
  split
  · exact ⟨rfl, freeproc_coherent hidle, fun _ => ⟨rfl, rfl⟩, fun hne => absurd rfl hne⟩
  · next frames _ =>
    split_ifs
    · obtain ⟨hpend, hthreads, hstate⟩ := allocthread_slot
        (p := (({ p with pid := pid, state := .used } : Proc).setFrames frames).emptySpace)
        hfree tid k.backup
      split
      · next p' tid' heq =>
        rw [heq] at hpend hthreads
        refine ⟨hpend, freeproc_coherent fun u hr => ?_, fun _ => ⟨rfl, rfl⟩,
          fun hne => absurd rfl hne⟩
        rcases hthreads u with hu | hu <;> rw [hu] at hr <;> cases hr
      · next hsome =>
        generalize (({ p with pid := pid, state := .used } : Proc).setFrames
          frames).emptySpace.allocthread tid k.backup = r at *
        obtain ⟨nt, p', tid'⟩ := r
        have hne : nt ≠ none := fun h0 => hsome p' tid' (by rw [h0])
        have hused : p'.state = .used := hstate hne
        refine ⟨hpend, fun t => ?_, fun h0 => absurd h0 hne, fun _ => hused⟩
        show p'.state.Allows _
        rw [hused]
        exact hthreads t
    · exact ⟨rfl, freeproc_coherent hidle, fun _ => ⟨rfl, rfl⟩, fun hne => absurd rfl hne⟩

variable {np : ProcId}

/-- What `fork` does to the slot `np` it finds: the slot stays free, or it is set up with the
pending set it had. -/
theorem fork_slot (hfree : ∀ t, ((s.proc np).threads t).state = .unused)
    (hs : s.fork x k (some np) = some s') :
    (s'.proc np).penddingSignals = (s.proc np).penddingSignals ∧ (s'.proc np).Coherent ∧
      ((s'.proc np).state = .unused → (s'.proc np).pid = 0) ∧
      (∀ y c, (s'.pc y).child = some c →
        (s.pc y).child = some c ∨ y = x ∧ c = np ∧ (s'.proc np).state = .used) := by
  obtain ⟨hpend, hcoh, hnone, hsome⟩ := allocproc_slot hfree s.nextpid s.nexttid k
  simp only [Table.fork] at hs
  split at hs
  · next child tid heq =>
    rw [heq] at hpend hcoh hnone
    cases hs
    refine ⟨?_, ?_, ?_, fun y c hy => .inl hy⟩ <;> simp only [Table.setProc, update_self]
    · exact hpend
    · exact hcoh
    · exact fun _ => (hnone rfl).2
  · next nt child tid heq =>
    rw [heq] at hpend hcoh hsome
    have hused : child.state = .used := hsome (by simp)
    unfold Table.forkCopy at hs
    split_ifs at hs
    · obtain ⟨f, -, hs⟩ := bind_eq_some_iff.1 hs
      cases hs
      refine ⟨?_, ?_, ?_, fun y c hy => ?_⟩
      · simpa [Table.setProc, Table.goto, forkInto, setFrame, Proc.setThread] using hpend
      · simpa [Table.setProc, Table.goto] using forkInto_coherent hcoh f nt
      · intro h0
        have hstate : child.state = .unused := by
          simpa [Table.setProc, Table.goto, forkInto, setFrame, Proc.setThread] using h0
        rw [hused] at hstate
        cases hstate
      · by_cases hyx : y = x
        · subst hyx
          have hc : np = c := by simpa [Table.goto, Pc.child] using hy
          refine .inr ⟨rfl, hc.symm, ?_⟩
          simpa [Table.setProc, Table.goto, forkInto, setFrame, Proc.setThread] using hused
        · left
          by_cases hyn : y = (np, nt)
          · subst hyn
            simp [Table.goto, hyx, Pc.child] at hy
          · simpa [Table.goto, Table.setProc, hyx, hyn] using hy
    · cases hs
      refine ⟨?_, ?_, ?_, fun y c hy => .inl hy⟩ <;>
        simp only [Table.setProc, update_self, update_idem]
      · exact hpend
      · exact freeproc_coherent (not_running_of_used hcoh hused)
      · exact fun _ => rfl

theorem fork (h : SigInv tr s) (hs : s.step (.fork x k (some np)) = some s') :
    SigInv (.fork x k (some np) :: tr) s' := by
  have hs' := hs
  simp only [Table.step] at hs'
  split_ifs at hs' with hx
  have hfree : (s.proc np).state = .unused := by simpa using List.find?_some hx.2.symm
  have hslot := h.slot np
  have hthreads : ∀ t, ((s.proc np).threads t).state = .unused := fun t => by
    have := hslot.coherent t
    rwa [hfree] at this
  obtain ⟨hpend, hcoh, hpid, hchild⟩ := fork_slot hthreads hs'
  have hnone : ∀ i, isSet (s'.proc np).penddingSignals i = false := fun i => by
    rw [hpend]
    exact (hslot.free hfree).2 i
  -- a forking parent's child is in use, so nobody else has claimed this slot
  have hnobody : ∀ y, (s.pc y).child ≠ some np := fun y hy => by
    have hused := h.forking y np hy
    rw [hfree] at hused
    cases hused
  refine h.slotStep hs (fun r hr => (some.inj hr).symm)
    ⟨hcoh, fun h0 => ⟨hpid h0, hnone⟩, fun i hi => ?_, fun hex => absurd rfl hex.1⟩
    (fun y hy => ?_) (fun y z hy hz => ?_)
  · simp [hnone i] at hi
  · rcases hchild y np hy with hold | ⟨-, -, hused⟩
    · exact absurd hold (hnobody y)
    · exact hused
  · rcases hchild y np hy with hold | ⟨rfl, -, -⟩
    · exact absurd hold (hnobody y)
    · rcases hchild z np hz with hold | ⟨rfl, -, -⟩
      · exact absurd hold (hnobody z)
      · rfl

/-- A parent in `fork` makes its child runnable. -/
theorem forkRunnable (h : SigInv tr s) (hx : (s.pc x).child = some np)
    (hs : s.step (.forkRunnable x) = some s') : SigInv (.forkRunnable x :: tr) s' := by
  have hs' := hs
  simp only [Table.step] at hs'
  split at hs'
  · next np' nt hpc =>
    obtain rfl : np' = np := by
      rw [hpc] at hx
      exact some.inj hx
    split_ifs at hs'
    cases hs'
    have hslot := h.slot np'
    have hused := h.forking x np' hx
    have hchild : ∀ y, (((s.setProc np' ((s.proc np').makeRunnable nt)).goto x .run).pc y).child ≠
        some np' := by
      intro y hy
      by_cases hyx : y = x
      · subst hyx
        simp [Table.goto, Pc.child] at hy
      · have hold : (s.pc y).child = some np' := by simpa [Table.goto, Table.setProc, hyx] using hy
        exact hyx (h.unique y x np' hold hx)
    refine h.slotStep hs (fun r hr => some.inj (hr.symm.trans hx)) ?_
      (fun y hy => absurd hy (hchild y)) fun y z hy _ => absurd hy (hchild y)
    have hproc : ((s.setProc np' ((s.proc np').makeRunnable nt)).goto x .run).proc np'
        = (s.proc np').makeRunnable nt := by simp [Table.goto, Table.setProc]
    rw [hproc]
    refine ⟨fun t => trivial, (by rintro ⟨⟩), fun i hi => ⟨id, .inr (hslot.sent i hi)⟩,
      fun hex => ?_⟩
    rcases hslot.exited (hex.2.resolve_left id) with hz | hz <;> rw [hused] at hz <;> cases hz
  · cases hs'

/-- The process in slot `q` ends, or is freed: it was not being set up. -/
theorem ends (h : SigInv tr s) (hs : s.step a = some s') (hT : ∀ r, s.Turns r a → r = q)
    (hq : (s.proc q).state ≠ .used) (hpc : s'.pc = s.pc) (hslot : SlotOk (a :: tr) q (s'.proc q)) :
    SigInv (a :: tr) s' := by
  have hnobody : ∀ y, (s'.pc y).child ≠ some q := fun y hy => hq (h.forking y q (hpc ▸ hy))
  exact h.slotStep hs hT hslot (fun y hy => absurd hy (hnobody y)) fun y _ hy =>
    absurd hy (hnobody y)

theorem exit (h : SigInv tr s) (hs : s.step a = some s') (hT : ∀ r, s.Turns r a → r = q)
    (hc : ¬ a.Claims q) (hlive : (s.proc q).Live) (hpid : (s'.proc q).pid = (s.proc q).pid)
    (hpend : (s'.proc q).penddingSignals = (s.proc q).penddingSignals)
    (hcoh : (s'.proc q).Coherent) (he : a.Exits q) (hpc : s'.pc = s.pc) : SigInv (a :: tr) s' := by
  have hz := Table.state_of_exits hs he
  refine h.ends hs hT hlive.2.1 hpc ⟨hcoh, fun h0 => ?_, fun i hi => ⟨hc, .inr ?_⟩,
    fun _ => .inl hz⟩
  · rw [hz] at h0
    cases h0
  · rw [hpid]
    exact (h.slot q).sent i (hpend ▸ hi)

/-- `wait` frees a zombie in which no signal is pending. -/
theorem reap (h : SigInv tr s) (hr : s.reaped x = some q)
    (hnone : (s.proc q).penddingSignals = 0) (hs : s.step (.wait x true) = some s') :
    SigInv (.wait x true :: tr) s' := by
  have hz : (s.proc q).parent = some x.1 ∧ (s.proc q).state = .zombie := by
    simpa using List.find?_some hr
  have hs' := hs
  simp only [Table.step, Table.wait, hr] at hs'
  split_ifs at hs'
  have hproc : s'.proc q = (s.proc q).freeproc := by
    rw [← some.inj hs']
    simp [Table.setProc]
  have hbits : ∀ i, isSet (s.proc q).freeproc.penddingSignals i = false := fun i => by
    simp [freeproc, hnone]
  refine h.ends hs (fun r ht => some.inj (ht.2.symm.trans hr)) (by rw [hz.2]; decide)
    (by rw [← some.inj hs']; rfl) ?_
  rw [hproc]
  refine ⟨freeproc_coherent fun t ht => ?_, fun _ => ⟨rfl, hbits⟩, fun i hi => ?_,
    fun _ => .inr rfl⟩
  · exact ((h.coherent q).live (.inl ht)).2.2 hz.2
  · simp [hbits i] at hi

end SigInv

/-! ### Runs -/

/-- The condition on a step, in the state before it: `wait` finds no signal pending in the zombie
it frees, `kill` does not name pid 0, the pids do not overflow, and `kthread_create` does not run
out of memory (it would free the calling process). -/
def Table.Careful (s : Table) : Act → Prop
  | .fork _ _ _ => s.nextpid < 2 ^ 31 - 1
  | .wait x true => ∀ q, s.reaped x = some q → (s.proc q).penddingSignals = 0
  | .kill _ pid _ _ => pid ≠ 0
  | .kthreadCreate x _ _ none => ∀ t, ((s.proc x.1).threads t).state ≠ .unused
  | _ => True

theorem SigInv.step {tr : List Act} {s s' : Table} {a : Act} (h : SigInv tr s)
    (hG : s.Careful a) (hs : s.step a = some s') : SigInv (a :: tr) s' := by
  by_cases hT : ∀ q, ¬ s.Turns q a
  · exact h.quiet hs hT
  obtain ⟨q, hq⟩ := not_forall_not.1 hT
  cases a with
  | fork x k np =>
    obtain rfl : np = some q := hq
    exact h.fork hs
  | forkRunnable x => exact h.forkRunnable hq hs
  | kill x pid signum found =>
    obtain rfl : found = some q := hq
    exact h.kill hG hs
  | exit x status =>
    obtain rfl : x.1 = q := hq
    have hs' := hs
    simp only [Table.step] at hs'
    split_ifs at hs' with hx
    cases hs'
    obtain ⟨hpid, hpend, hcoh, hpc⟩ := s.exit_slot x status
    exact h.exit hs (fun r hr => hr.symm) id (h.live hx.1.1) hpid hpend hcoh rfl hpc
  | kthreadExit x status last =>
    obtain ⟨rfl, rfl⟩ := hq
    have hs' := hs
    simp only [Table.step, Table.kthreadExit, if_true] at hs'
    split_ifs at hs' with hx
    cases hs'
    generalize hs1 : s.setThread x _ = s1 at hs
    obtain ⟨hpid, hpend, hcoh, hpc⟩ := s1.exit_slot x status
    refine h.exit hs (fun r hr => hr.2.symm) id (h.live hx.1.1) (hpid.trans ?_) (hpend.trans ?_)
      hcoh rfl (hpc.trans ?_)
    all_goals simp [← hs1, Table.setThread, Table.setProc, Proc.setThread]
  | wait x copied =>
    obtain ⟨rfl, hr⟩ := hq
    exact h.reap hr (hG q hr) hs
  | kthreadCreate x start stack page =>
    obtain ⟨rfl, rfl, t, ht⟩ := hq
    exact absurd ht (hG t)
  | _ => exact hq.elim

theorem SigInv.userinit {mem : UserMem} {s0 : Table}
    (hboot : Xv6.userinit k mem = some s0) : SigInv [] s0 := by
  have hfree : ∀ t, (zero.threads t).state = .unused := fun _ => rfl
  have hzero : ∀ q, SlotOk [] q zero := fun q =>
    ⟨fun t => rfl, fun _ => ⟨rfl, fun i => by simp [zero]⟩, fun i hi => by simp [zero] at hi,
      fun hex => hex.elim⟩
  obtain ⟨hpend, -, -, -⟩ := allocproc_slot hfree 1 1 k
  unfold Xv6.userinit at hboot
  split at hboot
  · cases hboot
  · next nt p tid heq =>
    rw [heq] at hpend
    obtain ⟨f, -, hboot⟩ := bind_eq_some_iff.1 hboot
    cases hboot
    refine ⟨fun q => ?_, fun x np hx => (nomatch hx), fun x y np hx => (nomatch hx)⟩
    by_cases hq : q = 0
    · subst hq
      simp only [update_self]
      refine ⟨fun t => trivial, (by rintro ⟨⟩), fun i hi => ?_, fun hex => hex.elim⟩
      have hi' : isSet p.penddingSignals i := hi
      rw [hpend] at hi'
      simp [zero] at hi'
    · simpa [hq] using hzero q

theorem isSet_of_acts {s : Table} {x : Tid} {i : Fin 32} (h : s.acts x = some i) :
    isSet (s.proc x.1).penddingSignals i := by
  unfold Table.acts at h
  dsimp only at h
  split_ifs at h with hfrozen hcont
  · cases h
    exact hcont
  · obtain ⟨⟨j, a⟩, hscan, rfl⟩ := map_eq_some_iff.1 h
    have hact := (scan_eq_some hscan).1
    by_contra hne
    simp [dispatch, hne] at hact

/-- **A signal is acted on only by the process it was sent to**, in every run whose steps are whole
and careful: when a pass of thread `x` acts on signal `i`, a `kill` with the pid of the process and
signal `i` has returned 0 since the process was forked, and the process has not exited.  A
process that `fork` creates starts with no signal pending. -/
theorem signal_reaches_target {mem : UserMem} {s₀ s : Table} {tr : List Act}
    (hboot : userinit k mem = some s₀)
    (h : Reach Table.step (fun s a => s.Whole a ∧ s.Careful a) s₀ tr s) :
    (∀ x s' i, s.step (.pass x) = some s' → s.acts x = some i →
      SentSince x.1 (s.proc x.1).pid i tr ∧ ¬ Exited x.1 tr) ∧
    (∀ x k np s', s.step (.fork x k (some np)) = some s' →
      (s'.proc np).penddingSignals = 0) := by
  have hinv : SigInv tr s :=
    h.invariant (SigInv.userinit hboot) fun _ _ _ _ hs hG hstep => hs.step hG.2 hstep
  refine ⟨fun x s' i hs hact => ?_, fun x k np s' hs => ?_⟩
  · refine ⟨(hinv.slot x.1).sent i (isSet_of_acts hact), fun hex => ?_⟩
    have hrun : (s.thread x).state = .running := by
      simp only [Table.step, Table.pass] at hs
      split_ifs at hs with hrun hfreeze
      · exact hrun.1.1
      · exact hfreeze.1
    have hlive := hinv.live hrun
    exact ((hinv.slot x.1).exited hex).elim hlive.2.2 hlive.1
  · have hinv' : SigInv (.fork x k (some np) :: tr) s' := hinv.fork hs
    refine eq_zero_of_isSet fun i => ?_
    by_contra hi
    exact ((hinv'.slot np).sent i (by simpa using hi)).1 rfl

/-- The first process forks a child and sends it `SIGKILL`; the child gets to run. -/
def killChild : List Act :=
  [.sched (0, 0), .fork (0, 0) zeroPages (some 1), .forkParent (0, 0), .forkRunnable (0, 0),
    .kill (0, 0) 2 9 (some 1), .sched (1, 0)]

theorem signal_reaches_child : ∃ s₀ s, userinit zeroPages (fun _ => none) = some s₀ ∧
    Reach Table.step (fun s a => s.Whole a ∧ s.Careful a) s₀ killChild.reverse s ∧
    s.acts (1, 0) = some SIGKILL ∧
    SentSince 1 (s.proc 1).pid SIGKILL killChild.reverse := by
  let inst (s : Table) (a : Act) : Decidable (s.Whole a ∧ s.Careful a) := by
    unfold Table.Whole Table.Careful
    split <;> split <;> infer_instance
  obtain ⟨s₀, hboot, s, hs, henabled, hact⟩ : ∃ s₀ ∈ userinit zeroPages fun _ => none,
      ∃ s ∈ runWhen Table.step (fun s a => s.Whole a ∧ s.Careful a) s₀ killChild,
      (s.step (.pass (1, 0))).isSome = true ∧ s.acts (1, 0) = some SIGKILL := by
    decide +zetaReduce
  obtain ⟨s', hs'⟩ := isSome_iff_exists.1 henabled
  have hreach := reach_of_runWhen hs
  exact ⟨s₀, s, hboot, hreach, hact,
    ((signal_reaches_target hboot hreach).1 (1, 0) s' SIGKILL hs' hact).1⟩

/-- A child exits, `SIGKILL` is sent to the zombie, the zombie is reaped, and its slot goes to
the next child. -/
def killZombie : List Act :=
  [.sched (0, 0), .fork (0, 0) zeroPages (some 1), .forkParent (0, 0), .forkRunnable (0, 0),
    .sched (1, 0), .exit (1, 0) 0, .kill (0, 0) 2 9 (some 1), .wait (0, 0) true,
    .fork (0, 0) zeroPages (some 1), .forkParent (0, 0), .forkRunnable (0, 0), .sched (1, 0)]

/-- The new child, with pid 3, acts on `SIGKILL`, which nobody has sent to it. -/
theorem signal_reaches_other : ∃ s₀ s, userinit zeroPages (fun _ => none) = some s₀ ∧
    Reach Table.step Always s₀ killZombie.reverse s ∧
    (s.step (.pass (1, 0))).isSome ∧ (s.proc 1).pid = 3 ∧ s.acts (1, 0) = some SIGKILL ∧
    ¬ SentSince 1 3 SIGKILL killZombie.reverse := by
  obtain ⟨s₀, hboot, s, hs, hpass⟩ : ∃ s₀ ∈ userinit zeroPages fun _ => none,
      ∃ s ∈ run Table.step s₀ killZombie, (s.step (.pass (1, 0))).isSome = true ∧
      (s.proc 1).pid = 3 ∧ s.acts (1, 0) = some SIGKILL := by decide +kernel
  refine ⟨s₀, s, hboot, reach_always hs, hpass.1, hpass.2.1,
    hpass.2.2, ?_⟩
  simp [killZombie, SentSince, Act.Claims, Act.Sends]

end Xv6
