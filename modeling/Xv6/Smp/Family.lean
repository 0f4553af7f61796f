import Xv6.Smp.Safety

/-!
# Parents are never dead

The invariant of the `parent` fields in careful runs: a parent is alive, the children that `exit`
has passed in `reparent` are not its own any more, and a child gets its parent before it can run.
If moreover `exit` marks no thread in the middle of a `fork`, every slot in use belongs to a live
process.
-/

namespace Xv6.Smp

open Function Transition Option Base Proc CpuPos

variable {C M K : Type} {mon : Monitor M K} {s s' : Machine C M} {c : C} {x y : Tid}

/-! ### What a step does to one process -/

/-- What a step of CPU `c` does to what process `q` is to its family. -/
inductive Lot (c : C) (s s' : Machine C M) (q : ProcId) : Prop
  | still (h : Still (s.proc q) (s'.proc q))
  | disown (x : Tid) (k : ℕ) (e : Exiting) (hx : s.cpu c = .run x)
      (hp : Reparenting (s.pos x) k e) (hw : s.Guarded x)
      (hparent : (s.proc q).parent = some x.1)
      (hproc : s'.proc q = { s.proc q with parent := some s.initproc })
      (hp' : s'.pos x = .here (.wake (some (.proc s.initproc)) 0 (.reparent (q.val + 1) e)))
  | adopt (x : Tid) (nt : ThreadId) (hx : s.cpu c = .run x)
      (hp : s.pos x = .here (.fork4 q nt)) (hw : s.Guarded x)
      (hproc : s'.proc q = { s.proc q with parent := some x.1 })
  | run (x : Tid) (nt : ThreadId) (hx : s.cpu c = .run x) (hp : s.pos x = .here (.fork6 q nt))
      (hproc : s'.proc q = (s.proc q).makeRunnable nt)
  | mark (x : Tid) (e : Exiting) (hx : s.cpu c = .run x) (hp : s.pos x = .here (.exit1 e))
      (hq : x.1 = q) (hproc : s'.proc q = (s.proc q).exitMark e.status)
  | born (x : Tid) (nt : ThreadId) (hx : s.cpu c = .run x)
      (hp' : s'.pos x = .here (.fork3 q (some nt) false))
      (hfree : (s.proc q).state = .unused) (hused : (s'.proc q).state = .used)
      (hpid : (s'.proc q).pid = s.nextpid) (hparent : (s'.proc q).parent = (s.proc q).parent)
      (hnextpid : s'.nextpid = s.nextpid + 1)
  | reap (x : Tid) (hx : s.cpu c = .run x) (hp : s.pos x = .here (.waitAt q))
      (hz : (s.proc q).state = .zombie) (hproc : s'.proc q = (s.proc q).freeproc)
  | fail (hfree : (s.proc q).state = .unused) (hunused : (s'.proc q).state = .unused)
      (hparent : (s'.proc q).parent = none)

namespace Kin

section

variable (hk : Kin c s s')

include hk

theorem lot (q : ProcId) : Lot c s s' q := by
  have hupd : ∀ {r : ProcId} {p : Proc}, s'.proc = update s.proc r p →
      (q = r → s'.proc q = p → Lot c s s' q) → Lot c s s' q := by
    intro r p hproc hself
    by_cases hq : q = r
    · exact hself hq (by rw [hproc, hq, update_self])
    · exact .still (by rw [hproc, update_of_ne hq]; exact .refl _)
  have hsame : s'.proc = s.proc → Lot c s s' q := fun hproc => .still (.of_eq (congrFun hproc q))
  cases hk with
  | idle _ _ _ hstill => exact .still (hstill q)
  | act x hx _ _ _ _ hdeed =>
    generalize hp : s.pos x = p at hdeed
    generalize hp' : s'.pos x = p' at hdeed
    cases hdeed with
    | move hstill => exact .still (hstill q)
    | scan _ _ _ hproc => exact hsame hproc
    | scanned hproc => exact hsame hproc
    | checked hproc => exact hsame hproc
    | doze hproc => exact hsame hproc
    | sleep hstill => exact .still (hstill q)
    | rouse _ hproc =>
      refine hupd hproc fun hq heq => .still ?_
      rw [heq, hq]
      exact ⟨.refl _, rfl, rfl, rfl⟩
    | next _ _ hproc => exact hsame hproc
    | woken _ hproc => exact hsame hproc
    | disown hr hw hnext hproc =>
      refine hupd hproc fun hq heq => .disown x _ _ hx (hp ▸ hr) hw ?_ (by rw [heq, hq])
        (by rw [hp', hq])
      rw [hq]
      exact (nextChild_some hnext).2
    | disowned _ _ _ hproc => exact hsame hproc
    | fail hfree hproc hchild hparent =>
      exact hupd hproc fun hq heq =>
        .fail (by rw [hq]; exact hfree) (by rw [heq]; exact hchild) (by rw [heq]; exact hparent)
    | born hfree hproc hused hpid hparent hnext =>
      refine hupd hproc fun hq heq => .born x _ hx (by rw [hp', hq]) (by rw [hq]; exact hfree)
        (by rw [heq]; exact hused) (by rw [heq]; exact hpid) ?_ hnext
      rw [heq, hq]
      exact hparent
    | adopt hw hproc =>
      exact hupd hproc fun hq heq => .adopt x _ hx (by rw [hp, hq]) hw (by rw [heq, hq])
    | run hproc => exact hupd hproc fun hq heq => .run x _ hx (by rw [hp, hq]) (by rw [heq, hq])
    | mark hproc => exact hupd hproc fun hq heq => .mark x _ hx hp hq.symm (by rw [heq, hq])
    | reap hz hproc =>
      exact hupd hproc fun hq heq => .reap x hx (by rw [hp, hq]) (by rw [hq]; exact hz)
        (by rw [heq, hq])

theorem initproc_eq : s'.initproc = s.initproc := by
  cases hk with
  | idle _ _ hinit | act _ _ _ _ hinit => exact hinit

theorem nextpid_le : s.nextpid ≤ s'.nextpid := by
  cases hk with
  | idle _ hpid => exact hpid.ge
  | act _ _ _ hpid => exact hpid

theorem pos_other (hy : s.cpu c ≠ .run y) :
    s'.pos y = s.pos y ∨ s.state y = .unused ∧ s'.pos y = .resumed (.body .user) := by
  cases hk with
  | idle hpos => exact .inl (by rw [hpos])
  | act x hx hpos => exact hpos y fun hyx => hy (hyx ▸ hx)

/-- What the thread that the CPU executes does, if it does not stay where it is. -/
theorem deed (hx : s.cpu c = .run x) :
    (s'.pos x = s.pos x ∧ ∀ q, Still (s.proc q) (s'.proc q)) ∨
      Deed s s' x (s.pos x) (s'.pos x) := by
  cases hk with
  | idle hpos _ _ hstill => exact .inl ⟨by rw [hpos], hstill⟩
  | act x' hx' _ _ _ _ hdeed =>
    obtain rfl := run.inj (hx.symm.trans hx')
    exact .inr hdeed

/-- A thread gets past the test in `exit` only if its process is not the first one. -/
theorem leaves (hl : (s'.pos y).leaves) : (s.pos y).leaves ∨ y.1 ≠ s.initproc := by
  have hold : ∀ {k : ℕ} {e : Exiting}, Reparenting (s.pos y) k e → (s.pos y).leaves := by
    rintro k e (⟨hp, -⟩ | ⟨chan, q, -, hp⟩) <;> rw [hp] <;> exact ⟨rfl, nofun⟩
  by_cases hy : s.cpu c = .run y
  · rcases hk.deed hy with ⟨hpos, -⟩ | hdeed
    · exact .inl (hpos ▸ hl)
    · generalize hp : s.pos y = p at hdeed hold ⊢
      generalize s'.pos y = p' at hdeed hl
      cases hdeed with
      | move _ _ _ _ _ hleaves => exact hleaves hl
      | rouse hr => exact .inl ⟨hl.1, nofun⟩
      | next hr => exact .inl ⟨hl.1, nofun⟩
      | woken => exact .inl ⟨rfl, nofun⟩
      | disown hr => exact .inl (hold hr)
      | disowned hr => exact .inl (hold hr)
      | _ => exact absurd hl.1 Bool.false_ne_true
  · rcases hk.pos_other hy with hpos | ⟨-, hpos⟩
    · exact .inl (hpos ▸ hl)
    · rw [hpos] at hl
      exact absurd hl.1 Bool.false_ne_true

end

end Kin

/-! ### Who holds `wait_lock` -/

variable {b : Base}

namespace Machine.Inv

/-- A thread in the kernel that is not switched out executes on some CPU. -/
theorem executes (h : s.Inv) (hb : s.pos y = .here b) : ∃ c, s.cpu c = .run y := by
  by_contra hno
  have := h.parked y (not_exists.1 hno)
  rw [hb] at this
  exact this

/-- While a step is made under `wait_lock`, no other thread has something under way there. -/
theorem alone (h : s.Inv) (hx : s.cpu c = .run x) (hw : s.Guarded x) (hb : s.pos y = .here b)
    (hkin : b.kin = true) : y = x := by
  obtain ⟨c', hc'⟩ := h.executes hb
  have hheld : .wait ∈ s.held c' := by
    rw [held_run hc', hb]
    exact wait_mem_locks y.1 hkin
  rcases hw with hfree | hmem
  · exact absurd hheld (h.notMem_held hfree c')
  · have hcc : c = c' := h.locks.exclusive (by rw [held_run hx]; exact hmem) hheld
    subst hcc
    exact run.inj (hc'.symm.trans hx)

end Machine.Inv

theorem Base.kin_of_done (h : 0 < b.done) : b.kin = true := by
  cases b with
  | wake chan q r | waking chan q r => cases r <;> first | rfl | exact absurd h (lt_irrefl 0)
  | exit1 e => rfl
  | _ => exact absurd h (lt_irrefl 0)

variable {q : ProcId}

/-- While a thread has something under way with `wait_lock`, no other one gives a process a
parent. -/
theorem Kin.parent_keep (h : s.Inv) (hk : Kin c s s') (hb : s.pos y = .here b) (hkin : b.kin = true)
    (hy : s.cpu c ≠ .run y) {r : ProcId}
    (hpar : (s'.proc q).parent = some r) : (s.proc q).parent = some r := by
  have hother : ∀ {x : Tid}, s.cpu c = .run x → s.Guarded x → False := fun hx hw =>
    hy ((h.alone hx hw hb hkin).symm ▸ hx)
  cases hk.lot q with
  | still hs => exact hs.parent.symm.trans hpar
  | disown x _ _ hx _ hw | adopt x _ hx _ hw => exact (hother hx hw).elim
  | run _ _ _ _ hproc | mark _ _ _ _ _ hproc => rwa [hproc] at hpar
  | born _ _ _ _ _ _ _ hparent => exact hparent.symm.trans hpar
  | reap _ _ _ _ hproc => rw [hproc] at hpar; cases hpar
  | fail _ _ hparent => rw [hparent] at hpar; cases hpar

/-! ### The invariant -/

structure Machine.Family (s : Machine C M) : Prop where
  init : (s.proc s.initproc).Live
  parents : ∀ q r, (s.proc q).parent = some r → (s.proc r).Live
  free : ∀ q, (s.proc q).state = .unused → (s.proc q).parent = none
  leaves : ∀ y, (s.pos y).leaves → y.1 ≠ s.initproc
  /-- The children that `reparent` has passed. -/
  done : ∀ y b, s.pos y = .here b → ∀ q : ProcId, q.val < b.done → (s.proc q).parent ≠ some y.1
  /-- A process that can run or has run has a parent. -/
  child : ∀ q, q ≠ s.initproc → (s.proc q).Live ∨ (s.proc q).state = .zombie →
    (s.proc q).parent ≠ none
  fresh : ∀ y np, (s.pos y).fresh = some np → ¬ Gone (s.state y) → (s.proc np).parent = none
  grown : ∀ y np, (s.pos y).grown = some np → ¬ Gone (s.state y) → (s.proc np).parent ≠ none

variable {np : ProcId}

theorem Base.forking_of_fresh (h : b.fresh = some np) : ∃ nt, b.forking = some (np, nt) := by
  cases b with
  | fork3 q nt again =>
    cases nt with
    | none => cases h
    | some nt => cases h; exact ⟨nt, rfl⟩
  | fork4 q nt => cases h; exact ⟨nt, rfl⟩
  | _ => cases h

theorem Pos.forking_of_fresh {p : Pos} (h : p.fresh = some np) :
    ∃ nt, p.forking = some (np, nt) := by
  cases p with
  | here b | resumed b => exact Base.forking_of_fresh h
  | _ => cases h

theorem Base.forking_of_grown (h : b.grown = some np) : ∃ nt, b.forking = some (np, nt) := by
  cases b with
  | fork5 q nt | fork6 q nt => cases h; exact ⟨nt, rfl⟩
  | _ => cases h

theorem Pos.forking_of_grown {p : Pos} (h : p.grown = some np) :
    ∃ nt, p.forking = some (np, nt) := by
  cases p with
  | here b | resumed b => exact Base.forking_of_grown h
  | _ => cases h

variable {r : ProcId × ThreadId}

namespace Machine.Family

theorem exit_ne_init (hf : s.Family) {e : Exiting} (hp : s.pos x = .here (.exit1 e)) :
    x.1 ≠ s.initproc := hf.leaves x (by rw [hp]; exact ⟨rfl, nofun⟩)

/-- Nobody is a child of a process that is about to mark its threads. -/
theorem exit_childless (hf : s.Family) {e : Exiting} (hp : s.pos x = .here (.exit1 e))
    (q : ProcId) : (s.proc q).parent ≠ some x.1 := hf.done x _ hp q q.isLt

/-- A live process stays so, or it is the one that exits. -/
theorem live_step (h : s.Inv) (hk : Kin c s s') (hq : (s.proc q).Live) :
    (s'.proc q).Live ∨ ∃ x e, s.cpu c = .run x ∧ s.pos x = .here (.exit1 e) ∧ x.1 = q := by
  cases hk.lot q with
  | still hs => exact .inl (hs.live hq)
  | disown _ _ _ _ _ _ _ hproc | adopt _ _ _ _ _ hproc => exact .inl (by rw [hproc]; exact hq)
  | run _ _ hx hp => exact absurd (h.child hx hp).1 hq.2.1
  | mark x e hx hp hxq => exact .inr ⟨x, e, hx, hp, hxq⟩
  | born _ _ _ _ hfree | fail hfree => exact absurd hfree hq.1
  | reap _ _ _ hz => exact absurd hz hq.2.2

section

variable (hf : s.Family) (h : s.Inv) (hk : Kin c s s')

include hf h hk

theorem init_step : (s'.proc s.initproc).Live := by
  rcases live_step h hk hf.init with hlive | ⟨x, e, -, hp, hx⟩
  · exact hlive
  · exact absurd hx (hf.exit_ne_init hp)

theorem parents_step {r : ProcId} (hpar : (s'.proc q).parent = some r) : (s'.proc r).Live := by
  -- the parent was alive before the step; if the step is its exit, it had no child any more
  have hkeep : (s.proc q).parent = some r → (s'.proc r).Live := by
    intro hold
    rcases live_step h hk (hf.parents q r hold) with hlive | ⟨x, e, -, hp, rfl⟩
    · exact hlive
    · exact absurd hold (hf.exit_childless hp q)
  cases hk.lot q with
  | still hs => exact hkeep (hs.parent.symm.trans hpar)
  | disown _ _ _ _ _ _ _ hproc =>
    rw [hproc] at hpar
    cases hpar
    exact hf.init_step h hk
  | adopt x nt hx hp _ hproc =>
    rw [hproc] at hpar
    cases hpar
    rcases live_step h hk (h.live_here hx hp nofun) with hlive | ⟨x', e, hx', hp', -⟩
    · exact hlive
    · rw [run.inj (hx'.symm.trans hx), hp] at hp'
      cases hp'
  | run _ _ _ _ hproc | mark _ _ _ _ _ hproc => exact hkeep (by rwa [hproc] at hpar)
  | born _ _ _ _ _ _ _ hparent => exact hkeep (hparent.symm.trans hpar)
  | reap _ _ _ _ hproc => rw [hproc] at hpar; cases hpar
  | fail _ _ hparent => rw [hparent] at hpar; cases hpar

theorem free_step (hq : (s'.proc q).state = .unused) : (s'.proc q).parent = none := by
  cases hk.lot q with
  | still hs => exact hs.parent.trans (hf.free q (hs.state_eq hq nofun))
  | disown _ _ _ _ _ _ hparent hproc =>
    rw [hproc] at hq
    rw [hf.free q hq] at hparent
    cases hparent
  | adopt x nt hx hp _ hproc =>
    rw [hproc] at hq
    have hrun : s.state x = .running := h.state_here hx hp
    have hused := (h.forking x q nt (by rw [hp]; rfl) (Inv.not_gone hrun)).1
    rw [hused] at hq
    cases hq
  | run _ _ _ _ hproc | mark _ _ _ _ _ hproc => rw [hproc] at hq; cases hq
  | born _ _ _ _ _ hused => rw [hused] at hq; cases hq
  | reap _ _ _ _ hproc => rw [hproc]; rfl
  | fail _ _ hparent => exact hparent

theorem done_step (hb : s'.pos y = .here b) (hq : q.val < b.done) :
    (s'.proc q).parent ≠ some y.1 := by
  by_cases hy : s.cpu c = .run y
  · rcases hk.deed hy with ⟨hpos, hstill⟩ | hdeed
    · rw [(hstill q).parent]
      exact hf.done y b (hpos.symm.trans hb) q hq
    · generalize hp : s.pos y = p at hdeed
      rw [hb] at hdeed
      -- how far `reparent` has got
      have hpast : ∀ {k : ℕ} {e : Exiting}, Reparenting p k e → q.val < k →
          (s.proc q).parent ≠ some y.1 := by
        rintro k e (⟨-, rfl⟩ | ⟨chan, r, -, rfl⟩) hk
        · exact absurd hk (Nat.not_lt_zero _)
        · exact hf.done y _ hp q hk
      have hold : ∀ {p : Proc} {r : ProcId} {b0 : Base}, s'.proc = update s.proc r p →
          p.parent = (s.proc r).parent → s.pos y = .here b0 → q.val < b0.done →
          (s'.proc q).parent ≠ some y.1 := by
        intro p r b0 hproc hparent hp0 hlt
        by_cases hqr : q = r
        · rw [hproc, hqr, update_self, hparent, ← hqr]
          exact hf.done y b0 hp0 q hlt
        · rw [hproc, update_of_ne hqr]
          exact hf.done y b0 hp0 q hlt
      cases hdeed with
      | move _ _ hkin =>
        have hkin' : b.kin = false := hkin
        rw [kin_of_done (lt_of_le_of_lt (Nat.zero_le _) hq)] at hkin'
        cases hkin'
      | rouse _ hproc => exact hold hproc rfl hp hq
      | next _ _ hproc =>
        rw [hproc]
        exact hf.done y _ hp q hq
      | woken _ hproc =>
        rw [hproc]
        exact hf.done y _ hp q hq
      | @disown _ k e r hr _ hnext hproc =>
        by_cases hqr : q = r
        · rw [hproc, hqr, update_self]
          intro heq
          have hleaves : (s.pos y).leaves := by
            rcases hr with ⟨hp0, -⟩ | ⟨chan, q', -, hp0⟩ <;> rw [hp, hp0] <;> exact ⟨rfl, nofun⟩
          exact hf.leaves y hleaves (some.inj heq).symm
        · rw [hproc, update_of_ne hqr]
          have hlt : q.val < r.val :=
            lt_of_le_of_ne (Nat.lt_succ_iff.1 hq) fun hval => hqr (Fin.ext hval)
          by_cases hkq : q.val < k
          · exact hpast hr hkq
          · exact nextChild_skip hnext (not_lt.1 hkq) hlt
      | @disowned _ k e hr _ hnext hproc =>
        rw [hproc]
        by_cases hkq : q.val < k
        · exact hpast hr hkq
        · exact nextChild_none hnext (not_lt.1 hkq)
      | _ => exact absurd hq (Nat.not_lt_zero _)
  · have hold : s.pos y = .here b := by
      rcases hk.pos_other hy with hpos | ⟨-, hpos⟩
      · exact hpos.symm.trans hb
      · rw [hpos] at hb
        cases hb
    have hkin := kin_of_done (lt_of_le_of_lt (Nat.zero_le _) hq)
    exact fun hpar => hf.done y b hold q hq (hk.parent_keep h hold hkin hy hpar)

theorem child_step (hq : q ≠ s.initproc) (hst : (s'.proc q).Live ∨ (s'.proc q).state = .zombie) :
    (s'.proc q).parent ≠ none := by
  have hkeep : (s'.proc q).parent = (s.proc q).parent →
      (s.proc q).Live ∨ (s.proc q).state = .zombie → (s'.proc q).parent ≠ none := fun heq hold => by
    rw [heq]
    exact hf.child q hq hold
  cases hk.lot q with
  | still hs =>
    refine hkeep hs.parent (hst.imp (fun hlive => ?_) fun hz => hs.state_eq hz nofun)
    rcases hs.state with heq | ⟨hsl, -⟩
    · unfold Proc.Live
      rw [← heq]
      exact hlive
    · exact ⟨by rw [hsl]; nofun, by rw [hsl]; nofun, by rw [hsl]; nofun⟩
  | disown _ _ _ _ _ _ _ hproc | adopt _ _ _ _ _ hproc => rw [hproc]; nofun
  | run x nt hx hp hproc =>
    rw [hproc]
    have hrun : s.state x = .running := h.state_here hx hp
    exact hf.grown x q (by rw [hp]; rfl) (Inv.not_gone hrun)
  | mark x e hx hp hxq hproc =>
    subst hxq
    exact hkeep (by rw [hproc]; rfl) (.inl (h.live_here hx hp nofun))
  | born _ _ _ _ _ hused =>
    exact absurd hst (not_or.2 ⟨fun hl => hl.2.1 hused, by rw [hused]; nofun⟩)
  | reap _ _ _ _ hproc =>
    exact absurd hst (not_or.2 ⟨fun hl => hl.1 (by rw [hproc]; rfl), by rw [hproc]; nofun⟩)
  | fail _ hun => exact absurd hst (not_or.2 ⟨fun hl => hl.1 hun, by rw [hun]; nofun⟩)

end

/-- A thread that executes in `fork` with a child is running. -/
theorem running (h : s.Inv) (hy : s.cpu c = .run y)
    (hfork : (s.pos y).forking = some r) : s.state y = .running := by
  have hruns := h.runs c y hy
  cases hp : s.pos y with
  | here b =>
    rw [hp] at hfork hruns
    exact Effect.running_of_forking hfork hruns
  | resumed b =>
    rw [hp] at hruns
    exact hruns.2
  | slept k | dead => rw [hp] at hfork; cases hfork

variable [DecidableEq C]

/-- A thread that has a child in `fork`, and did not make the step, had it before. -/
theorem forking_before (h : s.Inv) (he : Effect mon c s s') (hk : Kin c s s')
    (hy : s.cpu c ≠ .run y) (hfork : (s'.pos y).forking = some r) (hg : ¬ Gone (s'.state y)) :
    s'.pos y = s.pos y ∧ (s.pos y).forking = some r ∧ ¬ Gone (s.state y) := by
  refine ⟨?_, (he.forking_pos h hfork hg).resolve_right fun hc => hy hc.1⟩
  rcases hk.pos_other hy with hpos | ⟨-, hpos⟩
  · exact hpos
  · rw [hpos] at hfork
    cases hfork

section

variable (hf : s.Family) (h : s.Inv) (he : Effect mon c s s')

include hf h he

theorem fresh_step (hk : Kin c s s')
    (hfresh : (s'.pos y).fresh = some np) (hg : ¬ Gone (s'.state y)) :
    (s'.proc np).parent = none := by
  obtain ⟨nt, hfork⟩ := Pos.forking_of_fresh hfresh
  by_cases hy : s.cpu c = .run y
  · have hold : (s.pos y).fresh = some np → (s.proc np).parent = none := fun hfr =>
      hf.fresh y np hfr (Inv.not_gone (running h hy (Pos.forking_of_fresh hfr).choose_spec))
    rcases hk.deed hy with ⟨hpos, hstill⟩ | hdeed
    · exact (hstill np).parent.trans (hold (hpos ▸ hfresh))
    · generalize s.pos y = p at hdeed hold
      generalize s'.pos y = p' at hdeed hfresh
      cases hdeed with
      | move hstill _ _ hback => exact (hstill np).parent.trans (hold (hback np hfresh))
      | born hfree hproc _ _ hparent =>
        cases hfresh
        rw [hproc, update_self, hparent]
        exact hf.free np hfree
      | _ => cases hfresh
  · obtain ⟨hpos, hfork0, hg0⟩ := forking_before h he hk hy hfork hg
    have hnone := hf.fresh y np (hpos ▸ hfresh) hg0
    have huniq := (h.forking y np nt hfork0 hg0).2.2
    cases hk.lot np with
    | still hs => exact hs.parent.trans hnone
    | disown _ _ _ _ _ _ hparent => rw [hnone] at hparent; cases hparent
    | adopt x nt' hx hp =>
      -- nobody else has this child
      have hrun : s.state x = .running := h.state_here hx hp
      exact absurd (huniq x nt' (by rw [hp]; rfl) (Inv.not_gone hrun)) fun hxy => hy (hxy ▸ hx)
    | run _ _ _ _ hproc | mark _ _ _ _ _ hproc => rw [hproc]; exact hnone
    | born _ _ _ _ _ _ _ hparent => exact hparent.trans hnone
    | reap _ _ _ _ hproc => rw [hproc]; rfl
    | fail _ _ hparent => exact hparent

theorem grown_step (hk : Kin c s s')
    (hgrown : (s'.pos y).grown = some np) (hg : ¬ Gone (s'.state y)) :
    (s'.proc np).parent ≠ none := by
  obtain ⟨nt, hfork⟩ := Pos.forking_of_grown hgrown
  by_cases hy : s.cpu c = .run y
  · have hold : (s.pos y).grown = some np → (s.proc np).parent ≠ none := fun hgr =>
      hf.grown y np hgr (Inv.not_gone (running h hy (Pos.forking_of_grown hgr).choose_spec))
    rcases hk.deed hy with ⟨hpos, hstill⟩ | hdeed
    · rw [(hstill np).parent]
      exact hold (hpos ▸ hgrown)
    · generalize s.pos y = p at hdeed hold
      generalize s'.pos y = p' at hdeed hgrown
      cases hdeed with
      | move hstill _ _ _ hback =>
        rw [(hstill np).parent]
        exact hold (hback np hgrown)
      | adopt _ hproc =>
        cases hgrown
        rw [hproc, update_self]
        nofun
      | _ => cases hgrown
  · obtain ⟨hpos, hfork0, hg0⟩ := forking_before h he hk hy hfork hg
    have hsome := hf.grown y np (hpos ▸ hgrown) hg0
    have hused := (h.forking y np nt hfork0 hg0).1
    cases hk.lot np with
    | still hs => rw [hs.parent]; exact hsome
    | disown _ _ _ _ _ _ _ hproc | adopt _ _ _ _ _ hproc => rw [hproc]; nofun
    | run _ _ _ _ hproc | mark _ _ _ _ _ hproc => rw [hproc]; exact hsome
    | born _ _ _ _ _ _ _ hparent => rw [hparent]; exact hsome
    | reap _ _ _ hz => rw [hused] at hz; cases hz
    | fail hfree => rw [hused] at hfree; cases hfree

/-- **One step.** -/
theorem step (hk : Kin c s s') : s'.Family where
  init := by rw [hk.initproc_eq]; exact hf.init_step h hk
  parents _ _ := hf.parents_step h hk
  free _ := hf.free_step h hk
  leaves y hl := by
    rw [hk.initproc_eq]
    exact (hk.leaves hl).elim (hf.leaves y) id
  done _ _ hb _ := hf.done_step h hk hb
  child q hq := hf.child_step h hk (by rwa [hk.initproc_eq] at hq)
  fresh _ _ := hf.fresh_step h he hk
  grown _ _ := hf.grown_step h he hk

end

end Machine.Family

variable [DecidableEq C]

/-! ### Slots in use -/

/-- Every child that is being set up has a thread of a live process that sets it up. -/
def Machine.Tended (s : Machine C M) : Prop :=
  ∀ q, (s.proc q).state = .used → ∃ y nt, (s.pos y).forking = some (q, nt) ∧
    ¬ Gone (s.state y) ∧ (s.proc y.1).Live

/-- The condition on the steps of a mindful run: it is careful, and `exit` marks the threads of its
process while none of the other ones is inside `fork` with a child. -/
def Machine.Mindful (s : Machine C M) (a : C × Choice K) : Prop :=
  s.Careful a ∧ ∀ x e, s.cpu a.1 = .run x → s.pos x = .here (.exit1 e) →
    ∀ t, t ≠ x.2 → (s.pos (x.1, t)).forking = none ∨ Gone (s.state (x.1, t))

/-- A thread becomes free or a zombie in `kthread_exit`, or because `exit` marks it. -/
theorem Effect.not_gone_keep (h : s.Inv) (he : Effect mon c s s') (hg : ¬ Gone (s.state y)) :
    ¬ Gone (s'.state y) ∨ s.cpu c = .run y ∧ s.pos y = .here (.body .user) ∨
      ∃ x e, s.cpu c = .run x ∧ s.pos x = .here (.exit1 e) ∧ x.1 = y.1 := by
  have hlive : ∀ {st : ProcState}, s'.state y = st → st ≠ .unused → st ≠ .zombie →
      ¬ Gone (s'.state y) := by
    rintro st rfl hu hz hg'
    exact hg'.elim hu hz
  cases he.shift h y with
  | same hst => exact .inl (by rw [hst]; exact hg)
  | leave _ _ _ _ hst' =>
    exact .inl (hst'.elim (fun h => hlive h nofun nofun) fun h => hlive h nofun nofun)
  | woken _ hst' | dispatch _ hst' | create _ _ _ _ _ hst' | fork _ _ hst'
  | forkRun _ _ _ _ _ hst' => exact .inl (hlive hst' nofun nofun)
  | kexit hx hp => exact .inr (.inl ⟨hx, hp⟩)
  | exit x e hq hx hp => exact .inr (.inr ⟨x, e, hx, hp, hq⟩)
  | reap hst => exact absurd hst hg

/-- A thread that executes in `fork` goes on until it has made its child runnable. -/
theorem baseStep_forking {ch : Choice K} (hs : s.baseStep mon c y b ch = some s')
    (hf : b.forking = some r) : (s'.pos y).forking = some r ∨ (s'.proc r.1).state = .runnable := by
  have hgoto : ∀ {t : Machine C M} {b : Base}, b.forking = some r →
      ((t.goto y b).pos y).forking = some r := fun hb => (congrArg Pos.forking goto_self).trans hb
  have hyield : ∀ {b : Base} {P : Prop} [Decidable P], b.forking = some r →
      (if P then s.yieldStep c y b else none) = some s' → (s'.pos y).forking = some r := by
    intro b P _ hb hs
    split_ifs at hs
    obtain ⟨s1, -, hs⟩ := bind_eq_some_iff.1 hs
    cases hs
    have hself : ∀ t : Machine C M, (t.swtch c y (.resumed b)).pos y = .resumed b := fun t =>
      update_self _ _ _
    rw [hself]
    exact hb
  cases b with
  | fork3 np nt again =>
    cases ch with
    | yield => simp [Machine.baseStep, Base.locks] at hs
    | go =>
      obtain ⟨s1, -, hs⟩ := bind_eq_some_iff.1 hs
      cases nt with
      | none => cases hf
      | some nt =>
        cases hs
        exact .inl (hgoto hf)
    | _ => cases hs
  | fork4 np nt =>
    cases ch with
    | yield => exact .inl (hyield hf hs)
    | go =>
      obtain ⟨s1, -, hs⟩ := bind_eq_some_iff.1 hs
      cases hs
      exact .inl (hgoto hf)
    | _ => cases hs
  | fork5 np nt =>
    cases ch with
    | yield => simp [Machine.baseStep, Base.locks] at hs
    | go =>
      obtain ⟨s1, -, hs⟩ := bind_eq_some_iff.1 hs
      cases hs
      exact .inl (hgoto hf)
    | _ => cases hs
  | fork6 np nt =>
    cases ch with
    | yield => exact .inl (hyield hf hs)
    | go =>
      obtain ⟨s1, -, hs⟩ := bind_eq_some_iff.1 hs
      cases hs
      cases hf
      refine .inr ?_
      simp [Machine.goto, Machine.setProc, makeRunnable]
    | _ => cases hs
  | _ => cases hf

theorem step_forking {ch : Choice K} (hs : s.step mon (c, ch) = some s') (hy : s.cpu c = .run y)
    (hf : (s.pos y).forking = some r) :
    (s'.pos y).forking = some r ∨ (s'.proc r.1).state = .runnable := by
  unfold Machine.step at hs
  dsimp only at hs
  rw [hy] at hs
  dsimp only at hs
  unfold Machine.threadStep at hs
  split at hs
  · next b hp =>
    rw [hp] at hf
    exact baseStep_forking hs hf
  · next b hp =>
    rw [hp] at hf
    obtain ⟨s1, -, hs⟩ := bind_eq_some_iff.1 hs
    cases hs
    exact .inl ((congrArg Pos.forking goto_self).trans hf)
  · next k hp => rw [hp] at hf; cases hf
  · cases hs

/-- **A mindful step.** A child that is being set up keeps its thread. -/
theorem Machine.Tended.step {a : C × Choice K} (ht : s.Tended) (h : s.Inv) (hG : s.Mindful a)
    (hs : s.step mon a = some s') : s'.Tended := by
  obtain ⟨c, ch⟩ := a
  have he : Effect mon c s s' := step_effect h hG.1 hs
  have hk : Kin c s s' := step_kin h hG.1 hs
  -- the step is not the exit of a process with a live thread in `fork`
  have hexit : ∀ {y : Tid} {r : ProcId × ThreadId}, (s.pos y).forking = some r →
      ¬ Gone (s.state y) →
      ¬ ∃ x e, s.cpu c = .run x ∧ s.pos x = .here (.exit1 e) ∧ x.1 = y.1 := by
    rintro y r hf hg ⟨x, e, hx, hp, hxy⟩
    by_cases hyx : y.2 = x.2
    · rw [Prod.ext hxy.symm hyx, hp] at hf
      cases hf
    · have hor := hG.2 x e hx hp y.2 hyx
      rw [hxy] at hor
      rcases hor with hnone | hgone
      · rw [hf] at hnone
        cases hnone
      · exact hg hgone
  intro q hq
  have hkeep : (s.proc q).state = .used → ∃ y nt, (s'.pos y).forking = some (q, nt) ∧
      ¬ Gone (s'.state y) ∧ (s'.proc y.1).Live := by
    intro hused
    obtain ⟨y, nt, hf, hg, hlive⟩ := ht q hused
    have hpos : (s'.pos y).forking = some (q, nt) := by
      by_cases hy : s.cpu c = .run y
      · refine (step_forking hs hy hf).resolve_right fun hrun => ?_
        rw [hq] at hrun
        cases hrun
      · rcases he.pos_other h hy with hpos | ⟨hun, -⟩
        · rw [hpos]
          exact hf
        · exact absurd (.inl hun) hg
    refine ⟨y, nt, hpos, (he.not_gone_keep h hg).resolve_right ?_,
      (Family.live_step h hk hlive).resolve_right (hexit hf hg)⟩
    rintro (⟨-, hp⟩ | hex)
    · rw [hp] at hf
      cases hf
    · exact hexit hf hg hex
  cases hk.lot q with
  | still hst => exact hkeep (hst.state_eq hq nofun)
  | disown _ _ _ _ _ _ _ hproc | adopt _ _ _ _ _ hproc => exact hkeep (by rwa [hproc] at hq)
  | run _ _ _ _ hproc | mark _ _ _ _ _ hproc | reap _ _ _ _ hproc => rw [hproc] at hq; cases hq
  | born x nt hx hp' =>
    have h' := he.inv h
    obtain ⟨c', hc'⟩ := h'.executes hp'
    have hf : (s'.pos x).forking = some (q, nt) := by rw [hp']; rfl
    exact ⟨x, nt, hf, Inv.not_gone (Family.running h' hc' hf), h'.live_here hc' hp' nofun⟩
  | fail _ hun => rw [hun] at hq; cases hq

/-! ### Mindful runs -/

section

variable {k : Pages} {mem : UserMem} {t₀ : Table} {m : M} {tr : List (C × Choice K)}

theorem userinit_first (h : userinit k mem = some t₀) :
    (t₀.proc t₀.initproc).state = .runnable ∧
      ∀ q, q ≠ t₀.initproc → t₀.proc q = zero := by
  unfold userinit at h
  split at h
  · cases h
  · obtain ⟨f, -, h⟩ := bind_eq_some_iff.1 h
    cases h
    exact ⟨by simp [makeRunnable], fun q hq => by simp [hq]⟩

/-- `allocproc` does not set a parent. -/
theorem allocproc_parent {p p' : Proc} {pid tid tid' : ℤ} {nt : ThreadId}
    (h : p.allocproc pid tid k = (some nt, p', tid')) : p'.parent = p.parent ∧ p'.pid = pid := by
  unfold allocproc at h
  dsimp only at h
  split at h
  · cases h
  · split_ifs at h
    · split at h
      · cases h
      · obtain ⟨-, rfl⟩ := allocthread_some h
        exact ⟨rfl, rfl⟩
    · cases h

theorem userinit_parent (h : userinit k mem = some t₀) (q : ProcId) :
    (t₀.proc q).parent = none := by
  unfold userinit at h
  split at h
  · cases h
  · next nt p tid hal =>
    obtain ⟨f, -, h⟩ := bind_eq_some_iff.1 h
    cases h
    by_cases hq : q = 0
    · subst hq
      have hp : p.parent = none := (allocproc_parent hal).1
      simpa [makeRunnable, setFrame, Proc.setThread] using hp
    · simp [hq, zero]

omit [DecidableEq C] in
theorem boot_family (h : userinit k mem = some t₀) (m : M) : (boot t₀ m : Machine C M).Family where
  init := by
    show (t₀.proc t₀.initproc).Live
    unfold Proc.Live
    rw [(userinit_first h).1]
    exact ⟨nofun, nofun, nofun⟩
  parents q r hpar := absurd ((userinit_parent h q).symm.trans hpar) nofun
  free q _ := userinit_parent h q
  leaves _ hl := absurd hl.1 Bool.false_ne_true
  done _ _ := nofun
  child q hq hst := by
    have hzero := (userinit_first h).2 q hq
    have hun : ((boot t₀ m : Machine C M).proc q).state = .unused := by
      show (t₀.proc q).state = .unused
      rw [hzero]
      rfl
    exact absurd hst (not_or.2 ⟨fun hl => hl.1 hun, by rw [hun]; nofun⟩)
  fresh _ _ := nofun
  grown _ _ := nofun

omit [DecidableEq C] in
theorem boot_tended (h : userinit k mem = some t₀) (m : M) : (boot t₀ m : Machine C M).Tended := by
  intro q hq
  have hq : (t₀.proc q).state = .used := hq
  by_cases hinit : q = t₀.initproc
  · rw [hinit, (userinit_first h).1] at hq
    cases hq
  · rw [(userinit_first h).2 q hinit] at hq
    cases hq

theorem tended_of_reach (h0 : userinit k mem = some t₀)
    (h : Reach (Machine.step mon) Machine.Mindful (boot t₀ m) tr s) :
    (s.Inv ∧ s.Family) ∧ s.Tended := by
  refine h.state_invariant (I := fun s => (s.Inv ∧ s.Family) ∧ s.Tended)
    ⟨⟨boot_inv h0 m, boot_family h0 m⟩, boot_tended h0 m⟩ ?_
  rintro s a s' ⟨⟨hinv, hf⟩, ht⟩ hG hs
  have he := step_effect hinv hG.1 hs
  exact ⟨⟨he.inv hinv, hf.step hinv he (step_kin hinv hG.1 hs)⟩, ht.step hinv hG hs⟩

/-- The process has run `reparent` in its `exit`, or is doing so. -/
def Machine.Reparented (s : Machine C M) (r : ProcId) : Prop :=
  (s.proc r).state = .zombie ∨ ∃ t b, s.pos (r, t) = .here b ∧ 0 < b.done

omit [DecidableEq C] in
theorem Machine.Family.not_reparented (h : s.Inv) (hfree : s.lock .wait = none) {r : ProcId}
    (hr : (s.proc r).Live) : ¬ s.Reparented r := by
  rintro (hz | ⟨t, b, hp, hb⟩)
  · exact hr.2.2 hz
  · obtain ⟨c, hc⟩ := h.executes hp
    refine h.notMem_held hfree c ?_
    rw [held_run hc, hp]
    exact wait_mem_locks r (kin_of_done hb)

/-- **Parents are never dead.** In a mindful run, whenever `wait_lock` is free: the parent of a
process other than the first one is alive and has not run `reparent`; an exited process is the
child of a live process; and a slot in use is a live process's child, or a thread of a live process
is setting it up. -/
theorem parents_never_dead (h₀ : userinit k mem = some t₀)
    (h : Reach (Machine.step mon) Machine.Mindful (boot t₀ m) tr s)
    (hfree : s.lock .wait = none) (q : ProcId) (hq : q ≠ s.initproc) :
    (∀ r, (s.proc q).parent = some r → (s.proc r).Live ∧ ¬ s.Reparented r) ∧
    ((s.proc q).state = .zombie → ∃ r, (s.proc q).parent = some r ∧ (s.proc r).Live) ∧
    ((s.proc q).state ≠ .unused → (∃ r, (s.proc q).parent = some r ∧ (s.proc r).Live) ∨
      ∃ y nt, (s.pos y).forking = some (q, nt) ∧ ¬ Gone (s.state y) ∧ (s.proc y.1).Live) := by
  obtain ⟨⟨hinv, hf⟩, ht⟩ := tended_of_reach h₀ h
  have hchild : (s.proc q).Live ∨ (s.proc q).state = .zombie →
      ∃ r, (s.proc q).parent = some r ∧ (s.proc r).Live := fun hst => by
    obtain ⟨r, hr⟩ := ne_none_iff_exists'.1 (hf.child q hq hst)
    exact ⟨r, hr, hf.parents q r hr⟩
  refine ⟨fun r hr => ?_, fun hz => hchild (.inr hz), fun hused => ?_⟩
  · have hlive := hf.parents q r hr
    exact ⟨hlive, Machine.Family.not_reparented hinv hfree hlive⟩
  · by_cases hset : (s.proc q).state = .used
    · exact .inr (ht q hset)
    · by_cases hz : (s.proc q).state = .zombie
      · exact .inl (hchild (.inr hz))
      · exact .inl (hchild (.inl ⟨hused, hset, hz⟩))

end

/-! ### A parent that exits during a fork -/

instance (k : CpuPos) (Q : Tid → Prop) [∀ x, Decidable (Q x)] :
    Decidable (∀ x, k = .run x → Q x) := by
  cases k with
  | run x => exact decidable_of_iff (Q x) ⟨fun h _ hx => by cases hx; exact h, fun h => h x rfl⟩
  | _ => exact .isTrue nofun

instance (p : Pos) (Q : Prop) [Decidable Q] : Decidable (∀ e, p = .here (.exit1 e) → Q) := by
  cases p with
  | here b =>
    cases b with
    | exit1 e => exact decidable_of_iff Q ⟨fun h _ _ => h, fun h => h e rfl⟩
    | _ => exact .isTrue nofun
  | _ => exact .isTrue nofun

instance [Fintype C] (s : Machine C M) (a : C × Choice K) : Decidable (s.Mindful a) :=
  @instDecidableAnd _ _ inferInstance (decidable_of_iff (∀ x, s.cpu a.1 = .run x → ∀ e,
    s.pos x = .here (.exit1 e) → ∀ t, t ≠ x.2 → (s.pos (x.1, t)).forking = none ∨
      s.state (x.1, t) = .unused ∨ s.state (x.1, t) = .zombie)
    ⟨fun h x e hx => h x hx e, fun h x hx e => h x e hx⟩)

/-- The second process has two threads.  The second one calls `fork` and comes to the point where it
waits for `wait_lock`; then the first one exits and is switched out. -/
def exitInFork : List (Fin 3 × Choice Empty) :=
  forkChild 0 ++ startThreads 1 2 ++ forks 2 2 zeroPages ++ [(2, .go), (1, .exit 3)] ++
    goes 1 (2 * NPROC + 4) ++ goes 2 2

/-- The child of that `fork` gets a zombie as its parent.  When the zombie's own parent has waited
for it, the child can run, but its parent is a free slot. -/
theorem orphan_of_exit_in_fork : ∃ t₀ s s', userinit zeroPages (fun _ => none) = some t₀ ∧
    Reach (Machine.step idleKernel) Always (boot t₀ ()) exitInFork.reverse s ∧
    s.lock .wait = none ∧ (s.proc 2).parent = some 1 ∧ s.Reparented 1 ∧
    run (Machine.step idleKernel) s
      [(2, .go), (2, .go), (0, .wait), (0, .flag true), (0, .flag false), (0, .go)] = some s' ∧
    s'.lock .wait = none ∧ (s'.proc 2).state = .runnable ∧ (s'.proc 2).parent = some 1 ∧
    (s'.proc 1).state = .unused ∧ s'.initproc = 0 := by
  obtain ⟨t₀, h₀, s, hs, s', hs', ⟨hwait, hpar, hz⟩, ⟨hwait', hrunnable⟩, hafter⟩ :
      ∃ t₀ ∈ userinit zeroPages fun _ => none,
      ∃ s ∈ run (Machine.step idleKernel) (boot t₀ ()) exitInFork,
      ∃ s' ∈ run (Machine.step idleKernel) s
        [(2, .go), (2, .go), (0, .wait), (0, .flag true), (0, .flag false), (0, .go)],
      (s.lock .wait = none ∧ (s.proc 2).parent = some 1 ∧ (s.proc 1).state = .zombie) ∧
      (s'.lock .wait = none ∧ (s'.proc 2).state = .runnable) ∧ (s'.proc 2).parent = some 1 ∧
      (s'.proc 1).state = .unused ∧ s'.initproc = 0 := by decide +kernel
  exact ⟨t₀, s, s', h₀, reach_always hs, hwait, hpar, .inl hz,
    hs', hwait', hrunnable, hafter⟩

/-- The second process has forked a child and exits: the child goes to the first process. -/
def exitAfterFork : List (Fin 3 × Choice Empty) :=
  forkChild 0 ++ goes 1 5 ++ forks 1 2 zeroPages ++ goes 1 5 ++ [(1, .exit 3)] ++
    goes 1 (4 * NPROC + 4)

theorem parents_never_dead_exit : ∃ t₀ s, userinit zeroPages (fun _ => none) = some t₀ ∧
    runWhen (Machine.step idleKernel) Machine.Mindful (boot t₀ ()) exitAfterFork =
      some s ∧ s.lock .wait = none ∧ (s.proc 1).state = .zombie ∧ (s.proc 2).parent = some 0 ∧
    (s.proc 0).Live ∧ ¬ s.Reparented 0 := by
  obtain ⟨t₀, h₀, s, hs, hwait, hz, hpar, hinit⟩ : ∃ t₀ ∈ userinit zeroPages fun _ => none,
      ∃ s ∈ runWhen (Machine.step idleKernel) Machine.Mindful (boot t₀ ()) exitAfterFork,
      s.lock .wait = none ∧ (s.proc 1).state = .zombie ∧ (s.proc 2).parent = some 0 ∧
      s.initproc = 0 := by decide +kernel
  refine ⟨t₀, s, h₀, hs, hwait, hz, hpar, ?_⟩
  exact (parents_never_dead h₀ (reach_of_runWhen hs) hwait 2 (by rw [hinit]; decide)).1
    0 hpar

end Xv6.Smp
