import Xv6.Smp.Family

/-!
# Nobody sleeps in `wait` beside a zombie child

`wait` looks at all children and goes to sleep without giving up `wait_lock` in between; `exit`
wakes the parent up and marks the process, again without giving it up.  So a parent sleeps in
`wait` while it has a zombie child only as long as somebody who gives it a child in `reparent` has
the wakeup still to do.
-/

namespace Xv6.Smp

open Base Option

variable {C M : Type} {s s' : Machine C M} {c : C} {x y : Tid}

/-- In `wait`, the children with a smaller index have been looked at. -/
def Base.seen : Base → ℕ
  | .waitAt np => np.val
  | .waitChecked np false => np.val + 1
  | .waitSleep => NPROC
  | .sleep1 _ .wait => NPROC
  | _ => 0

variable {b : Base}

theorem Base.kin_of_seen (h : 0 < b.seen) : b.kin = true := by
  cases b with
  | waitAt np | waitSleep => rfl
  | waitChecked np done =>
    cases done with
    | false => rfl
    | true => exact absurd h (lt_irrefl 0)
  | sleep1 chan k => cases k <;> first | rfl | exact absurd h (lt_irrefl 0)
  | _ => exact absurd h (lt_irrefl 0)

/-- What `exit` wakes up after `reparent`. -/
def Base.summons : Base → Option (Option Chan)
  | .wake chan _ (.exit _) => some chan
  | .waking chan _ (.exit _) => some chan
  | _ => none

variable {chan : Option Chan}

theorem Base.kin_of_summons (h : b.summons = some chan) :
    b.kin = true := by
  cases b with
  | wake _ _ r | waking _ _ r =>
    cases r with
    | exit e => rfl
    | _ => cases h
  | _ => cases h

/-- A `wakeup` of process `r`, in `exit` or `reparent`, that has its turn for slot `r` still to
do. -/
inductive Base.Wakes (r : ProcId) : Base → Prop
  | wake {q : ProcId} {ret : Ret} (hret : ret.kin = true) (hq : q ≤ r) :
      Wakes r (.wake (some (.proc r)) q ret)
  | waking {q : ProcId} {ret : Ret} (hret : ret.kin = true) (hq : q < r) :
      Wakes r (.waking (some (.proc r)) q ret)

/-- The same `wakeup`, after its turn for slot `r`. -/
inductive Base.Woke (r : ProcId) : Base → Prop
  | wake {q : ProcId} {ret : Ret} (hret : ret.kin = true) (hq : r < q) :
      Woke r (.wake (some (.proc r)) q ret)
  | waking {q : ProcId} {ret : Ret} (hret : ret.kin = true) (hq : r ≤ q) :
      Woke r (.waking (some (.proc r)) q ret)

theorem Base.Wakes.parting {r : ProcId} (h : b.Wakes r) : b.parting = true := by
  cases h with
  | wake hret | waking hret => exact hret

theorem Base.Woke.wake_lt {r q : ProcId} {ret : Ret}
    (h : (Base.wake chan q ret).Woke r) : chan = some (.proc r) ∧ r < q := by
  cases h with
  | wake _ hq => exact ⟨rfl, hq⟩

theorem Base.Woke.waking_le {r q : ProcId} {ret : Ret}
    (h : (Base.waking chan q ret).Woke r) : chan = some (.proc r) ∧ r ≤ q := by
  cases h with
  | waking _ hq => exact ⟨rfl, hq⟩

theorem Base.Woke.kin {r : ProcId} (h : b.Woke r) : b.kin = true := by
  cases h with
  | wake hret | waking hret => exact hret

theorem nextSlot_val {q q' : ProcId} (h : nextSlot q = some q') : q'.val = q.val + 1 := by
  unfold nextSlot at h
  split_ifs at h
  cases h
  rfl

theorem nextSlot_le {q q' r : ProcId} (h : nextSlot q = some q') (hr : r < q') : r ≤ q := by
  have := nextSlot_val h
  rw [Fin.lt_def] at hr
  rw [Fin.le_def]
  omega

theorem nextSlot_lt {q q' r : ProcId} (h : nextSlot q = some q') (hr : q < r) : q' ≤ r := by
  have := nextSlot_val h
  rw [Fin.lt_def] at hr
  rw [Fin.le_def]
  omega

theorem le_of_nextSlot {q : ProcId} (h : nextSlot q = none) (r : ProcId) : r ≤ q := by
  unfold nextSlot at h
  split_ifs at h with hlt
  have := r.isLt
  rw [Fin.le_def]
  omega

/-- The thread sleeps in `wait`. -/
def Machine.Dozing (s : Machine C M) (y : Tid) : Prop :=
  s.pos y = .slept .wait ∧ s.state y = .sleeping

structure Machine.Waiting (s : Machine C M) : Prop where
  found : ∀ y np, s.pos y = .here (.waitAt np) → (s.proc np).parent = some y.1
  seen : ∀ y b, s.pos y = .here b → ∀ q : ProcId, q.val < b.seen →
    (s.proc q).parent = some y.1 → (s.proc q).state ≠ .zombie
  nap : ∀ y chan, s.pos y = .here (.sleep1 chan .wait) → chan = .proc y.1
  chan : ∀ y, s.Dozing y → (s.thread y).chan = some (.proc y.1)
  summons : ∀ y b chan, s.pos y = .here b → b.summons = some chan →
    chan = (s.proc y.1).parent.map .proc
  woke : ∀ y b r, s.pos y = .here b → b.Woke r → ∀ z : Tid, z.1 = r → ¬ s.Dozing z
  ready : ∀ y e, s.pos y = .here (.exit1 e) →
    ∀ z : Tid, (s.proc y.1).parent = some z.1 → ¬ s.Dozing z
  pending : ∀ y q, s.Dozing y → (s.proc q).state = .zombie → (s.proc q).parent = some y.1 →
    ∃ z b, s.pos z = .here b ∧ b.Wakes y.1

/-! ### Steps of others -/

/-- A thread at a position in the kernel that did not make the step was there before. -/
theorem Kin.here_before (hk : Kin c s s') (hy : s.cpu c ≠ .run y)
    (hb : s'.pos y = .here b) : s.pos y = .here b := by
  rcases hk.pos_other hy with hpos | ⟨-, hpos⟩
  · exact hpos.symm.trans hb
  · rw [hpos] at hb
    cases hb

/-- A thread at a position in the kernel stays there while others make a step. -/
theorem Kin.here_after (h : s.Inv) (hk : Kin c s s') (hy : s.cpu c ≠ .run y)
    (hb : s.pos y = .here b) : s'.pos y = .here b := by
  rcases hk.pos_other hy with hpos | ⟨hun, -⟩
  · exact hpos.trans hb
  · obtain ⟨c', hc'⟩ := h.executes hb
    rcases h.exec_state hc' with hst | hst <;> rw [hun] at hst <;> cases hst

/-- While a thread has something under way with `wait_lock`, the others change no parent and make
no zombie. -/
theorem Kin.frozen (h : s.Inv) (hf : s.Family) (hk : Kin c s s')
    (hb : s.pos y = .here b) (hkin : b.kin = true) (hy : s.cpu c ≠ .run y) (q : ProcId) :
    (s'.proc q).parent = (s.proc q).parent ∧
      ((s'.proc q).state = .zombie → (s.proc q).state = .zombie) := by
  have hother : ∀ {x : Tid}, s.cpu c = .run x → s.Guarded x → False := fun hx hw =>
    hy ((h.alone hx hw hb hkin).symm ▸ hx)
  have hmem : ∀ {x : Tid} {b : Base}, s.cpu c = .run x → s.pos x = .here b → b.kin = true → False :=
    fun {x b} hx hp hkin => hother hx (.inr (by rw [hp]; exact wait_mem_locks x.1 hkin))
  cases hk.lot q with
  | still hs => exact ⟨hs.parent, fun hz => hs.state_eq hz nofun⟩
  | disown x _ _ hx _ hw | adopt x _ hx _ hw => exact (hother hx hw).elim
  | run _ _ _ _ hproc => rw [hproc]; exact ⟨rfl, nofun⟩
  | mark x e hx hp | reap x hx hp => exact (hmem hx hp rfl).elim
  | born _ _ _ _ _ hused _ hparent => exact ⟨hparent, fun hz => by rw [hused] at hz; cases hz⟩
  | fail hfree hun hparent =>
    exact ⟨hparent.trans (hf.free q hfree).symm, fun hz => by rw [hun] at hz; cases hz⟩

/-- A thread that sleeps in `wait` did so before, or has just gone to sleep. -/
theorem Kin.dozing (hk : Kin c s s') (hd : s'.Dozing y) :
    s.Dozing y ∧ (s'.thread y).chan = (s.thread y).chan ∨
      s.cpu c = .run y ∧ ∃ chan, s.pos y = .here (.sleep1 chan .wait) ∧
        (s'.thread y).chan = some chan ∧ ∀ q, Still (s.proc q) (s'.proc q) := by
  cases hk with
  | idle hpos _ _ _ hnaps =>
    obtain ⟨hst, hchan⟩ := hnaps y nofun hd.2
    exact .inl ⟨⟨by rw [← hpos]; exact hd.1, hst⟩, hchan⟩
  | act x hx hpos _ _ hnaps hdeed =>
    by_cases hyx : y = x
    · subst hyx
      obtain ⟨hslept, -⟩ := hd
      generalize hp : s.pos y = p at hdeed
      rw [hslept] at hdeed
      cases hdeed with
      | move _ _ hkin => cases hkin
      | sleep hstill hchan => exact .inr ⟨hx, _, rfl, hchan, hstill⟩
    · obtain ⟨hst, hchan⟩ := hnaps y (fun h => hyx (some.inj h)) hd.2
      refine .inl ⟨⟨?_, hst⟩, hchan⟩
      rcases hpos y hyx with heq | ⟨-, heq⟩
      · exact heq.symm.trans hd.1
      · have := heq.symm.trans hd.1
        cases this

/-- While a thread has something under way with `wait_lock`, nobody else goes to sleep in
`wait`. -/
theorem Kin.dozing_before (h : s.Inv) (hk : Kin c s s') (hb : s.pos y = .here b)
    (hkin : b.kin = true) (hsl : ∀ chan, b ≠ .sleep1 chan .wait) {z : Tid} (hd : s'.Dozing z) :
    s.Dozing z := by
  rcases hk.dozing hd with hold | ⟨hz, chan, hp, -⟩
  · exact hold.1
  · have hmem : .wait ∈ (s.pos z).locks z.1 := by
      rw [hp]
      exact wait_mem_locks (b := .sleep1 chan .wait) z.1 rfl
    have hyz : y = z := h.alone hz (.inr hmem) hb hkin
    rw [hyz, hp] at hb
    exact absurd (Pos.here.inj hb).symm (hsl chan)

/-! ### One step -/

namespace Machine.Waiting

section

variable (hw : s.Waiting)

include hw

theorem found_step (h : s.Inv) (hf : s.Family) (hk : Kin c s s') {np : ProcId}
    (hp' : s'.pos y = .here (.waitAt np)) : (s'.proc np).parent = some y.1 := by
  by_cases hy : s.cpu c = .run y
  · rcases hk.deed hy with ⟨hpos, hstill⟩ | hdeed
    · rw [(hstill np).parent]
      exact hw.found y np (hpos.symm.trans hp')
    · generalize s.pos y = p at hdeed
      rw [hp'] at hdeed
      cases hdeed with
      | move _ _ hkin => cases hkin
      | scan k _ _ hproc hnext =>
        rw [hproc]
        exact (nextChild_some hnext).2
  · have hp := hk.here_before hy hp'
    rw [(hk.frozen h hf hp rfl hy np).1]
    exact hw.found y np hp

theorem seen_step (h : s.Inv) (hf : s.Family) (hk : Kin c s s')
    (hb : s'.pos y = .here b) {q : ProcId} (hq : q.val < b.seen)
    (hpar : (s'.proc q).parent = some y.1) : (s'.proc q).state ≠ .zombie := by
  have hkin := kin_of_seen (lt_of_le_of_lt (Nat.zero_le _) hq)
  by_cases hy : s.cpu c = .run y
  · rcases hk.deed hy with ⟨hpos, hstill⟩ | hdeed
    · intro hz
      exact hw.seen y b (hpos.symm.trans hb) q hq ((hstill q).parent.symm.trans hpar)
        ((hstill q).state_eq hz nofun)
    · generalize hp : s.pos y = p at hdeed
      rw [hb] at hdeed
      -- the part of the table that was scanned before this step
      have hbefore : ∀ {k : ℕ}, (k = 0 ∧ p.parting = false ∨ ∃ np0 : ProcId,
          p = .here (.waitChecked np0 false) ∧ k = np0.val + 1) → q.val < k →
          (s.proc q).parent = some y.1 → (s.proc q).state ≠ .zombie := by
        rintro k (⟨rfl, -⟩ | ⟨np0, rfl, rfl⟩) hlt
        · exact absurd hlt (Nat.not_lt_zero _)
        · exact hw.seen y _ hp q hlt
      cases hdeed with
      | move _ _ hkin' => exact absurd hkin (by rw [show b.kin = false from hkin']; nofun)
      | scan k hk0 _ hproc hnext =>
        rw [hproc] at hpar ⊢
        by_cases hlt : q.val < k
        · exact hbefore hk0 hlt hpar
        · exact absurd hpar (nextChild_skip hnext (not_lt.1 hlt) hq)
      | @scanned np0 hproc hnext =>
        rw [hproc] at hpar ⊢
        by_cases hlt : q.val < np0.val + 1
        · exact hbefore (.inr ⟨np0, rfl, rfl⟩) hlt hpar
        · exact absurd hpar (nextChild_none hnext (not_lt.1 hlt))
      | @checked np hproc hz =>
        rw [hproc] at hpar ⊢
        rcases Nat.lt_succ_iff_lt_or_eq.1 hq with hlt | heq
        · exact hw.seen y _ hp q hlt hpar
        · rw [Fin.ext heq]
          exact hz
      | doze hproc =>
        rw [hproc] at hpar ⊢
        exact hw.seen y _ hp q hq hpar
      | _ => exact absurd hq (Nat.not_lt_zero _)
  · have hp := hk.here_before hy hb
    obtain ⟨hparent, hzombie⟩ := hk.frozen h hf hp hkin hy q
    exact fun hz => hw.seen y b hp q hq (hparent.symm.trans hpar) (hzombie hz)

theorem nap_step (hk : Kin c s s') {chan : Chan}
    (hp' : s'.pos y = .here (.sleep1 chan .wait)) : chan = .proc y.1 := by
  by_cases hy : s.cpu c = .run y
  · rcases hk.deed hy with ⟨hpos, -⟩ | hdeed
    · exact hw.nap y chan (hpos.symm.trans hp')
    · generalize s.pos y = p at hdeed
      rw [hp'] at hdeed
      cases hdeed with
      | move _ _ hkin => cases hkin
      | doze => rfl
  · exact hw.nap y chan (hk.here_before hy hp')

theorem chan_step (hk : Kin c s s') (hd : s'.Dozing y) : (s'.thread y).chan = some (.proc y.1) := by
  rcases hk.dozing hd with ⟨hold, hchan⟩ | ⟨-, chan, hp, hchan, -⟩
  · exact hchan.trans (hw.chan y hold)
  · rw [hchan, hw.nap y chan hp]

theorem summons_step (h : s.Inv) (hf : s.Family) (hk : Kin c s s') (hb : s'.pos y = .here b)
    (hs : b.summons = some chan) :
    chan = (s'.proc y.1).parent.map .proc := by
  by_cases hy : s.cpu c = .run y
  · rcases hk.deed hy with ⟨hpos, hstill⟩ | hdeed
    · rw [(hstill y.1).parent]
      exact hw.summons y b chan (hpos.symm.trans hb) hs
    · generalize hp : s.pos y = p at hdeed
      rw [hb] at hdeed
      cases hdeed with
      | move _ _ hkin =>
        have hkin : b.kin = false := hkin
        rw [kin_of_summons hs] at hkin
        cases hkin
      | @rouse chan' q r _ hproc =>
        have hpar : (s'.proc y.1).parent = (s.proc y.1).parent := by
          rw [hproc]
          exact (@Still.update q ((s.proc q).wakeupThreads _ chan') s.proc
            ⟨.refl _, rfl, rfl, rfl⟩ y.1).parent
        rw [hpar]
        cases r with
        | exit e => exact hw.summons y _ chan hp hs
        | _ => cases hs
      | @next _ _ _ r _ _ hproc =>
        rw [hproc]
        cases r with
        | exit e => exact hw.summons y _ chan hp hs
        | _ => cases hs
      | disowned _ _ _ hproc =>
        cases hs
        rw [hproc]
      | _ => cases hs
  · have hp := hk.here_before hy hb
    rw [(hk.frozen h hf hp (kin_of_summons hs) hy y.1).1]
    exact hw.summons y b chan hp hs

theorem woke_step (h : s.Inv) (hk : Kin c s s') {r : ProcId}
    (hb : s'.pos y = .here b) (hr : b.Woke r) {z : Tid} (hz : z.1 = r) : ¬ s'.Dozing z := by
  intro hd
  have hsame : s.pos y = .here b → False := fun hp =>
    hw.woke y b r hp hr z hz (hk.dozing_before h hp hr.kin (by rintro chan rfl; cases hr) hd)
  by_cases hy : s.cpu c = .run y
  · rcases hk.deed hy with ⟨hpos, -⟩ | hdeed
    · exact hsame (hpos.symm.trans hb)
    · generalize hp : s.pos y = p at hdeed
      rw [hb] at hdeed
      cases hdeed with
      | move _ _ hkin => exact absurd hr.kin (by rw [show b.kin = false from hkin]; simp)
      | @rouse chan q ret hret hproc =>
        obtain ⟨rfl, hle⟩ := hr.waking_le
        have hold : s.Dozing z := hk.dozing_before h hp hret (by rintro _ ⟨⟩) hd
        rcases lt_or_eq_of_le hle with hlt | heq
        · exact hw.woke y _ r hp (.wake hret hlt) z hz hold
        · -- the turn for this slot has just been made
          have hsl : (((s.proc q).wakeupThreads (if y.1 = q then some y.2 else none)
              (some (.proc r))).threads z.2).state = .sleeping := by
            have hst : ((s'.proc z.1).threads z.2).state = .sleeping := hd.2
            rw [hproc, hz, heq] at hst
            simpa [Machine.wakeSlot, Machine.setProc, heq] using hst
          have hne := (wakeupThreads_sleeping hsl).2.2 ?_
          · apply hne
            rw [← heq, ← hz]
            exact hw.chan z hold
          · intro hself
            split_ifs at hself with hyq
            have hyz : y = z := Prod.ext (hyq.trans (heq.symm.trans hz.symm))
              (Option.some.inj hself)
            have := hold.1
            rw [← hyz, hp] at this
            cases this
      | @next chan q q' ret hret hnext hproc =>
        obtain ⟨rfl, hlt⟩ := hr.wake_lt
        refine hw.woke y _ r hp (.waking hret ?_) z hz
          (hk.dozing_before h hp hret (by rintro _ ⟨⟩) hd)
        exact nextSlot_le hnext hlt
      | disown | disowned => exact absurd hr.wake_lt.2 (not_lt.2 (Fin.zero_le _))
      | _ => cases hr
  · exact hsame (hk.here_before hy hb)

theorem ready_step (h : s.Inv) (hf : s.Family) (hk : Kin c s s') {e : Exiting}
    (hp' : s'.pos y = .here (.exit1 e)) {z : Tid} (hpar : (s'.proc y.1).parent = some z.1) :
    ¬ s'.Dozing z := by
  intro hd
  by_cases hy : s.cpu c = .run y
  · rcases hk.deed hy with ⟨hpos, hstill⟩ | hdeed
    · have hp := hpos.symm.trans hp'
      exact hw.ready y e hp z ((hstill y.1).parent.symm.trans hpar)
        (hk.dozing_before h hp rfl nofun hd)
    · generalize hp : s.pos y = p at hdeed
      rw [hp'] at hdeed
      cases hdeed with
      | move _ _ hkin => cases hkin
      | @woken chan q _ hq hproc =>
        rw [hproc] at hpar
        have hchan := hw.summons y _ chan hp rfl
        rw [hpar] at hchan
        subst hchan
        exact hw.woke y _ z.1 hp (.waking rfl (le_of_nextSlot hq z.1)) z rfl
          (hk.dozing_before h hp rfl nofun hd)
  · have hp := hk.here_before hy hp'
    refine hw.ready y e hp z ?_ (hk.dozing_before h hp rfl nofun hd)
    exact (hk.frozen h hf hp rfl hy y.1).1.symm.trans hpar

/-- A wakeup that is still to be done stays so, as long as there is a sleeper for it. -/
theorem wakes_step (h : s.Inv) (hk : Kin c s s') {z : Tid}
    (hb : s.pos z = .here b) (hwakes : b.Wakes y.1) (hd' : s'.Dozing y) :
    ∃ b', s'.pos z = .here b' ∧ b'.Wakes y.1 := by
  by_cases hz : s.cpu c = .run z
  · rcases hk.deed hz with ⟨hpos, -⟩ | hdeed
    · exact ⟨b, hpos.trans hb, hwakes⟩
    · -- once the turn for the slot of the sleeper has been made, it does not sleep any more
      have hgone : ∀ {b' : Base}, s'.pos z = .here b' → b'.Woke y.1 → False := fun hb' hwoke =>
        hw.woke_step h hk hb' hwoke rfl hd'
      have hlast : ∀ {chan : Option Chan} {q : ProcId} {ret : Ret}, nextSlot q = none →
          b ≠ .waking chan q ret := by
        rintro chan q ret hq rfl
        cases hwakes with
        | waking _ hlt => exact absurd hlt (not_lt.2 (le_of_nextSlot hq y.1))
      have hreparent : ∀ {k : ℕ} {e : Exiting}, Reparenting (.here b) k e → False := by
        rintro k e (⟨hp, -⟩ | ⟨chan, q, hq, hp⟩)
        · cases hp
          cases hwakes
        · exact hlast hq (Pos.here.inj hp)
      rw [hb] at hdeed
      generalize hp' : s'.pos z = p' at hdeed hgone ⊢
      cases hdeed with
      | move _ hparting =>
        have hparting : b.parting = false := hparting
        rw [hwakes.parting] at hparting
        cases hparting
      | @rouse chan q ret hret =>
        cases hwakes with
        | wake _ hle =>
          rcases lt_or_eq_of_le hle with hlt | heq
          · exact ⟨_, rfl, .waking hret hlt⟩
          · exact (hgone rfl (.waking hret heq.ge)).elim
      | @next chan q q' ret hret hnext =>
        cases hwakes with
        | waking _ hlt => exact ⟨_, rfl, .wake hret (nextSlot_lt hnext hlt)⟩
      | woken hq => exact (hlast hq rfl).elim
      | disown hr | disowned hr => exact (hreparent hr).elim
      | scan _ hk0 =>
        rcases hk0 with ⟨-, hparting⟩ | ⟨np0, hp, -⟩
        · have hparting : b.parting = false := hparting
          rw [hwakes.parting] at hparting
          cases hparting
        · cases hp
          cases hwakes
      | _ => cases hwakes
  · exact ⟨b, hk.here_after h hz hb, hwakes⟩

theorem pending_step (h : s.Inv) (hk : Kin c s s') {q : ProcId}
    (hd : s'.Dozing y) (hz : (s'.proc q).state = .zombie)
    (hpar : (s'.proc q).parent = some y.1) : ∃ z b, s'.pos z = .here b ∧ b.Wakes y.1 := by
  rcases hk.dozing hd with ⟨hold, -⟩ | ⟨-, chan, hp, -, hstill⟩
  · have hkeep : (s.proc q).state = .zombie → (s.proc q).parent = some y.1 →
        ∃ z b, s'.pos z = .here b ∧ b.Wakes y.1 := fun hz0 hpar0 => by
      obtain ⟨z, b, hb, hwakes⟩ := hw.pending y q hold hz0 hpar0
      exact ⟨z, hw.wakes_step h hk hb hwakes hd⟩
    cases hk.lot q with
    | still hs => exact hkeep (hs.state_eq hz nofun) (hs.parent.symm.trans hpar)
    | disown x _ _ _ _ _ _ hproc hp' =>
      -- whoever gives the zombie to the first process wakes it up
      rw [hproc] at hpar
      have hinit : s.initproc = y.1 := some.inj hpar
      rw [hinit] at hp'
      exact ⟨x, _, hp', .wake rfl (Fin.zero_le _)⟩
    | adopt x nt hx hp _ hproc =>
      have hrun : s.state x = .running := h.state_here hx hp
      have hused := (h.forking x q nt (by rw [hp]; rfl) (Inv.not_gone hrun)).1
      have hz0 : (s.proc q).state = .zombie := by rwa [hproc] at hz
      rw [hused] at hz0
      cases hz0
    | run _ _ _ _ hproc | reap _ _ _ _ hproc => rw [hproc] at hz; cases hz
    | mark x e _ hp hxq hproc =>
      subst hxq
      rw [hproc] at hpar
      exact absurd hold (hw.ready x e hp y hpar)
    | born _ _ _ _ _ hused => rw [hused] at hz; cases hz
    | fail _ hun => rw [hun] at hz; cases hz
  · -- it has looked at all its children before it went to sleep
    exact absurd ((hstill q).state_eq hz nofun)
      (hw.seen y _ hp q q.isLt ((hstill q).parent.symm.trans hpar))

/-- **One step.** -/
theorem step (h : s.Inv) (hf : s.Family) (hk : Kin c s s') : s'.Waiting where
  found _ _ := hw.found_step h hf hk
  seen _ _ hb _ := hw.seen_step h hf hk hb
  nap _ _ := hw.nap_step hk
  chan _ := hw.chan_step hk
  summons _ _ _ := hw.summons_step h hf hk
  woke _ _ _ hb hr _ := hw.woke_step h hk hb hr
  ready _ _ hp _ := hw.ready_step h hf hk hp
  pending _ _ := hw.pending_step h hk

end

end Machine.Waiting

end Xv6.Smp
