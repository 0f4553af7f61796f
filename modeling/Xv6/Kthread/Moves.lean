import Xv6.Kthread.Preserve

/-!
# What a step does to positions and to slots

`step_base` says how the position of a thread can change, and `step_gone` how a slot can come into
use.  Interrupts do not count: a thread in `yield` is where it will go on.
-/

namespace Xv6.Kthread

open Function Option

/-- Where the thread goes on. -/
def Wait.next : Wait → Option Base
  | .start => some .user
  | .slept a => some (.join0 a)
  | .yielded b => some b
  | .dead => none

/-- Where the thread is, or goes on. -/
def Pc.base : Pc → Option Base
  | .absent => none
  | .here b | .yield0 b => some b
  | .sched w | .out w | .back w => w.next

namespace Sys

variable {s s' : Sys} {c d : ℤ} {p : Pc} {b b' : Base} {a : Act} {ok : Bool} {j : ThreadId}

/-! ### Steps of one thread -/

/-- What a step of thread `c` at `b` may change besides its own position. -/
structure Effect (s s' : Sys) (c : ℤ) (ok : Bool) (b : Base) : Prop where
  others : ∀ d, d ≠ c → s'.pc d = s.pc d ∨ d = s.nexttid ∧ s'.pc d = .out .start
  home : ∀ d, d ≠ s.nexttid → s'.home d = s.home d
  killed : ∀ j, (s'.slot j).killed = true → (s.slot j).killed = true ∨ b = .exec0
  gone : ∀ j, Gone (s.slot j).state → Gone (s'.slot j).state ∨
    b = .create0 ∧ ok = true ∧ s.freeSlot = some j ∨ (∃ x k, b = .sleep2 x k) ∧ j = s.home c
  live : s'.live = s.live ∨ b = .create0 ∧ s'.pc c = .here .create1

theorem Effect.move (hslot : s'.slot = s.slot) (hpc : s'.pc = update s.pc c p)
    (hhome : s'.home = s.home) (hlive : s'.live = s.live) : Effect s s' c ok b where
  others d hd := .inl (by rw [hpc, update_of_ne hd])
  home d _ := by rw [hhome]
  killed j hj := .inl (by rwa [hslot] at hj)
  gone j hj := .inl (by rwa [hslot])
  live := .inl hlive

variable {l : Lk}

theorem Effect.acquire (hs : (s.acquire c l).map (fun s => s.setPc c p) = some s') :
    Effect s s' c ok b := by
  obtain ⟨lock, -, rfl⟩ := of_acquire hs
  exact .move rfl rfl rfl rfl

theorem Effect.release (hs : (s.release c l).map (fun s => s.setPc c p) = some s') :
    Effect s s' c ok b := by
  obtain ⟨lock, -, rfl⟩ := of_release hs
  exact .move rfl rfl rfl rfl

variable {k : ThreadId}

theorem Effect.write {sl : Slot} (hslot : s'.slot = update s.slot k sl)
    (hpc : s'.pc = update s.pc c p) (hhome : s'.home = s.home) (hlive : s'.live = s.live)
    (hkilled : sl.killed = true → (s.slot k).killed = true)
    (hgone : Gone sl.state ∨ (∃ x k, b = .sleep2 x k) ∧ k = s.home c) : Effect s s' c ok b where
  others d hd := .inl (by rw [hpc, update_of_ne hd])
  home d _ := by rw [hhome]
  killed j hj := by
    rw [hslot] at hj
    by_cases hjk : j = k
    · subst hjk
      rw [update_self] at hj
      exact .inl (hkilled hj)
    · rw [update_of_ne hjk] at hj
      exact .inl hj
  gone j hj := by
    rw [hslot]
    by_cases hjk : j = k
    · subst hjk
      rw [update_self]
      exact hgone.imp_right fun h => .inr h
    · rw [update_of_ne hjk]
      exact .inl hj
  live := .inl hlive

theorem Effect.wakes (hslot : ∀ k, Wakes (s.slot k) (s'.slot k))
    (hkilled : ∀ k, (s'.slot k).killed = true → (s.slot k).killed = true ∨ b = .exec0)
    (hpc : s'.pc = update s.pc c p) (hhome : s'.home = s.home)
    (hlive : s'.live = s.live) : Effect s s' c ok b where
  others d hd := .inl (by rw [hpc, update_of_ne hd])
  home d _ := by rw [hhome]
  killed := hkilled
  gone j hj := .inl ((hslot j).gone.2 hj)
  live := .inl hlive

/-- `kthread_create`. -/
theorem effect_create (s : Sys) (c : ℤ) (ok : Bool) :
    Effect s ((s.create ok).goto c .create1) c ok .create0 := by
  unfold create
  split
  · exact .move rfl rfl rfl rfl
  rename_i k hfree
  split_ifs with hok
  · refine ⟨fun d hd => ?_, fun d hd => ?_, fun j hj => ?_, fun j hj => ?_, .inl rfl⟩
    · simp only [goto, newThread, update_of_ne hd]
      by_cases hn : d = s.nexttid
      · exact .inr ⟨hn, by rw [hn, update_self]⟩
      · exact .inl (update_of_ne hn _ _)
    · simp only [goto, newThread, update_of_ne hd]
    · refine .inl ?_
      simp only [goto, newThread] at hj
      by_cases hjk : j = k
      · subst hjk
        rwa [update_self] at hj
      · rwa [update_of_ne hjk] at hj
    · simp only [goto, newThread]
      by_cases hjk : j = k
      · exact .inr (.inl ⟨trivial, hok, by rw [hjk]; exact hfree⟩)
      · rw [update_of_ne hjk]
        exact .inl hj
  · refine ⟨fun d hd => ?_, fun d hd => rfl, fun j hj => ?_, fun j hj => ?_, ?_⟩
    · simp only [goto, freeproc, update_of_ne hd]
      exact .inl trivial
    · simp only [goto, freeproc] at hj
      split_ifs at hj with hst
      · cases hj
      · exact .inl hj
    · simp only [goto, freeproc]
      split_ifs
      · exact .inl (.inl rfl)
      · exact .inl hj
    · exact .inr ⟨rfl, by simp [goto]⟩

theorem baseStep_effect (hs : s.baseStep c ok b = some s') : Effect s s' c ok b := by
  cases b with
  | user | exiting status => cases hs
  | busy | ret | execBody => cases hs; exact .move rfl rfl rfl rfl
  | create0 =>
    obtain ⟨lock, -, rfl⟩ := of_acquire hs
    have h := effect_create { s with lock := lock } c ok
    exact ⟨h.others, h.home, h.killed, h.gone, h.live⟩
  | create1 | kexit1 last status | kexit4 | kexit5 | joinNext x k | joinDone | joinEnd
  | sleep1 x k | exec1 => exact .release hs
  | kexit0 status =>
    obtain ⟨lock, -, rfl⟩ := of_acquire hs
    exact .write rfl rfl rfl rfl id (.inl (.inr rfl))
  | kexit2 | kexit6 | join0 x | joinAt x k | joinSleep x k => exact .acquire hs
  | kexit3 =>
    obtain ⟨lock, -, rfl⟩ := of_acquire hs
    refine .wakes (wakes_wakeJoiners _ c) (fun k hk => ?_) rfl rfl rfl
    simp only [goto, wakeJoiners] at hk
    split_ifs at hk <;> exact .inl hk
  | joinScan x k found =>
    simp only [baseStep] at hs
    split at hs
    · cases hs; exact .move rfl rfl rfl rfl
    · split at hs
      · split_ifs at hs <;> cases hs <;> exact .move rfl rfl rfl rfl
      · cases hs; exact .move rfl rfl rfl rfl
  | joinLook x k =>
    cases hs
    unfold look
    split_ifs
    · exact .move rfl rfl rfl rfl
    · exact .write rfl rfl rfl rfl (by simp [Slot.freethread]) (.inl (.inl rfl))
    · exact .write rfl rfl rfl rfl (by simp [Slot.freethread]) (.inl (.inl rfl))
    · exact .move rfl rfl rfl rfl
  | sleep2 x k =>
    cases hs
    exact .write rfl rfl rfl rfl id (.inr ⟨⟨x, k, rfl⟩, rfl⟩)
  | exec0 =>
    obtain ⟨lock, -, rfl⟩ := of_acquire hs
    exact .wakes (wakes_execMark _ c) (fun k hk => .inr rfl) rfl rfl rfl
  | execScan k live =>
    simp only [baseStep] at hs
    split_ifs at hs <;> cases hs <;> exact .move rfl rfl rfl rfl

theorem base_goto (hb : ((s.goto c b).pc c).base = some b') : b' = b := by
  simp only [goto, update_self] at hb
  exact (some.inj hb).symm

theorem base_acquire {f : Sys → Sys} (hs : (s.acquire c l).map (fun s => (f s).goto c b) = some s')
    (hb : (s'.pc c).base = some b') : b' = b := by
  obtain ⟨lock, -, rfl⟩ := of_acquire hs
  exact base_goto hb

theorem base_release (hs : (s.release c l).map (fun s => s.goto c b) = some s')
    (hb : (s'.pc c).base = some b') : b' = b := by
  obtain ⟨lock, -, rfl⟩ := of_release hs
  exact base_goto hb

/-! ### The other steps -/

/-- The entry of a system call, interrupts and the scheduler. -/
structure Switch (s s' : Sys) (a : Act) : Prop where
  base : ∀ d b, (s'.pc d).base = some b → (s.pc d).base = some b ∨
    (∃ f, a = .call d f ∧ s.pc d = .here .user ∧ (s.callStep d f).pc d = .here b) ∨
      (s.my d).killed = true ∧ b = .kexit0 (-1)
  home : s'.home = s.home
  killed : ∀ j, (s'.slot j).killed = (s.slot j).killed
  gone : ∀ j, Gone (s.slot j).state → Gone (s'.slot j).state
  live : s'.live = s.live

/-- A thread that is in use changes its slot, and goes on where it was. -/
theorem Switch.write {sl : Slot} (hslot : s'.slot = update s.slot k sl)
    (hpc : s'.pc = update s.pc c p) (hbase : p.base = (s.pc c).base) (hhome : s'.home = s.home)
    (hlive : s'.live = s.live) (hkilled : sl.killed = (s.slot k).killed)
    (hgone : Gone (s.slot k).state → Gone sl.state) : Switch s s' a where
  base d b hb := by
    rw [hpc] at hb
    by_cases hd : d = c
    · subst hd
      rw [update_self, hbase] at hb
      exact .inl hb
    · rw [update_of_ne hd] at hb
      exact .inl hb
  home := hhome
  killed j := by
    rw [hslot]
    by_cases hj : j = k
    · rw [hj, update_self, hkilled]
    · rw [update_of_ne hj]
  gone j hj := by
    rw [hslot]
    by_cases hjk : j = k
    · subst hjk
      rw [update_self]
      exact hgone hj
    · rwa [update_of_ne hjk]
  live := hlive

theorem Switch.move (hslot : s'.slot = s.slot) (hpc : s'.pc = update s.pc c p)
    (hhome : s'.home = s.home) (hlive : s'.live = s.live)
    (hbase : ∀ b, p.base = some b → (s.pc c).base = some b ∨
      (∃ f, a = .call c f ∧ s.pc c = .here .user ∧ (s.callStep c f).pc c = .here b) ∨
        (s.my c).killed = true ∧ b = .kexit0 (-1)) : Switch s s' a where
  base d b hb := by
    rw [hpc] at hb
    by_cases hd : d = c
    · subst hd
      rw [update_self] at hb
      exact hbase b hb
    · rw [update_of_ne hd] at hb
      exact .inl hb
  home := hhome
  killed j := by rw [hslot]
  gone j hj := by rwa [hslot]
  live := hlive

theorem switch_callStep (hpc : s.pc c = .here .user) (f : Call) :
    Switch s (s.callStep c f) (.call c f) := by
  have hpos : ∃ b, (s.callStep c f).slot = s.slot ∧
      (s.callStep c f).pc = update s.pc c (.here b) ∧
      (s.callStep c f).home = s.home ∧ (s.callStep c f).live = s.live := by
    unfold callStep
    split_ifs
    · exact ⟨_, rfl, rfl, rfl, rfl⟩
    · cases f with
      | join x =>
        simp only
        split_ifs <;> exact ⟨_, rfl, rfl, rfl, rfl⟩
      | _ => exact ⟨_, rfl, rfl, rfl, rfl⟩
  obtain ⟨b, hslot, hpc', hhome, hlive⟩ := hpos
  refine .move hslot hpc' hhome hlive fun b' hb' => .inr (.inl ⟨f, rfl, hpc, ?_⟩)
  have hb : b = b' := some.inj hb'
  rw [hpc', update_self, hb]

theorem switch_timerStep (hs : s.timerStep c = some s') : Switch s s' (.timer c) := by
  unfold timerStep at hs
  split at hs
  · rename_i hpc
    cases hs
    split_ifs with hk
    · exact .move rfl rfl rfl rfl fun b hb => .inr (.inr ⟨hk, (some.inj hb).symm⟩)
    · exact .move rfl rfl rfl rfl fun b hb => .inl (by rw [hpc]; exact hb)
  · rename_i b' hpc
    split_ifs at hs
    cases hs
    exact .move rfl rfl rfl rfl fun b hb => .inl (by rw [hpc]; exact hb)
  · cases hs

theorem switch_backStep {w : Wait} (hpc : s.pc c = .back w) (hdead : w ≠ .dead)
    (hs : s.backStep c w = some s') : Switch s s' a := by
  cases w with
  | start | yielded b' =>
    obtain ⟨lock, -, rfl⟩ := of_release hs
    exact .move rfl rfl rfl rfl fun b hb => .inl (by rw [hpc]; exact hb)
  | slept x =>
    obtain ⟨lock, -, rfl⟩ := of_release hs
    exact .write rfl rfl (by rw [hpc]; rfl) rfl rfl rfl id
  | dead => exact absurd rfl hdead

theorem switch_runStep (hs : s.runStep k = some s') : Switch s s' (.run k) := by
  unfold runStep at hs
  split_ifs at hs with hrun
  split at hs
  · rename_i w hpc
    obtain ⟨lock, -, rfl⟩ := of_acquire hs
    exact .write rfl rfl (by rw [hpc]; rfl) rfl rfl rfl (by simp [hrun, Gone])
  · cases hs

section

variable (h : s.Inv) (hs : s.step a = some s')

include h hs

/-- **What a step can do.** It is a step of a thread at some position, or it leaves every thread
where it goes on, enters a system call, or enters `kthread_exit` because the thread is killed. -/
theorem step_cases :
    (∃ c ok b, a = .go c ok ∧ s.pc c = .here b ∧ s.baseStep c ok b = some s') ∨ Switch s s' a := by
  unfold step at hs
  split_ifs at hs
  cases a with
  | call c f =>
    simp only at hs
    split_ifs at hs with hpc
    cases hs
    exact .inr (switch_callStep hpc f)
  | go c ok =>
    simp only [goStep] at hs
    split at hs
    · rename_i b hpc
      exact .inl ⟨c, ok, b, rfl, hpc, hs⟩
    · rename_i b hpc
      obtain ⟨lock, -, rfl⟩ := of_acquire hs
      have hrun : (s.slot (s.home c)).state = .running := (h.owns_at hpc (by simp)).2.2.2
      exact .inr (.write rfl rfl (by rw [hpc]; rfl) rfl rfl rfl (by simp [hrun, Gone]))
    · rename_i w hpc
      have hall := (h.owns_at hpc (by simp)).2.2
      split_ifs at hs with hrun
      · rw [hrun] at hall
        cases w <;> simp [Pc.Allows] at hall
      · obtain ⟨lock, -, rfl⟩ := of_release hs
        exact .inr (.write rfl rfl (by rw [hpc]; rfl) rfl rfl rfl id)
    · rename_i w hpc
      refine .inr (switch_backStep hpc ?_ hs)
      rintro rfl
      exact (h.owns_at hpc (by simp)).2.2
    · cases hs
  | timer c => exact .inr (switch_timerStep hs)
  | run k => exact .inr (switch_runStep hs)
  | tid =>
    cases hs
    exact .inr ⟨fun _ _ hb => .inl hb, rfl, fun _ => rfl, fun _ hj => hj, rfl⟩

/-- A slot comes into use only in `kthread_create`. -/
theorem step_gone (hj : Gone (s.slot j).state) :
    Gone (s'.slot j).state ∨
      ∃ c, a = .go c true ∧ s.pc c = .here .create0 ∧ s.freeSlot = some j := by
  rcases step_cases h hs with ⟨c, ok, b, rfl, hpc, hb⟩ | hsw
  · rcases (baseStep_effect hb).gone j hj with hg | ⟨rfl, rfl, hfree⟩ | ⟨⟨x, k, rfl⟩, rfl⟩
    · exact .inl hg
    · exact .inr ⟨c, rfl, hpc, hfree⟩
    · have hrun : (s.slot (s.home c)).state = .running := (h.owns_at hpc (by simp)).2.2
      rw [hrun] at hj
      simp [Gone] at hj
  · exact .inl (hsw.gone j hj)

theorem step_home (hd : s.pc d ≠ .absent) : s'.home d = s.home d := by
  rcases step_cases h hs with ⟨c, ok, b, rfl, hpc, hb⟩ | hsw
  · refine (baseStep_effect hb).home d ?_
    have := (h.born d hd).2
    omega
  · rw [hsw.home]

/-- The process is freed only in `kthread_create`. -/
theorem step_live (hlive : s.live = true) :
    s'.live = true ∨
      ∃ c ok, a = .go c ok ∧ s.pc c = .here .create0 ∧ s'.pc c = .here .create1 := by
  rcases step_cases h hs with ⟨c, ok, b, rfl, hpc, hb⟩ | hsw
  · rcases (baseStep_effect hb).live with hl | ⟨rfl, hpc'⟩
    · exact .inl (hl.trans hlive)
    · exact .inr ⟨c, ok, rfl, hpc, hpc'⟩
  · exact .inl (hsw.live.trans hlive)

/-- **How a position changes.** -/
theorem step_base (hb : (s'.pc d).base = some b') :
    (s.pc d).base = some b' ∨ b' = .user ∨
      (∃ f, a = .call d f ∧ s.pc d = .here .user ∧ (s.callStep d f).pc d = .here b') ∨
      ((s.my d).killed = true ∧ b' = .kexit0 (-1)) ∨
      ∃ ok b, a = .go d ok ∧ s.pc d = .here b ∧ s.baseStep d ok b = some s' := by
  rcases step_cases h hs with ⟨c, ok, b, rfl, hpc, hstep⟩ | hsw
  · by_cases hd : d = c
    · subst hd
      exact .inr (.inr (.inr (.inr ⟨ok, b, rfl, hpc, hstep⟩)))
    · rcases (baseStep_effect hstep).others d hd with hpc' | ⟨-, hpc'⟩
      · rw [hpc'] at hb
        exact .inl hb
      · rw [hpc'] at hb
        exact .inr (.inl (some.inj hb).symm)
  · rcases hsw.base d b' hb with hb | hcall | hkilled
    · exact .inl hb
    · exact .inr (.inr (.inl hcall))
    · exact .inr (.inr (.inr (.inl hkilled)))

end

end Sys

end Xv6.Kthread
