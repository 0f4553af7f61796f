import Xv6.Kthread.Invariant

/-!
# What the steps of a thread change

Most steps change nothing but the position of the thread that takes them and its own slot
(`Inv.own`, and `Inv.move` where the slot stays).  The others wake joiners, mark the other threads
in `exec`, create a thread, or reap one.  Each kind keeps the invariant.
-/

namespace Xv6.Kthread

open Function List Base Option

/-! ### Knowledge that survives -/

variable {s s' : Sys}

theorem Base.Knows.mono {c : ℤ} {b : Base} (h : b.Knows s c)
    (hwatch : ∀ a k, a.id ≠ 0 → s.Watch a k → s'.Watch a k)
    (hid : ∀ (a : Join) k, a.id ≠ 0 → (s.slot k).id = a.id → (s'.slot k).id = a.id)
    (hev : ∀ e ∈ s.events, e ∈ s'.events) (halone : s.Alone c → s'.Alone c) : b.Knows s' c := by
  cases b with
  | joinScan a k found =>
    cases found with
    | none => exact h
    | some k' => exact ⟨h.1, hwatch a k' h.1.1 h.2⟩
  | joinAt a k | joinLook a k => exact ⟨h.1, hid a k h.1.1 h.2⟩
  | joinNext a k | joinSleep a k | sleep1 a k | sleep2 a k => exact ⟨h.1, hwatch a k h.1.1 h.2⟩
  | kexit1 last status => exact ⟨hev _ h.1, fun hl => halone (h.2 hl)⟩
  | exiting status => exact ⟨hev _ h.1, halone h.2⟩
  | _ => exact h

theorem Pc.Knows.mono {c : ℤ} {p : Pc} (h : p.Knows s c)
    (hwatch : ∀ a k, a.id ≠ 0 → s.Watch a k → s'.Watch a k)
    (hid : ∀ (a : Join) k, a.id ≠ 0 → (s.slot k).id = a.id → (s'.slot k).id = a.id)
    (hev : ∀ e ∈ s.events, e ∈ s'.events) (halone : s.Alone c → s'.Alone c)
    (hmy : (s'.my c).state = .sleeping →
      (s.my c).state = .sleeping ∧ (s'.my c).chan = (s.my c).chan) : p.Knows s' c := by
  have hslept : ∀ a : Join,
      a.Other c ∧ ((s.my c).state = .sleeping → ∃ k, (s.my c).chan = some k ∧ s.Watch a k) →
      a.Other c ∧ ((s'.my c).state = .sleeping → ∃ k, (s'.my c).chan = some k ∧ s'.Watch a k) := by
    rintro a ⟨ha, hk⟩
    refine ⟨ha, fun hst => ?_⟩
    obtain ⟨hst, hchan⟩ := hmy hst
    obtain ⟨k, hk, hw⟩ := hk hst
    exact ⟨k, hchan.trans hk, hwatch a k ha.1 hw⟩
  cases p with
  | absent => trivial
  | here b | yield0 b => exact Base.Knows.mono h hwatch hid hev halone
  | sched w | out w =>
    cases w with
    | slept a => exact hslept a h
    | yielded b => exact Base.Knows.mono h hwatch hid hev halone
    | _ => trivial
  | back w =>
    cases w with
    | slept a => exact h
    | yielded b => exact Base.Knows.mono h hwatch hid hev halone
    | _ => trivial

/-- A base without locks knows only that it joins another thread, or that it is alone. -/
theorem Base.Knows.mono_open {c : ℤ} {b : Base} (h : b.Knows s c) (hb : b.locks = [])
    (hev : ∀ e ∈ s.events, e ∈ s'.events) (halone : s.Alone c → s'.Alone c) : b.Knows s' c := by
  cases b with
  | join0 a => exact h
  | exiting status => exact ⟨hev _ h.1, halone h.2⟩
  | user | busy | ret | create0 | kexit0 status | kexit2 | kexit6 | exec0 | execScan k live
  | execBody => trivial
  | _ => simp [locks] at hb

/-- The same for a thread that holds no lock while another one changes what is watched. -/
theorem Pc.Knows.mono_open {c : ℤ} {p : Pc} {st : ProcState} (h : p.Knows s c)
    (hp : p.locks = []) (hst : p.Allows st)
    (hev : ∀ e ∈ s.events, e ∈ s'.events) (halone : s.Alone c → s'.Alone c)
    (hmy : (s'.my c).state = .sleeping →
      (s.my c).state = .sleeping ∧ (s'.my c).chan = (s.my c).chan ∧
        ∀ a k, a.id ≠ 0 → (s.my c).chan = some k → s.Watch a k → s'.Watch a k) :
    p.Knows s' c := by
  cases p with
  | absent => trivial
  | here b => exact Base.Knows.mono_open h hp hev halone
  | yield0 b => exact Base.Knows.mono_open h hst.1.1 hev halone
  | sched w | back w => simp [Pc.locks] at hp
  | out w =>
    cases w with
    | slept a =>
      refine ⟨h.1, fun hsl => ?_⟩
      obtain ⟨hsl, hchan, hwatch⟩ := hmy hsl
      obtain ⟨k, hk, hw⟩ := h.2 hsl
      exact ⟨k, hchan.trans hk, hwatch a k h.1.1 hk hw⟩
    | yielded b => exact Base.Knows.mono_open h hst.1.1 hev halone
    | _ => trivial

namespace Sys

variable {s s' : Sys} {c d : ℤ} {p : Pc}

/-! ### Threads and their slots -/

theorem Inv.owns (h : s.Inv) (hc : s.pc c ≠ .absent) (hd : s.pc c ≠ .out .dead) :
    s.Owns c ∧ (s.pc c).Allows (s.my c).state :=
  (h.owner c hc).resolve_right fun hr => hd hr.1

theorem Inv.owns_at {p : Pc} (h : s.Inv) (hpc : s.pc c = p) (hp : p ≠ .absent ∧ p ≠ .out .dead) :
    s.pc c ≠ .absent ∧ s.Owns c ∧ p.Allows (s.my c).state := by
  subst hpc
  exact ⟨hp.1, h.owns hp.1 hp.2⟩

variable {k : ThreadId}

/-- A slot in use belongs to the thread with its id. -/
theorem Inv.holder (h : s.Inv) (hk : (s.slot k).state ≠ .unused) :
    s.pc (s.slot k).id ≠ .absent ∧ s.home (s.slot k).id = k ∧ s.Owns (s.slot k).id ∧
      (s.pc (s.slot k).id).Allows (s.slot k).state := by
  obtain ⟨-, hpc, hhome⟩ := (h.slots k).resolve_left fun hu => hk hu.1
  have howns : s.Owns (s.slot k).id := by rw [Owns, my, hhome]
  have hall := ((h.owner _ hpc).resolve_right fun hr => hr.2 howns).2
  rw [my, hhome] at hall
  exact ⟨hpc, hhome, howns, hall⟩

theorem Owns.home_inj (hc : s.Owns c) (hd : s.Owns d) (h : s.home c = s.home d) : c = d := by
  rw [Owns, my] at hc hd
  rw [← hc, ← hd, h]

theorem Locks.move (h : s.Locks) (hlock : s'.lock = s.lock)
    (hpc : s'.pc = update s.pc c p) (hp : p.locks = (s.pc c).locks) : s'.Locks := by
  unfold Locks at h ⊢
  rw [hlock, hpc]
  refine h.congr fun d l => ?_
  by_cases hd : d = c
  · subst hd; rw [update_self, hp]
  · rw [update_of_ne hd]

variable {l : Lk}

theorem Locks.acquire (h : s.Locks) (ha : Spinlock.acquire s.lock c l = some s'.lock)
    (hpc : s'.pc = update s.pc c p)
    (hp : ∀ l', l' ∈ p.locks ↔ l' = l ∨ l' ∈ (s.pc c).locks) : s'.Locks := by
  refine Spinlock.Consistent.acquire h ha (fun l' => ?_) fun d hd l' => ?_
  · rw [hpc, update_self, hp]
  · rw [hpc, update_of_ne hd]

theorem Locks.release (h : s.Locks) (hr : Spinlock.release s.lock c l = some s'.lock)
    (hpc : s'.pc = update s.pc c p)
    (hp : ∀ l', l' ∈ p.locks ↔ l' ≠ l ∧ l' ∈ (s.pc c).locks) : s'.Locks := by
  refine Spinlock.Consistent.release h hr (fun l' => ?_) fun d hd l' => ?_
  · rw [hpc, update_self, hp]
  · rw [hpc, update_of_ne hd]

theorem of_acquire {f : Sys → Sys} (hs : (s.acquire c l).map f = some s') :
    ∃ lock, Spinlock.acquire s.lock c l = some lock ∧ s' = f { s with lock := lock } := by
  obtain ⟨u, hu, rfl⟩ := map_eq_some_iff.1 hs
  obtain ⟨lock, hlock, hu⟩ := bind_eq_some_iff.1 hu
  cases hu
  exact ⟨lock, hlock, rfl⟩

theorem of_release {f : Sys → Sys} (hs : (s.release c l).map f = some s') :
    ∃ lock, Spinlock.release s.lock c l = some lock ∧ s' = f { s with lock := lock } := by
  obtain ⟨u, hu, rfl⟩ := map_eq_some_iff.1 hs
  obtain ⟨lock, hlock, hu⟩ := bind_eq_some_iff.1 hu
  cases hu
  exact ⟨lock, hlock, rfl⟩

theorem someone_of_not_left (hc : s.pc c ≠ .absent) (hp : ¬ (s.pc c).Left) : s.Someone :=
  .inl ⟨c, hc, hp⟩

/-- A thread moves that has left already and is not the last one. -/
theorem Someone.keep (h : s.Someone) (hpc : s'.pc = update s.pc c p) (hleft : (s.pc c).Left)
    (hlast : ∀ status, s.pc c ≠ .here (.kexit1 true status) ∧ s.pc c ≠ .here (.exiting status)) :
    s'.Someone := by
  rcases h with ⟨d, hd, hleft'⟩ | ⟨d, status, hd⟩
  · have hdc : d ≠ c := by
      rintro rfl
      exact hleft' hleft
    exact .inl ⟨d, by rwa [hpc, update_of_ne hdc], by rwa [hpc, update_of_ne hdc]⟩
  · have hdc : d ≠ c := by
      rintro rfl
      exact hd.elim (hlast status).1 (hlast status).2
    exact .inr ⟨d, status, by rwa [hpc, update_of_ne hdc]⟩

/-! ### Steps in the own slot -/

/-- The step of thread `c` to `p` that leaves `sl` in its slot. -/
structure OwnStep (s s' : Sys) (c : ℤ) (p : Pc) (sl : Slot) : Prop where
  slot : s'.slot = update s.slot (s.home c) sl
  pc : s'.pc = update s.pc c p
  home : s'.home = s.home
  nexttid : s'.nexttid = s.nexttid
  panic : s'.panic = s.panic

/-- What a step of thread `c` that leaves `sl` in its slot adds to the history. -/
def Adds (s s' : Sys) (c : ℤ) (sl : Slot) : Prop :=
  s'.events = s.events ∨ (∃ a, s'.events = .notJoined c a :: s.events) ∨
    ∃ status, s'.events = .exited c status :: s.events ∧ sl.state = .zombie ∧ ¬ (s.pc c).Left

theorem Adds.mono {sl : Slot} (h : Adds s s' c sl) {e : Event} (he : e ∈ s.events) :
    e ∈ s'.events := by
  rcases h with hev | ⟨a, hev⟩ | ⟨status, hev, -⟩
  · rwa [hev]
  · rw [hev]; exact mem_cons_of_mem _ he
  · rw [hev]; exact mem_cons_of_mem _ he

/-- A step of thread `c` to `p` after which the slots have the threads they had. -/
theorem Inv.keep (h : s.Inv) (hpc : s'.pc = update s.pc c p) (hhome : s'.home = s.home)
    (hnext : s'.nexttid = s.nexttid) (hpanic : s'.panic = s.panic)
    (hid : ∀ k, (s'.slot k).id = (s.slot k).id)
    (hunused : ∀ k, (s'.slot k).state = .unused ↔ (s.slot k).state = .unused)
    (hown : s.Owns c) (halive : s.pc c ≠ .absent) (hlocks : s'.Locks)
    (hallows : p.Allows (s'.my c).state) (hctx : ∀ w, p = .out w → (s'.my c).context = c)
    (hgone : Gone (s.my c).state → Gone (s'.my c).state)
    (hother : ∀ d, d ≠ c → s.Owns d → (s'.my d).context = (s.my d).context ∧
      ((s.pc d).Allows (s.my d).state → (s.pc d).Allows (s'.my d).state))
    (hevents : Adds s s' c (s'.my c))
    (hz : ∀ k, (s'.slot k).state = .zombie →
      .exited (s'.slot k).id (s'.slot k).xstate ∈ s'.events) (hme : p.Knows s' c)
    (hknows : ∀ d, d ≠ c → s.Owns d → (s.pc d).Allows (s.my d).state → (s.pc d).Knows s' d)
    (hsome : s'.Someone) : s'.Inv := by
  have hp : p ≠ .absent := by
    rintro rfl
    exact hallows
  have hleft : (s.pc c).Left → p.Left := by
    have hall := ((h.owner c halive).resolve_right fun hr => hr.2 hown).2
    intro hl
    exact hallows.gone_iff.1 (hgone (hall.gone_iff.2 hl))
  have hpcd : ∀ d, d ≠ c → s'.pc d = s.pc d := fun d hd => by
    rw [hpc, update_of_ne hd]
  have hpcc : s'.pc c = p := by rw [hpc, update_self]
  have howns : ∀ d, s'.Owns d ↔ s.Owns d := fun d => by
    rw [Owns, Owns, my, my, hhome, hid]
  have habs : ∀ d, s'.pc d ≠ .absent ↔ s.pc d ≠ .absent := by
    intro d
    by_cases hdc : d = c
    · subst hdc; rw [hpcc]; exact ⟨fun _ => halive, fun _ => hp⟩
    · rw [hpcd d hdc]
  refine
    { locks := hlocks
      born := fun d hd => ?_
      owner := fun d hd => ?_
      slots := fun k => ?_
      context := fun d w hd hod => ?_
      knows := fun d => ?_
      zombies := hz
      exits := fun d status he => ?_
      reaped := fun d a v hj => ?_
      valid := ?_
      someone := hsome
      noPanic := hpanic.trans h.noPanic }
  · rw [hnext]
    exact h.born d ((habs d).1 hd)
  · rw [howns]
    by_cases hdc : d = c
    · subst hdc
      rw [hpcc]
      exact .inl ⟨hown, hallows⟩
    · rw [hpcd d hdc] at hd ⊢
      exact (h.owner d hd).imp_left fun hod => ⟨hod.1, (hother d hdc hod.1).2 hod.2⟩
  · rw [hid, hunused, ne_eq, hunused, hhome, habs]
    exact h.slots k
  · rw [howns] at hod
    by_cases hdc : d = c
    · subst hdc
      rw [hpcc] at hd
      exact hctx w hd
    · rw [hpcd d hdc] at hd
      rw [(hother d hdc hod).1]
      exact h.context d w hd hod
  · by_cases hdc : d = c
    · subst hdc; rwa [hpcc]
    · rw [hpcd d hdc]
      by_cases habs : s.pc d = .absent
      · rw [habs]; trivial
      rcases h.owner d habs with hod | hdead
      · exact hknows d hdc hod.1 hod.2
      · rw [hdead.1]; trivial
  · by_cases hdc : d = c
    · subst hdc
      rw [hpcc]
      rcases hevents with he' | ⟨a, he'⟩ | ⟨st, -, hz, -⟩
      · rw [he'] at he
        exact hleft (h.exits d status he)
      · rw [he', mem_cons] at he
        exact hleft (h.exits d status (he.resolve_left (by simp)))
      · exact hallows.gone_iff.1 (.inr hz)
    · rw [hpcd d hdc]
      refine h.exits d status ?_
      rcases hevents with he' | ⟨a, he'⟩ | ⟨st, he', -⟩
      · rwa [he'] at he
      · rw [he', mem_cons] at he
        exact he.resolve_left (by simp)
      · rw [he', mem_cons] at he
        exact he.resolve_left (by simp [hdc])
  · have hj' : .joined d a v ∈ s.events := by
      rcases hevents with he' | ⟨b, he'⟩ | ⟨st, he', -⟩
      · rwa [he'] at hj
      · rw [he', mem_cons] at hj
        exact hj.resolve_left (by simp)
      · rw [he', mem_cons] at hj
        exact hj.resolve_left (by simp)
    obtain ⟨hdead, hno⟩ := h.reaped d a v hj'
    have hac : a.id ≠ c := by
      intro hac
      rw [hac] at hno
      exact hno hown
    exact ⟨by rw [hpcd _ hac]; exact hdead, by rwa [howns]⟩
  · rcases hevents with he' | ⟨b, he'⟩ | ⟨st, he', -, hl⟩
    · rw [he']; exact h.valid
    · rw [he']; exact ⟨trivial, h.valid⟩
    · rw [he']
      exact ⟨fun status he => hl (h.exits c status he), h.valid⟩

theorem Inv.own (h : s.Inv) (sl : Slot) (hs : OwnStep s s' c p sl) (hown : s.Owns c)
    (halive : s.pc c ≠ .absent) (hlocks : s'.Locks) (hid : sl.id = c)
    (hallows : p.Allows sl.state) (hctx : ∀ w, p = .out w → sl.context = c)
    (hgone : Gone (s.my c).state → Gone sl.state) (hpast : p.Past → (s.pc c).Past)
    (hevents : Adds s s' c sl) (hz : sl.state = .zombie → .exited c sl.xstate ∈ s'.events)
    (hknows : p.Knows s' c) (hsome : s'.Someone) : s'.Inv := by
  have hslotc : s'.slot (s.home c) = sl := by rw [hs.slot, update_self]
  have hslotk : ∀ k, k ≠ s.home c → s'.slot k = s.slot k := fun k hk => by
    rw [hs.slot, update_of_ne hk]
  have hmyc : s'.my c = sl := by rw [my, hs.home, hslotc]
  have hmyown : ∀ d, d ≠ c → s.Owns d → s'.my d = s.my d := fun d hd hod => by
    rw [my, my, hs.home, hslotk _ fun heq => hd (hod.home_inj hown heq)]
  have hslotid : ∀ k, (s'.slot k).id = (s.slot k).id := by
    intro k
    by_cases hk : k = s.home c
    · subst hk; rw [hslotc, hid]; exact hown.symm
    · rw [hslotk k hk]
  rw [← hmyc] at hallows hctx hgone hevents
  refine h.keep hs.pc hs.home hs.nexttid hs.panic hslotid (fun k => ?_) hown halive hlocks hallows
    hctx hgone (fun d hd hod => ?_) hevents (fun k hk => ?_) hknows (fun d hd hod _ => ?_) hsome
  · by_cases hk : k = s.home c
    · subst hk
      have hall := ((h.owner c halive).resolve_right fun hr => hr.2 hown).2
      rw [hslotc, ← hmyc]
      exact iff_of_false hallows.ne_unused hall.ne_unused
    · rw [hslotk k hk]
  · rw [hmyown d hd hod]
    exact ⟨rfl, id⟩
  · by_cases hkc : k = s.home c
    · subst hkc
      rw [hslotc] at hk ⊢
      rw [hid]
      exact hz hk
    · rw [hslotk k hkc] at hk ⊢
      exact hevents.mono (h.zombies k hk)
  · refine (h.knows d).mono (fun a k _ hw => ⟨?_, ?_⟩) (fun a k _ hk => ?_)
      (fun e he => hevents.mono he) (fun halone k hk => ?_) ?_
    · rw [hslotid]; exact hw.1
    · rw [hs.pc]
      by_cases hac : a.id = c
      · rw [hac, update_self]
        exact fun hp => hw.2 (by rw [hac]; exact hpast hp)
      · rw [update_of_ne hac]; exact hw.2
    · rw [hslotid]; exact hk
    · rw [hs.home] at hk
      by_cases hkc : k = s.home c
      · subst hkc; rw [hslotc, ← hmyc]; exact hgone (halone _ hk)
      · rw [hslotk k hkc]; exact halone k hk
    · rw [hmyown d hd hod]
      exact fun hst => ⟨hst, rfl⟩

/-! ### Steps that wake threads -/

/-- The slot stays as it is, except that a sleeping thread may be woken or marked as killed. -/
structure Wakes (sl sl' : Slot) : Prop where
  id : sl'.id = sl.id
  xstate : sl'.xstate = sl.xstate
  context : sl'.context = sl.context
  chan : sl'.chan = sl.chan
  state : sl'.state = sl.state ∨ sl.state = .sleeping ∧ sl'.state = .runnable

namespace Wakes

variable {sl sl' : Slot}

theorem unused (h : Wakes sl sl') : sl'.state = .unused ↔ sl.state = .unused := by
  rcases h.state with hst | ⟨hs, hr⟩
  · rw [hst]
  · simp [hs, hr]

theorem zombie (h : Wakes sl sl') : sl'.state = .zombie ↔ sl.state = .zombie := by
  rcases h.state with hst | ⟨hs, hr⟩
  · rw [hst]
  · simp [hs, hr]

theorem gone (h : Wakes sl sl') : Gone sl'.state ↔ Gone sl.state := or_congr h.unused h.zombie

theorem of_sleeping (h : Wakes sl sl') (hs : sl'.state = .sleeping) : sl.state = .sleeping := by
  rcases h.state with hst | ⟨hs', hr⟩
  · rwa [hst] at hs
  · exact hs'

/-- A thread without `p->lock` may be woken. -/
theorem allows (h : Wakes sl sl') {p : Pc} (hp : .proc ∉ p.locks) (ha : p.Allows sl.state) :
    p.Allows sl'.state := by
  rcases h.state with hst | ⟨hs, hr⟩
  · rwa [hst]
  · rw [hs] at ha
    rw [hr]
    cases p with
    | absent => exact ha
    | here b =>
      simp only [Pc.Allows] at ha
      split_ifs at ha
    | yield0 b => cases ha.2
    | sched w | back w => simp [Pc.locks] at hp
    | out w =>
      cases w with
      | slept a => exact .inr rfl
      | _ => simp [Pc.Allows] at ha

end Wakes

theorem Inv.wakes (h : s.Inv) (hslot : ∀ k, Wakes (s.slot k) (s'.slot k))
    (hpc : s'.pc = update s.pc c p) (hhome : s'.home = s.home)
    (hnext : s'.nexttid = s.nexttid) (hpanic : s'.panic = s.panic)
    (hevents : s'.events = s.events) (hown : s.Owns c) (halive : s.pc c ≠ .absent)
    (hfree : ∀ d, .proc ∉ (s.pc d).locks) (hlocks : s'.Locks)
    (hallows : p.Allows (s'.my c).state) (hout : ∀ w, p ≠ .out w) (hme : p.Knows s' c)
    (hknows : ∀ d, d ≠ c → s.Owns d → (s.pc d).Allows (s.my d).state → (s.pc d).Knows s' d)
    (hsome : s'.Someone) : s'.Inv := by
  have hmy : ∀ d, Wakes (s.my d) (s'.my d) := fun d => by
    rw [my, my, hhome]; exact hslot _
  refine h.keep hpc hhome hnext hpanic (fun k => (hslot k).id) (fun k => (hslot k).unused) hown
    halive hlocks hallows (fun w hw => absurd hw (hout w)) (hmy c).gone.2
    (fun d _ _ => ⟨(hmy d).context, (hmy d).allows (hfree d)⟩) (.inl hevents) (fun k hk => ?_)
    hme hknows hsome
  rw [(hslot k).zombie] at hk
  rw [(hslot k).id, (hslot k).xstate, hevents]
  exact h.zombies k hk

theorem wakes_wakeJoiners (s : Sys) (c : ℤ) (k : ThreadId) :
    Wakes (s.slot k) ((s.wakeJoiners c).slot k) := by
  simp only [wakeJoiners]
  split_ifs with hk
  · exact ⟨rfl, rfl, rfl, rfl, .inr ⟨hk.2.1, rfl⟩⟩
  · exact ⟨rfl, rfl, rfl, rfl, .inl rfl⟩

theorem wakes_execMark (s : Sys) (c : ℤ) (k : ThreadId) :
    Wakes (s.slot k) ((s.execMark c).slot k) := by
  simp only [execMark]
  split_ifs with hk hsl
  · exact ⟨rfl, rfl, rfl, rfl, .inr ⟨hsl, rfl⟩⟩
  · exact ⟨rfl, rfl, rfl, rfl, .inl rfl⟩
  · exact ⟨rfl, rfl, rfl, rfl, .inl rfl⟩

variable {lock : Lk → Option ℤ}

/-- `wakeup` in `kthread_exit`: afterwards no joiner sleeps on the slot. -/
theorem inv_wakeJoiners (h : s.Inv) (hpc : s.pc c = .here .kexit3)
    (hl : Spinlock.acquire s.lock c .proc = some lock) :
    ((({ s with lock := lock }).wakeJoiners c).goto c .kexit4).Inv := by
  obtain ⟨halive, hown, (hst : (s.my c).state = .zombie)⟩ := h.owns_at hpc (by simp)
  have hfree : ∀ d, .proc ∉ (s.pc d).locks := h.locks.free hl
  refine h.wakes (c := c) (p := .here .kexit4) (fun k => ?_) rfl rfl rfl rfl rfl hown halive
    hfree ?_ ?_ (by simp) trivial (fun d hdc hod hd => ?_) ?_
  · exact wakes_wakeJoiners _ c k
  · exact h.locks.acquire hl rfl (by simp [hpc, Pc.locks, locks])
  · show _ = _
    simp [my, goto, wakeJoiners, left]
    exact hst
  · -- the thread holds `wait_lock` and `p->lock`, so `d` has neither
    have hunlocked : (s.pc d).locks = [] := by
      rw [eq_nil_iff_forall_not_mem]
      intro l hmem
      cases l with
      | proc => exact hfree d hmem
      | wait => exact hdc (h.locks.exclusive hmem (by simp [hpc, Pc.locks, locks]))
    refine (h.knows d).mono_open hunlocked hd (fun e he => he) (fun halone k hk => ?_) ?_
    · exact (wakes_wakeJoiners s c k).gone.2 (halone k hk)
    · intro hsl
      have hwk := wakes_wakeJoiners s c (s.home d)
      have hsl' := hwk.of_sleeping hsl
      refine ⟨hsl', hwk.chan, fun a k _ hchan hw => ⟨?_, ?_⟩⟩
      · exact (wakes_wakeJoiners s c k).id.trans hw.1
      · have hac : a.id ≠ c := by
          intro hac
          -- then `d` sleeps on the slot of `c` and is woken
          have hk : k = s.home c := by
            have hkc : (s.slot k).id = c := hw.1.trans hac
            have hne : (s.slot k).state ≠ .unused := by
              intro hun
              rcases h.slots k with hu | hu
              · have := (h.born c halive).1
                rw [hkc] at hu
                omega
              · exact hu.1 hun
            have := (h.holder hne).2.1
            rw [hkc] at this
            exact this.symm
          have hhome : s.home d ≠ s.home c := fun heq => hdc (hod.home_inj hown heq)
          subst hk
          have hwoken : ((s.wakeJoiners c).slot (s.home d)).state = .runnable := by
            simp only [wakeJoiners]
            rw [if_pos ⟨hhome, hsl', hchan⟩]
          exact absurd (hsl.symm.trans hwoken) (by simp)
        simpa [goto, wakeJoiners, update_of_ne hac] using hw.2
  · refine h.someone.keep (c := c) (p := .here .kexit4) rfl ?_ (by simp [hpc])
    rw [hpc]
    rfl

/-- `exec` marks the other threads. -/
theorem inv_execMark (h : s.Inv) (hpc : s.pc c = .here .exec0)
    (hl : Spinlock.acquire s.lock c .proc = some lock) :
    ((({ s with lock := lock }).execMark c).goto c .exec1).Inv := by
  obtain ⟨halive, hown, (hst : (s.my c).state = .running)⟩ := h.owns_at hpc (by simp)
  have hfree : ∀ d, .proc ∉ (s.pc d).locks := h.locks.free hl
  refine h.wakes (c := c) (p := .here .exec1) (fun k => ?_) rfl rfl rfl rfl rfl hown halive
    hfree ?_ ?_ (by simp) trivial (fun d _ _ _ => ?_) ?_
  · exact wakes_execMark _ c k
  · exact h.locks.acquire hl rfl (by simp [hpc, Pc.locks, locks])
  · show _ = _
    simp [my, goto, execMark, left]
    exact hst
  · refine (h.knows d).mono (fun a k _ hw => ⟨?_, ?_⟩) (fun a k _ hk => ?_) (fun e he => he)
      (fun halone k hk => ?_) fun hsl => ?_
    · exact (wakes_execMark s c k).id.trans hw.1
    · by_cases hac : a.id = c
      · simp [goto, execMark, hac, Pc.Past]
      · simpa [goto, execMark, update_of_ne hac] using hw.2
    · exact (wakes_execMark s c k).id.trans hk
    · exact (wakes_execMark s c k).gone.2 (halone k hk)
    · have hwk := wakes_execMark s c (s.home d)
      exact ⟨hwk.of_sleeping hsl, hwk.chan⟩
  · exact someone_of_not_left (c := c) (by simp [goto]) (by simp [goto, Pc.Left, left])

/-! ### Creating and reaping -/

/-- `kthread_create` puts a new thread into a free slot. -/
theorem inv_newThread (h : s.Inv) (hpc : s.pc c = .here .create0)
    (hl : Spinlock.acquire s.lock c .proc = some lock) (hk : (s.slot k).state = .unused) :
    ((({ s with lock := lock }).newThread k).goto c .create1).Inv := by
  obtain ⟨halive, hown, (hst : (s.my c).state = .running)⟩ := h.owns_at hpc (by simp)
  obtain ⟨hpos, hlt⟩ := h.born c halive
  have hid : (s.slot k).id = 0 := ((h.slots k).resolve_right fun hu => hu.1 hk).2
  have hnew : s.pc s.nexttid = .absent := by
    by_contra hne
    have := (h.born _ hne).2
    omega
  have hcn : c ≠ s.nexttid := by omega
  have hck : s.home c ≠ k := by
    rintro rfl
    rw [my, hk] at hst
    cases hst
  set s' := (({ s with lock := lock }).newThread k).goto c .create1 with hs'
  have hpcc : s'.pc c = .here .create1 := by simp [hs', goto]
  have hpcn : s'.pc s.nexttid = .out .start := by
    simp [hs', goto, newThread, update_of_ne hcn.symm]
  have hpcd : ∀ d, d ≠ c → d ≠ s.nexttid → s'.pc d = s.pc d := fun d hd hn => by
    simp [hs', goto, newThread, update_of_ne hd, update_of_ne hn]
  have hhomen : s'.home s.nexttid = k := by simp [hs', goto, newThread]
  have hhomed : ∀ d, d ≠ s.nexttid → s'.home d = s.home d := fun d hd => by
    simp [hs', goto, newThread, update_of_ne hd]
  have hslotk : s'.slot k =
      { s.slot k with id := s.nexttid, state := .runnable, context := s.nexttid } := by
    simp [hs', goto, newThread]
  have hslotj : ∀ j, j ≠ k → s'.slot j = s.slot j := fun j hj => by
    simp [hs', goto, newThread, update_of_ne hj]
  -- a thread that was there keeps its slot
  have hmyd : ∀ d, d ≠ s.nexttid → s.Owns d → 0 < d → s'.my d = s.my d := by
    intro d hd hod hpos
    rw [my, hhomed d hd, hslotj _ ?_, my]
    rintro hdk
    rw [Owns, my, hdk, hid] at hod
    omega
  have hlate : ∀ d, s.pc d ≠ .absent → d ≠ s.nexttid := by
    rintro d hd rfl
    exact hd hnew
  have hnotOwns : ∀ d, s.pc d ≠ .absent → ¬ s.Owns d → ¬ s'.Owns d := by
    intro d hd hno hod
    rw [Owns, my, hhomed d (hlate d hd)] at hod
    by_cases hdk : s.home d = k
    · rw [hdk, hslotk] at hod
      exact hlate d hd hod.symm
    · rw [hslotj _ hdk] at hod
      exact hno hod
  refine
    { locks := ?_
      born := fun d hd => ?_
      owner := fun d hd => ?_
      slots := fun j => ?_
      context := fun d w hd hod => ?_
      knows := fun d => ?_
      zombies := fun j hj => ?_
      exits := fun d status he => ?_
      reaped := fun d a v hj => ?_
      valid := h.valid
      someone := ?_
      noPanic := h.noPanic }
  · have hlocks : (({ s with lock := lock }).goto c .create1).Locks :=
      h.locks.acquire hl rfl (by simp [hpc, Pc.locks, locks])
    refine hlocks.congr fun d l => ?_
    by_cases hdn : d = s.nexttid
    · subst hdn
      rw [hpcn]
      simp [goto, update_of_ne hcn.symm, hnew, Pc.locks]
    · by_cases hdc : d = c
      · subst hdc; rw [hpcc]; simp [goto]
      · rw [hpcd d hdc hdn]; simp [goto, update_of_ne hdc]
  · have hnext : s'.nexttid = s.nexttid + 1 := rfl
    rw [hnext]
    by_cases hdn : d = s.nexttid
    · omega
    · by_cases hdc : d = c
      · omega
      · rw [hpcd d hdc hdn] at hd
        have := h.born d hd
        omega
  · by_cases hdn : d = s.nexttid
    · subst hdn
      refine .inl ⟨?_, ?_⟩
      · rw [Owns, my, hhomen, hslotk]
      · rw [hpcn, my, hhomen, hslotk]
        rfl
    · by_cases hdc : d = c
      · subst hdc
        have hmy := hmyd d hcn hown hpos
        refine .inl ⟨by rw [Owns, hmy]; exact hown, ?_⟩
        rw [hpcc, hmy]
        exact hst
      · rw [hpcd d hdc hdn] at hd ⊢
        rcases h.owner d hd with hod | hod
        · have hmy := hmyd d hdn hod.1 (h.born d hd).1
          exact .inl ⟨by rw [Owns, hmy]; exact hod.1, by rw [hmy]; exact hod.2⟩
        · exact .inr ⟨hod.1, hnotOwns d hd hod.2⟩
  · by_cases hjk : j = k
    · subst hjk
      rw [hslotk]
      refine .inr ⟨by simp, ?_, hhomen⟩
      simp only [hpcn]
      simp
    · rw [hslotj j hjk]
      refine (h.slots j).imp_right fun hj => ⟨hj.1, ?_, ?_⟩
      · have hjn := hlate _ hj.2.1
        by_cases hjc : (s.slot j).id = c
        · rw [hjc, hpcc]; simp
        · rw [hpcd _ hjc hjn]; exact hj.2.1
      · rw [hhomed _ (hlate _ hj.2.1)]
        exact hj.2.2
  · by_cases hdn : d = s.nexttid
    · subst hdn
      rw [my, hhomen, hslotk]
    · by_cases hdc : d = c
      · subst hdc
        rw [hpcc] at hd
        cases hd
      · rw [hpcd d hdc hdn] at hd
        have hda : s.pc d ≠ .absent := by simp [hd]
        have hod' : s.Owns d := by
          by_contra hno
          exact hnotOwns d hda hno hod
        rw [hmyd d hdn hod' (h.born d hda).1]
        exact h.context d w hd hod'
  · by_cases hdn : d = s.nexttid
    · subst hdn; rw [hpcn]; trivial
    by_cases hdc : d = c
    · subst hdc; rw [hpcc]; trivial
    rw [hpcd d hdc hdn]
    by_cases habs : s.pc d = .absent
    · rw [habs]; trivial
    rcases h.owner d habs with hod | hdead
    · have hmy := hmyd d hdn hod.1 (h.born d habs).1
      refine (h.knows d).mono (fun a j ha hw => ⟨?_, ?_⟩) (fun a j ha hj => ?_) (fun e he => he)
        (fun halone j hj => ?_) ?_
      · rw [hslotj j ?_]
        · exact hw.1
        · rintro rfl
          exact ha (hw.1.symm.trans hid)
      · by_cases han : a.id = s.nexttid
        · rw [han, hpcn]; simp [Pc.Past]
        · by_cases hac : a.id = c
          · rw [hac, hpcc]; simp [Pc.Past]
          · rw [hpcd _ hac han]; exact hw.2
      · rw [hslotj j ?_]
        · exact hj
        · rintro rfl
          exact ha (hj.symm.trans hid)
      · -- the creating thread is not gone
        have hgone := halone (s.home c) fun heq => hdc (hod.1.home_inj hown heq.symm)
        rw [← my, hst] at hgone
        simp [Gone] at hgone
      · rw [hmy]
        exact fun hsl => ⟨hsl, rfl⟩
    · rw [hdead.1]; trivial
  · have hjk : j ≠ k := by
      rintro rfl
      rw [hslotk] at hj
      cases hj
    rw [hslotj j hjk] at hj ⊢
    exact h.zombies j hj
  · have hleft := h.exits d status he
    have hdc : d ≠ c := by
      rintro rfl
      rw [hpc] at hleft
      cases hleft
    have hdn : d ≠ s.nexttid := by
      rintro rfl
      rw [hnew] at hleft
      exact hleft
    rwa [hpcd d hdc hdn]
  · obtain ⟨hdead, hno⟩ := h.reaped d a v hj
    have hida : s.pc a.id ≠ .absent := by simp [hdead]
    have hac : a.id ≠ c := by
      intro hac
      rw [hac] at hno
      exact hno hown
    exact ⟨by rw [hpcd _ hac (hlate _ hida)]; exact hdead, hnotOwns _ hida hno⟩
  · exact someone_of_not_left (c := c) (by rw [hpcc]; simp) (by rw [hpcc]; simp [Pc.Left, left])

/-- `kthread_join` reaps a thread that has switched away for the last time. -/
theorem inv_reap (h : s.Inv) {a : Join} (hpc : s.pc c = .here (.joinLook a k))
    (hz : (s.slot k).state = .zombie) (hdead : s.pc (s.slot k).id = .out .dead) {v : Option ℤ}
    (hv : v = if a.addr then some (s.slot k).xstate else none) :
    (((s.setSlot k (s.slot k).freethread).record (.joined c a v)).goto c .joinDone).Inv := by
  obtain ⟨halive, hown, (hst : (s.my c).state = .running)⟩ := h.owns_at hpc (by simp)
  obtain ⟨hother, hka⟩ : a.Other c ∧ (s.slot k).id = a.id := by
    have := h.knows c
    rwa [hpc] at this
  obtain ⟨hea, hek, heo, -⟩ := h.holder (k := k) (by simp [hz])
  rw [hka] at hdead hea hek heo
  have hpose := (h.born _ hea).1
  set s' := ((s.setSlot k (s.slot k).freethread).record (.joined c a v)).goto c .joinDone with hs'
  have hpcc : s'.pc c = .here .joinDone := by simp [hs', goto]
  have hpcd : ∀ d, d ≠ c → s'.pc d = s.pc d := fun d hd => by
    simp [hs', goto, record, setSlot, update_of_ne hd]
  have hhome : s'.home = s.home := rfl
  have hev : s'.events = .joined c a v :: s.events := rfl
  have hslotk : s'.slot k = (s.slot k).freethread := by simp [hs', goto, record, setSlot]
  have hslotj : ∀ j, j ≠ k → s'.slot j = s.slot j := fun j hj => by
    simp [hs', goto, record, setSlot, update_of_ne hj]
  have hmyd : ∀ d, s.Owns d → d ≠ a.id → s'.my d = s.my d := by
    intro d hod hd
    rw [my, hhome, hslotj _ ?_, my]
    intro hdk
    exact hd (hod.home_inj heo (hdk.trans hek.symm))
  have hnot : ∀ d, 0 < d → (¬ s.Owns d ∨ d = a.id) → ¬ s'.Owns d := by
    intro d hpos hd hod
    rw [Owns, my, hhome] at hod
    by_cases hdk : s.home d = k
    · rw [hdk, hslotk] at hod
      simp only [Slot.freethread] at hod
      omega
    · rw [hslotj _ hdk] at hod
      rcases hd with hd | rfl
      · exact hd hod
      · exact hdk hek
  refine
    { locks := h.locks.move rfl rfl (by rw [hpc]; rfl)
      born := fun d hd => ?_
      owner := fun d hd => ?_
      slots := fun j => ?_
      context := fun d w hd hod => ?_
      knows := fun d => ?_
      zombies := fun j hj => ?_
      exits := fun d status he => ?_
      reaped := fun d b x hj => ?_
      valid := ?_
      someone := ?_
      noPanic := h.noPanic }
  · by_cases hdc : d = c
    · subst hdc; exact h.born d halive
    · rw [hpcd d hdc] at hd; exact h.born d hd
  · by_cases hdc : d = c
    · subst hdc
      have hmy := hmyd d hown hother.2.symm
      refine .inl ⟨by rw [Owns, hmy]; exact hown, ?_⟩
      rw [hpcc, hmy]
      exact hst
    · rw [hpcd d hdc] at hd ⊢
      by_cases hda : d = a.id
      · subst hda
        exact .inr ⟨hdead, hnot _ hpose (.inr rfl)⟩
      · rcases h.owner d hd with hod | hod
        · have hmy := hmyd d hod.1 hda
          exact .inl ⟨by rw [Owns, hmy]; exact hod.1, by rw [hmy]; exact hod.2⟩
        · exact .inr ⟨hod.1, hnot d (h.born d hd).1 (.inl hod.2)⟩
  · by_cases hjk : j = k
    · subst hjk
      rw [hslotk]
      exact .inl ⟨rfl, rfl⟩
    · rw [hslotj j hjk, hhome]
      refine (h.slots j).imp_right fun hj => ⟨hj.1, ?_, hj.2.2⟩
      by_cases hjc : (s.slot j).id = c
      · rw [hjc, hpcc]; simp
      · rw [hpcd _ hjc]; exact hj.2.1
  · have hdc : d ≠ c := by
      rintro rfl
      rw [hpcc] at hd
      cases hd
    rw [hpcd d hdc] at hd
    have hpos := (h.born d (by simp [hd])).1
    have hda : d ≠ a.id := fun hda => hnot d hpos (.inr hda) hod
    have hod' : s.Owns d := by
      by_contra hno
      exact hnot d hpos (.inl hno) hod
    rw [hmyd d hod' hda]
    exact h.context d w hd hod'
  · by_cases hdc : d = c
    · subst hdc; rw [hpcc]; trivial
    rw [hpcd d hdc]
    by_cases habs : s.pc d = .absent
    · rw [habs]; trivial
    by_cases hda : d = a.id
    · rw [hda, hdead]; trivial
    rcases h.owner d habs with hod | hod
    · -- the thread holds both locks, so `d` has neither
      have hunlocked : (s.pc d).locks = [] := by
        rw [eq_nil_iff_forall_not_mem]
        intro l hmem
        refine hdc (h.locks.exclusive hmem ?_)
        cases l <;> simp [hpc, Pc.locks, locks]
      have hmy := hmyd d hod.1 hda
      refine (h.knows d).mono_open hunlocked hod.2 (fun e he => ?_) (fun halone j hj => ?_) ?_
      · rw [hev]; exact mem_cons_of_mem _ he
      · by_cases hjk : j = k
        · subst hjk; rw [hslotk]; exact .inl rfl
        · rw [hslotj j hjk]; exact halone j hj
      · rw [hmy]
        refine fun hsl => ⟨hsl, rfl, fun b j hb _ hw => ?_⟩
        have hjk : j ≠ k := by
          rintro rfl
          refine hw.2 ?_
          rw [← hw.1, hka, hdead]
          rfl
        refine ⟨by rw [hslotj j hjk]; exact hw.1, ?_⟩
        by_cases hbc : b.id = c
        · rw [hbc, hpcc]; simp [Pc.Past]
        · rw [hpcd _ hbc]; exact hw.2
    · rw [hod.1]; trivial
  · have hjk : j ≠ k := by
      rintro rfl
      rw [hslotk] at hj
      cases hj
    rw [hslotj j hjk] at hj ⊢
    rw [hev]
    exact mem_cons_of_mem _ (h.zombies j hj)
  · rw [hev, mem_cons] at he
    have hleft := h.exits d status (he.resolve_left (by simp))
    have hdc : d ≠ c := by
      rintro rfl
      rw [hpc] at hleft
      cases hleft
    rwa [hpcd d hdc]
  · rw [hev, mem_cons] at hj
    rcases hj with hj | hj
    · cases hj
      exact ⟨by rw [hpcd _ hother.2]; exact hdead, hnot _ hpose (.inr rfl)⟩
    · obtain ⟨hd, hno⟩ := h.reaped d b x hj
      have hbc : b.id ≠ c := by
        intro hbc
        rw [hbc] at hno
        exact hno hown
      exact ⟨by rw [hpcd _ hbc]; exact hd, hnot _ (h.born _ (by simp [hd])).1 (.inl hno)⟩
  · rw [hev]
    refine ⟨⟨hother.2.symm, fun d b x hb hj => (h.reaped d b x hj).2 (by rwa [hb]), ?_⟩, h.valid⟩
    refine ⟨(s.slot k).xstate, ?_, hv⟩
    rw [← hka]
    exact h.zombies k hz
  · exact someone_of_not_left (c := c) (by rw [hpcc]; simp) (by rw [hpcc]; simp [Pc.Left, left])

/-! ### Steps that change no slot -/

/-- The step of thread `c` to `p` that changes no slot. -/
structure MoveStep (s s' : Sys) (c : ℤ) (p : Pc) : Prop where
  slot : s'.slot = s.slot
  pc : s'.pc = update s.pc c p
  home : s'.home = s.home
  nexttid : s'.nexttid = s.nexttid
  panic : s'.panic = s.panic
  events : s'.events = s.events ∨ ∃ a, s'.events = .notJoined c a :: s.events

theorem Inv.move (h : s.Inv) (halive : s.pc c ≠ .absent)
    (hdead : s.pc c ≠ .out .dead) (hlocks : s'.Locks) (hallows : p.Allows (s.my c).state)
    (hout : ∀ w, p ≠ .out w) (hpast : p.Past → (s.pc c).Past) (hknows : p.Knows s c)
    (hsome : s'.Someone) (hs : MoveStep s s' c p := by exact ⟨rfl, rfl, rfl, rfl, rfl, .inl rfl⟩) :
    s'.Inv := by
  obtain ⟨hown, -⟩ := h.owns halive hdead
  have hadds : Adds s s' c (s.my c) := hs.events.imp_right .inl
  have hev : ∀ e ∈ s.events, e ∈ s'.events := fun e he => hadds.mono he
  refine h.own (s.my c) ⟨?_, hs.pc, hs.home, hs.nexttid, hs.panic⟩ hown halive hlocks hown
    hallows (fun w hw => absurd hw (hout w)) id hpast hadds (fun hz => hev _ ?_) ?_ hsome
  · rw [hs.slot]
    exact (update_eq_self (s.home c) s.slot).symm
  · have := h.zombies (s.home c) hz
    rwa [show (s.slot (s.home c)).id = c from hown] at this
  · have hslot : ∀ k, s'.slot k = s.slot k := fun k => by rw [hs.slot]
    refine hknows.mono (fun a k _ hw => ⟨by rw [hslot]; exact hw.1, ?_⟩)
      (fun a k _ hk => by rw [hslot]; exact hk) hev (fun halone k hk => ?_) fun hsl => ?_
    · rw [hs.pc]
      by_cases hac : a.id = c
      · rw [hac, update_self]
        exact fun hp => hw.2 (by rw [hac]; exact hpast hp)
      · rw [update_of_ne hac]; exact hw.2
    · rw [hs.home] at hk
      rw [hslot]; exact halone k hk
    · have hmy : s'.my c = s.my c := by rw [my, my, hs.home, hslot]
      rw [hmy] at hsl ⊢
      exact ⟨hsl, rfl⟩

variable {b b' : Base}

theorem Inv.running (h : s.Inv) (hs : MoveStep s s' c (.here b')) (hpc : s.pc c = .here b)
    (hb : b.left = false) (hb' : b'.left = false) (hlocks : s'.Locks) (hknows : b'.Knows s c) :
    s'.Inv := by
  have hall := (h.owns_at hpc (by simp)).2.2
  refine h.move (p := .here b') (by simp [hpc]) (by simp [hpc]) hlocks ?_ (by simp) ?_ hknows ?_ hs
  · simp only [Pc.Allows, hb, hb'] at hall ⊢
    exact hall
  · intro hp
    simp only [Pc.Past] at hp
    rcases hp with rfl | rfl | rfl <;> simp [left] at hb'
  · exact someone_of_not_left (c := c) (by rw [hs.pc, update_self]; simp)
      (by rw [hs.pc, update_self]; simp [Pc.Left, hb'])

/-- A thread that has left, and is not the last one, moves on. -/
theorem Inv.leaving (h : s.Inv) (hpc : s.pc c = .here b)
    (hb : b.left = true) (hlast : ∀ status, b ≠ .kexit1 true status ∧ b ≠ .exiting status)
    (hp : p.Allows .zombie) (hout : ∀ w, p ≠ .out w) (hpast : p.Past → (s.pc c).Past)
    (hlocks : s'.Locks) (hknows : p.Knows s c)
    (hs : MoveStep s s' c p := by exact ⟨rfl, rfl, rfl, rfl, rfl, .inl rfl⟩) : s'.Inv := by
  have hall := (h.owns_at hpc (by simp)).2.2
  simp only [Pc.Allows, hb, if_true] at hall
  refine h.move (by simp [hpc]) (by simp [hpc]) hlocks (by rwa [hall]) hout hpast hknows ?_ hs
  refine h.someone.keep hs.pc (by rw [hpc]; exact hb) fun status => ?_
  rw [hpc]
  simpa using hlast status

end Sys

end Xv6.Kthread
