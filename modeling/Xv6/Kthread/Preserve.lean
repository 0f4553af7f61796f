import Xv6.Kthread.Effect

/-!
# Careful steps keep the invariant

One lemma for each place a thread can be at, collected in `Inv.step`.
-/

namespace Xv6.Kthread.Sys

open Function Base

variable {s s' : Sys} {c : ℤ} {b : Base}

/-- A thread that has not left moves on with the same locks, after a failed join perhaps. -/
theorem Inv.goes {t : Sys} {b' : Base} (h : s.Inv) (ht : t = s ∨ ∃ a, t = s.record (.notJoined c a))
    (hpc : s.pc c = .here b) (hb : b.left = false) (hb' : b'.left = false)
    (hlocks : b'.locks = b.locks) (hk : b'.Knows s c) : (t.goto c b').Inv := by
  have hmove : MoveStep s (t.goto c b') c (.here b') := by
    rcases ht with rfl | ⟨a, rfl⟩
    · exact ⟨rfl, rfl, rfl, rfl, rfl, .inl rfl⟩
    · exact ⟨rfl, rfl, rfl, rfl, rfl, .inr ⟨a, rfl⟩⟩
  refine h.running hmove hpc hb hb' (h.locks.move ?_ hmove.pc (by rw [hpc]; exact hlocks)) hk
  rcases ht with rfl | ⟨a, rfl⟩ <;> rfl

theorem inv_callStep (h : s.Inv) (hpc : s.pc c = .here .user) (f : Call) :
    (s.callStep c f).Inv := by
  have hown := (h.owns_at hpc (by simp)).2.1
  unfold callStep
  by_cases hk : (s.my c).killed
  · rw [if_pos hk]
    exact h.goes (.inl rfl) hpc rfl rfl rfl trivial
  rw [if_neg hk]
  cases f with
  | create | exit status | exec | other =>
    exact h.goes (.inl rfl) hpc rfl rfl rfl trivial
  | join a =>
    simp only
    split_ifs with ha
    · exact h.goes (.inr ⟨a, rfl⟩) hpc rfl rfl rfl trivial
    · rw [not_or] at ha
      refine h.goes (.inl rfl) hpc rfl rfl rfl ⟨ha.1, ?_⟩
      rw [Owns] at hown
      rw [← hown]
      exact ha.2

/-- An interrupt at a position without locks, of a thread whose slot is running. -/
theorem inv_yield0 (h : s.Inv) (hpc : s.pc c = .here b) (hb : b.locks = [])
    (hrun : (s.my c).state = .running) : (s.setPc c (.yield0 b)).Inv := by
  have hall := (h.owns_at hpc (by simp)).2.2
  have hk := h.knows c
  rw [hpc] at hk
  have hleft : b.left = false := by
    by_contra hne
    rw [Bool.not_eq_false] at hne
    simp [Pc.Allows, hne, hrun] at hall
  refine h.move (p := .yield0 b) (by simp [hpc])
    (by simp [hpc]) (h.locks.move rfl rfl (by rw [hpc]; exact hb.symm)) ⟨⟨hb, hleft⟩, hrun⟩
    (by simp) (fun hp => hp.elim) hk ?_
  exact someone_of_not_left (c := c) (by simp [setPc]) (by simp [setPc, Pc.Left])

theorem inv_timerStep (h : s.Inv) (hs : s.timerStep c = some s') : s'.Inv := by
  unfold timerStep at hs
  split at hs
  · rename_i hpc
    cases hs
    split_ifs
    · exact h.goes (.inl rfl) hpc rfl rfl rfl trivial
    · have hall := (h.owns_at hpc (by simp)).2.2
      exact inv_yield0 h hpc rfl hall
  · rename_i b hpc
    split_ifs at hs with hb
    cases hs
    exact inv_yield0 h hpc hb.1 hb.2
  · cases hs

theorem inv_runStep (h : s.Inv) {k : ThreadId} (hs : s.runStep k = some s') : s'.Inv := by
  unfold runStep at hs
  split_ifs at hs with hrun
  split at hs
  · rename_i w hw
    obtain ⟨lock, hl, rfl⟩ := of_acquire hs
    obtain ⟨hpc, hhome, hown, hall⟩ := h.holder (k := k) (by simp [hrun])
    rw [hrun] at hall
    -- the thread of the slot is switched out, and it is the one whose context is saved
    obtain ⟨w', hout, hw'⟩ := hall.of_runnable.resolve_right (h.locks.free hl _)
    have hctx := h.context _ w' hout hown
    rw [my, hhome] at hctx
    rw [hctx] at hw hl ⊢
    rw [hout] at hw
    cases hw
    have hk := h.knows (s.slot k).id
    rw [hout] at hall hk
    refine h.own (c := (s.slot k).id) (p := .back w) { s.slot k with state := .running }
      ⟨by rw [hhome]; rfl, rfl, rfl, rfl, rfl⟩ hown hpc ?_ rfl ?_ (by simp) ?_ ?_ (.inl rfl)
      (by simp) ?_ ?_
    · exact h.locks.acquire hl rfl (by simp [hout, Pc.locks])
    · cases w with
      | yielded b => exact ⟨hall.1, rfl⟩
      | dead => exact absurd rfl hw'
      | _ => rfl
    · rw [my, hhome, hrun]
      simp [Gone]
    · intro hp
      exact absurd hp hw'
    · cases w with
      | start | dead => trivial
      | slept a => exact hk.1
      | yielded b =>
        refine Base.Knows.mono_open hk hall.1.1 (fun e he => he) fun halone j hj => ?_
        have hgone := halone j hj
        simp only [setPc, setSlot]
        by_cases hjk : j = k
        · subst hjk
          rw [hrun] at hgone
          simp [Gone] at hgone
        · rwa [update_of_ne hjk]
    · refine someone_of_not_left (c := (s.slot k).id) ?_ ?_
      · simp [setPc]
      · simp only [setPc, update_self]
        exact hw'
  · cases hs

variable {lock : Lk → Option ℤ}

/-- The first critical section of `kthread_exit`. -/
theorem inv_mark (h : s.Inv) {status : ℤ} (hpc : s.pc c = .here (.kexit0 status))
    (hl : Spinlock.acquire s.lock c .proc = some lock) :
    (((({ s with lock := lock }).setSlot (s.home c)
      { s.my c with state := .zombie, xstate := status }).record (.exited c status)).goto c
        (.kexit1 (s.lastThread c) status)).Inv := by
  obtain ⟨halive, hown, -⟩ := h.owns_at hpc (by simp)
  refine h.own (c := c) (p := .here (.kexit1 (s.lastThread c) status))
    { s.my c with state := .zombie, xstate := status } ⟨rfl, rfl, rfl, rfl, rfl⟩ hown halive
    ?_ hown rfl (by simp) (fun _ => .inr rfl) (by simp [Pc.Past])
    (.inr (.inr ⟨status, rfl, rfl, by simp [hpc, Pc.Left, left]⟩))
    (fun _ => List.mem_cons_self) ⟨List.mem_cons_self, fun hlast k hk => ?_⟩ ?_
  · exact h.locks.acquire hl rfl (by simp [hpc, Pc.locks, locks])
  · have hk : k ≠ s.home c := hk
    have hgone := of_decide_eq_true hlast k hk
    simpa [goto, record, setSlot, update_of_ne hk] using hgone
  · by_cases hlast : s.lastThread c = true
    · exact .inr ⟨c, status, .inl (by simp [goto, hlast])⟩
    · -- another thread is there, and it has not left
      have hother : ∃ k, k ≠ s.home c ∧ ¬ Gone (s.slot k).state := by
        by_contra hno
        refine hlast (decide_eq_true fun k hk => ?_)
        by_contra hgone
        exact hno ⟨k, hk, hgone⟩
      obtain ⟨k, hk, hgone⟩ := hother
      obtain ⟨hd, hhome, -, hall⟩ := h.holder (k := k) fun hu => hgone (.inl hu)
      have hdc : (s.slot k).id ≠ c := by
        intro hdc
        rw [hdc] at hhome
        exact hk hhome.symm
      refine .inl ⟨(s.slot k).id, ?_, ?_⟩
      · simpa [goto, record, setSlot, update_of_ne hdc] using hd
      · rw [hall.gone_iff] at hgone
        simpa [goto, record, setSlot, update_of_ne hdc] using hgone

/-- `sleep` in `kthread_join`: the thread sleeps on a slot whose wakeup is still to come. -/
theorem inv_doze (h : s.Inv) {a : Join} {k : ThreadId} (hpc : s.pc c = .here (.sleep2 a k)) :
    ((s.setSlot (s.home c) { s.my c with chan := some k, state := .sleeping }).setPc c
      (.sched (.slept a))).Inv := by
  obtain ⟨halive, hown, (hst : (s.my c).state = .running)⟩ := h.owns_at hpc (by simp)
  obtain ⟨hother, hw⟩ : a.Other c ∧ s.Watch a k := by
    have := h.knows c
    rwa [hpc] at this
  refine h.own (c := c) (p := .sched (.slept a))
    { s.my c with chan := some k, state := .sleeping } ⟨rfl, rfl, rfl, rfl, rfl⟩ hown halive
    ?_ hown rfl (by simp) (by simp [hst, Gone]) (by simp [Pc.Past]) (.inl rfl) (by simp)
    ⟨hother, fun _ => ⟨k, by simp [my, setPc, setSlot], ?_, ?_⟩⟩ ?_
  · exact h.locks.move rfl rfl (by rw [hpc]; rfl)
  · by_cases hk : k = s.home c
    · subst hk
      simpa [setPc, setSlot, my] using hw.1
    · simpa [setPc, setSlot, update_of_ne hk] using hw.1
  · simpa [setPc, setSlot, update_of_ne hother.2] using hw.2
  · exact someone_of_not_left (c := c) (by simp [setPc]) (by simp [setPc, Pc.Left])

theorem inv_baseStep (h : s.Inv) (hpc : s.pc c = .here b) {ok : Bool}
    (hG : ∀ a k, b = .joinLook a k → (s.slot k).state = .zombie → s.pc (s.slot k).id = .out .dead)
    (hs : s.baseStep c ok b = some s') (hlive : s'.live = true) : s'.Inv := by
  have hk := h.knows c
  rw [hpc] at hk
  cases b with
  | user | exiting status => cases hs
  | busy | execBody =>
    cases hs
    exact h.goes (.inl rfl) hpc rfl rfl rfl trivial
  | ret | execScan k live =>
    simp only [baseStep] at hs
    split_ifs at hs <;> cases hs <;>
      exact h.goes (.inl rfl) hpc rfl rfl rfl trivial
  | create0 =>
    obtain ⟨lock, hl, rfl⟩ := of_acquire hs
    unfold create at hlive ⊢
    split
    · exact h.running ⟨rfl, rfl, rfl, rfl, rfl, .inl rfl⟩ hpc rfl rfl
        (h.locks.acquire hl rfl (by simp [hpc, Pc.locks, locks])) trivial
    · rename_i k hfree
      rw [hfree] at hlive
      simp only at hlive
      split_ifs at hlive ⊢
      · refine inv_newThread h hpc hl ?_
        have := List.find?_some hfree
        simpa using this
      · cases hlive
  | create1 | joinEnd | exec1 =>
    obtain ⟨lock, hl, rfl⟩ := of_release hs
    exact h.running ⟨rfl, rfl, rfl, rfl, rfl, .inl rfl⟩ hpc rfl rfl
      (h.locks.release hl rfl (by simp [hpc, Pc.locks, locks])) trivial
  | kexit0 status =>
    obtain ⟨lock, hl, rfl⟩ := of_acquire hs
    exact inv_mark h hpc hl
  | kexit1 last status =>
    obtain ⟨lock, hl, rfl⟩ := of_release hs
    have hall := (h.owns_at hpc (by simp)).2.2
    cases last with
    | true =>
      refine h.move (p := .here (.exiting status)) (by simp [hpc]) (by simp [hpc])
        (h.locks.release hl rfl (by simp [hpc, Pc.locks, locks]))
        hall (by simp) (by simp [Pc.Past]) ⟨hk.1, hk.2 rfl⟩ ?_
      exact .inr ⟨c, status, .inr (by simp [goto])⟩
    | false =>
      exact h.leaving (p := .here .kexit2) hpc rfl (by simp) rfl
        (by simp) (by simp [Pc.Past]) (h.locks.release hl rfl (by simp [hpc, Pc.locks, locks]))
        trivial
  | kexit2 =>
    obtain ⟨lock, hl, rfl⟩ := of_acquire hs
    exact h.leaving (p := .here .kexit3) hpc rfl (by simp) rfl
      (by simp) (by simp [Pc.Past]) (h.locks.acquire hl rfl (by simp [hpc, Pc.locks, locks]))
      trivial
  | kexit3 =>
    obtain ⟨lock, hl, rfl⟩ := of_acquire hs
    exact inv_wakeJoiners h hpc hl
  | kexit4 =>
    obtain ⟨lock, hl, rfl⟩ := of_release hs
    refine h.leaving (p := .here .kexit5) hpc rfl (by simp) rfl
      (by simp) (by simp [Pc.Past, hpc]) (h.locks.release hl rfl fun l => ?_) trivial
    cases l <;> simp [hpc, Pc.locks, locks]
  | kexit5 =>
    obtain ⟨lock, hl, rfl⟩ := of_release hs
    exact h.leaving (p := .here .kexit6) hpc rfl (by simp) rfl
      (by simp) (by simp [Pc.Past, hpc])
      (h.locks.release hl rfl (by simp [hpc, Pc.locks, locks])) trivial
  | kexit6 =>
    obtain ⟨lock, hl, rfl⟩ := of_acquire hs
    exact h.leaving (p := .sched .dead) hpc rfl (by simp) rfl
      (by simp) (by simp [Pc.Past, hpc])
      (h.locks.acquire hl rfl (by simp [hpc, Pc.locks, locks])) trivial
  | join0 a | joinAt a k | joinSleep a k =>
    obtain ⟨lock, hl, rfl⟩ := of_acquire hs
    exact h.running ⟨rfl, rfl, rfl, rfl, rfl, .inl rfl⟩ hpc rfl rfl
      (h.locks.acquire hl rfl (by simp [hpc, Pc.locks, locks])) hk
  | joinScan a k found =>
    have hother : a.Other c := by
      cases found with
      | none => exact hk
      | some j => exact hk.1
    simp only [baseStep] at hs
    split_ifs at hs with hlt hid hkilled
    · cases hs
      exact h.goes (.inl rfl) hpc rfl rfl rfl ⟨hother, hid⟩
    · cases hs
      refine h.goes (.inl rfl) hpc rfl rfl rfl ?_
      cases found with
      | none | some j => exact hk
    · have hs' : s' = (s.record (.notJoined c a)).goto c .joinEnd := by
        cases found <;> exact (Option.some.inj hs).symm
      subst hs'
      exact h.goes (.inr ⟨a, rfl⟩) hpc rfl rfl rfl trivial
    · cases found with
      | none =>
        cases hs
        exact h.goes (.inr ⟨a, rfl⟩) hpc rfl rfl rfl trivial
      | some j =>
        cases hs
        exact h.goes (.inl rfl) hpc rfl rfl rfl hk
  | joinLook a k =>
    cases hs
    unfold look
    by_cases hz : (s.slot k).state = .zombie
    · rw [if_pos hz]
      by_cases hfail : (a.addr && !ok) = true
      · rw [if_pos hfail]
        exact h.goes (.inr ⟨a, rfl⟩) hpc rfl rfl rfl trivial
      · rw [if_neg hfail]
        exact inv_reap h hpc hz (hG a k rfl hz) rfl
    · rw [if_neg hz]
      refine h.goes (.inl rfl) hpc rfl rfl rfl ⟨hk.1, hk.2, fun hpast => hz ?_⟩
      -- past its wakeup the thread would be a zombie
      have hpos : (s.slot k).id ≠ 0 := by rw [hk.2]; exact hk.1.1
      have hne : (s.slot k).state ≠ .unused := fun hu =>
        (h.slots k).elim (fun h0 => hpos h0.2) fun h1 => h1.1 hu
      obtain ⟨-, -, -, hall⟩ := h.holder hne
      have hleft : (s.pc (s.slot k).id).Left := by
        rw [hk.2]
        revert hpast
        cases s.pc a.id with
        | here b => rintro (rfl | rfl | rfl) <;> rfl
        | absent | yield0 b => exact False.elim
        | sched w | out w | back w => exact id
      exact (hall.gone_iff.2 hleft).resolve_left hne
  | joinNext a k | sleep1 a k =>
    obtain ⟨lock, hl, rfl⟩ := of_release hs
    refine h.running ⟨rfl, rfl, rfl, rfl, rfl, .inl rfl⟩ hpc rfl rfl
      (h.locks.release hl rfl fun l => ?_) hk
    cases l <;> simp [hpc, Pc.locks, locks]
  | joinDone =>
    obtain ⟨lock, hl, rfl⟩ := of_release hs
    refine h.running ⟨rfl, rfl, rfl, rfl, rfl, .inl rfl⟩ hpc rfl rfl
      (h.locks.release hl rfl fun l => ?_) trivial
    cases l <;> simp [hpc, Pc.locks, locks]
  | sleep2 a k =>
    cases hs
    exact inv_doze h hpc
  | exec0 =>
    obtain ⟨lock, hl, rfl⟩ := of_acquire hs
    exact inv_execMark h hpc hl

/-- `yield`: the thread becomes runnable. -/
theorem inv_yield (h : s.Inv) (hpc : s.pc c = .yield0 b)
    (hl : Spinlock.acquire s.lock c .proc = some lock) :
    ((({ s with lock := lock }).setSlot (s.home c) { s.my c with state := .runnable }).setPc c
      (.sched (.yielded b))).Inv := by
  obtain ⟨halive, hown, hall⟩ := h.owns_at hpc (by simp)
  have hk := h.knows c
  rw [hpc] at hk
  refine h.own (c := c) (p := .sched (.yielded b)) { s.my c with state := .runnable }
    ⟨rfl, rfl, rfl, rfl, rfl⟩ hown halive ?_ hown ⟨hall.1, rfl⟩ (by simp) (by simp [hall.2, Gone])
    (by simp [Pc.Past]) (.inl rfl) (by simp) ?_ ?_
  · refine h.locks.acquire hl rfl ?_
    simp [hpc, Pc.locks]
  · refine Base.Knows.mono_open hk hall.1.1 (fun e he => he) fun halone j hj => ?_
    have hj : j ≠ s.home c := hj
    simpa [setPc, setSlot, update_of_ne hj] using halone j hj
  · exact someone_of_not_left (c := c) (by simp [setPc]) (by simp [setPc, Pc.Left])

/-- `swtch` saves the registers of the thread in its slot. -/
theorem inv_swtch (h : s.Inv) {w : Wait} (hpc : s.pc c = .sched w)
    (hl : Spinlock.release s.lock c .proc = some lock) :
    ({ s.setSlot (s.home c) { s.my c with context := c } with lock := lock }.setPc
      c (.out w)).Inv := by
  obtain ⟨halive, hown, hall⟩ := h.owns_at hpc (by simp)
  have hk := h.knows c
  rw [hpc] at hk
  have hslot : ∀ k, update s.slot (s.home c) { s.my c with context := c } k =
      { s.slot k with context := if k = s.home c then c else (s.slot k).context } := by
    intro k
    by_cases hkc : k = s.home c
    · subst hkc; simp [my]
    · simp [hkc]
  refine h.own (c := c) (p := .out w) { s.my c with context := c } ⟨rfl, rfl, rfl, rfl, rfl⟩ hown
    halive ?_ hown ?_ (fun _ _ => rfl) id (fun hp => by rw [hpc]; exact hp) (.inl rfl)
    (fun hz => ?_) ?_ ?_
  · exact h.locks.release hl rfl fun l => by cases l <;> simp [hpc, Pc.locks]
  · cases w with
    | start => exact hall.elim
    | slept a => exact .inl hall
    | yielded b | dead => exact hall
  · have := h.zombies (s.home c) hz
    rwa [show (s.slot (s.home c)).id = c from hown] at this
  · have hknows : (Pc.out w).Knows s c := by cases w <;> exact hk
    refine hknows.mono (fun a k _ hw => ⟨?_, ?_⟩) (fun a k _ hid => ?_) (fun e he => he)
      (fun halone k hj => ?_) fun hsl => ?_
    · simp only [setPc, setSlot, hslot]; exact hw.1
    · by_cases hac : a.id = c
      · have hpast : ¬ (Pc.sched w).Past := by
          have := hw.2
          rwa [hac, hpc] at this
        simp only [setPc, hac, update_self]
        exact hpast
      · simpa [setPc, setSlot, update_of_ne hac] using hw.2
    · simp only [setPc, setSlot, hslot]; exact hid
    · simp only [setPc, setSlot, hslot]; exact halone k hj
    · simp only [my, setPc, setSlot, update_self] at hsl ⊢
      exact ⟨hsl, trivial⟩
  · by_cases hw : w = .dead
    · subst hw
      refine h.someone.keep (c := c) (p := .out .dead) rfl (by rw [hpc]; rfl) (by simp [hpc])
    · exact someone_of_not_left (c := c) (by simp [setPc]) (by simpa [setPc, Pc.Left] using hw)

theorem inv_backStep (h : s.Inv) {w : Wait} (hpc : s.pc c = .back w)
    (hs : s.backStep c w = some s') : s'.Inv := by
  obtain ⟨halive, hown, hall⟩ := h.owns_at hpc (by simp)
  have hk := h.knows c
  rw [hpc] at hk
  cases w with
  | start =>
    obtain ⟨lock, hl, rfl⟩ := of_release hs
    refine h.move (p := .here .user) halive (by simp [hpc])
      (h.locks.release hl rfl fun l => ?_) hall (by simp) (by simp [Pc.Past]) trivial ?_
    · cases l <;> simp [hpc, Pc.locks, locks]
    · exact someone_of_not_left (c := c) (by simp [goto]) (by simp [goto, Pc.Left, left])
  | slept a =>
    obtain ⟨lock, hl, rfl⟩ := of_release hs
    have hrun : (s.my c).state = .running := hall
    refine h.own (c := c) (p := .here (.join0 a)) { s.my c with chan := none }
      ⟨rfl, rfl, rfl, rfl, rfl⟩ hown halive (h.locks.release hl rfl fun l => ?_) hown hall (by simp)
      id (by simp [Pc.Past]) (.inl rfl) (by simp [hrun]) hk ?_
    · cases l <;> simp [hpc, Pc.locks, locks]
    · exact someone_of_not_left (c := c) (by simp [goto]) (by simp [goto, Pc.Left, left])
  | yielded b =>
    obtain ⟨lock, hl, rfl⟩ := of_release hs
    refine h.move (p := .here b) halive (by simp [hpc])
      (h.locks.release hl rfl fun l => ?_) ?_ (by simp) ?_ hk ?_
    · cases l <;> simp [hpc, Pc.locks, hall.1.1]
    · simpa [Pc.Allows, hall.1.2] using hall.2
    · rintro (rfl | rfl | rfl) <;> exact absurd hall.1.2 (by simp [left])
    · exact someone_of_not_left (c := c) (by simp [goto]) (by simp [goto, Pc.Left, hall.1.2])
  | dead => exact hall.elim

theorem inv_goStep (h : s.Inv) {ok : Bool} (hG : s.Careful (.go c ok))
    (hs : s.goStep c ok = some s') (hlive : s'.live = true) : s'.Inv := by
  unfold goStep at hs
  split at hs
  · rename_i b hpc
    refine inv_baseStep h hpc (fun a k hb hz => ?_) hs hlive
    subst hb
    simp only [Careful, hpc] at hG
    exact hG hz
  · rename_i b hpc
    obtain ⟨lock, hl, rfl⟩ := of_acquire hs
    exact inv_yield h hpc hl
  · rename_i w hpc
    split_ifs at hs with hrun
    · -- `sched` is never called with a running thread
      have hall := (h.owns_at hpc (by simp)).2.2
      rw [hrun] at hall
      cases w <;> simp [Pc.Allows] at hall
    · obtain ⟨lock, hl, rfl⟩ := of_release hs
      exact inv_swtch h hpc hl
  · rename_i w hpc
    exact inv_backStep h hpc hs
  · cases hs

/-- **Careful steps keep the invariant** as long as the process lives. -/
theorem Inv.step {a : Act} (h : s.Inv) (hG : s.Careful a) (hs : s.step a = some s')
    (hlive : s'.live = true) : s'.Inv := by
  unfold Sys.step at hs
  split_ifs at hs
  cases a with
  | call c f =>
    simp only at hs
    split_ifs at hs with hpc
    cases hs
    exact inv_callStep h hpc f
  | go c ok => exact inv_goStep h hG hs hlive
  | timer c => exact inv_timerStep h hs
  | run k => exact inv_runStep h hs
  | tid =>
    cases hs
    exact
      { h with
        born := fun d hd => ⟨(h.born d hd).1, by have := (h.born d hd).2; simp only; omega⟩
        knows := fun d => (h.knows d).mono (fun _ _ _ hw => hw) (fun _ _ _ hk => hk)
          (fun _ he => he) id fun hsl => ⟨hsl, rfl⟩ }

theorem inv_init (m : ℕ) : (init m).Inv := by
  have hpc : ∀ c, (init m).pc c ≠ .absent → c = m + 1 := by
    intro c hc
    by_contra hne
    simp [init, hne] at hc
  have hmy : (init m).my (m + 1) = ⟨m + 1, .runnable, 0, none, false, m + 1⟩ := rfl
  have hpc0 : (init m).pc (m + 1) = .out .start := by simp [init]
  refine
    { locks := ?_
      born := fun c hc => ?_
      owner := fun c hc => ?_
      slots := fun k => ?_
      context := fun c w hc _ => ?_
      knows := fun c => ?_
      zombies := fun k hk => ?_
      exits := fun c status he => ?_
      reaped := fun c a v hj => ?_
      valid := trivial
      someone := ?_
      noPanic := rfl }
  · intro c l
    simp only [init]
    split_ifs <;> simp [Pc.locks]
  · have := hpc c hc
    simp only [init]
    omega
  · rw [hpc c hc, hpc0, Owns, hmy]
    exact .inl ⟨rfl, rfl⟩
  · by_cases hk : k = 0
    · subst hk
      exact .inr ⟨by simp [init], by simp [init], rfl⟩
    · exact .inl ⟨by simp [init, hk], by simp [init, hk]⟩
  · have := hpc c (by simp [hc])
    rw [this, hmy]
  · by_cases hc : c = m + 1
    · rw [hc, hpc0]; trivial
    · simp only [init, if_neg hc]; trivial
  · simp only [init] at hk
    split_ifs at hk
  · cases he
  · cases hj
  · exact .inl ⟨m + 1, by rw [hpc0]; simp, by rw [hpc0]; simp [Pc.Left]⟩

end Xv6.Kthread.Sys
