import Xv6.Sem.Binary
import Mathlib.Data.Fintype.Prod

/-!
# Threads asleep on a binary semaphore

`bsem_up` wakes the threads that sleep on the semaphore it unlocks; `bsem_alloc` unlocks one too
and wakes nobody.  As long as `bsem_alloc` does not take an entry on which a thread still waits,
no thread sleeps on an unlocked semaphore while `bsem_lock` is free.
-/

namespace Xv6.Sem

open Function Transition Bsems

/-- The position is in the `wakeup` of `bsem_up(b)`, before slot `q`. -/
def Pc.Wakes (b : BsemId) (q : ProcId) : Pc → Prop
  | .wake b' qs => b' = b ∧ q ∈ qs
  | .waking b' _ qs => b' = b ∧ q ∈ qs
  | _ => False

variable {b : BsemId}

theorem Pc.Wakes.holds {q p : ProcId} {pc : Pc} (h : pc.Wakes b q) : .bsem ∈ pc.locks p := by
  cases pc with
  | wake b' qs | waking b' q' qs => simp [locks]
  | _ => exact h.elim

namespace Sys

variable {T : Type} [DecidableEq T] {proc : T → ProcId} {s s' : Sys T} {t : T}

/-- Thread `t` is blocked on `b`: it sleeps, or has given up `bsem_lock` in order to. -/
def Waits (s : Sys T) (t : T) (b : BsemId) : Prop :=
  s.pc t = .sleep2 b ∨ s.state t = .sleeping ∧ s.chan t = some b

instance (s : Sys T) (t : T) (b : BsemId) : Decidable (s.Waits t b) :=
  inferInstanceAs (Decidable (_ ∨ _))

/-- `bsem_alloc` takes an entry only if no thread is blocked on it. -/
def Unwaited (s : Sys T) : Act T → Prop
  | .go t =>
    match s.pc t with
    | .take b => ∀ u, ¬ s.Waits u b
    | _ => True
  | _ => True

instance [Fintype T] (s : Sys T) (a : Act T) : Decidable (s.Unwaited a) := by
  unfold Unwaited
  split
  · split <;> infer_instance
  · infer_instance

variable (proc) in
structure Awake (s : Sys T) : Prop where
  inv : s.Inv proc
  /-- Only a thread in `sleep` has its state set to `SLEEPING`. -/
  asleep : ∀ t, s.state t = .sleeping → ∃ b, s.pc t = .slept b ∨ s.pc t = .asleep b
  /-- Whoever is blocked on an unlocked semaphore is about to be woken. -/
  woken : ∀ t b, s.Waits t b → (s.bsems b).unlocked = true → ∃ u, (s.pc u).Wakes b (proc t)

omit [DecidableEq T] in
theorem awake_init : (init : Sys T).Awake proc where
  inv := inv_init
  asleep := by simp [init]
  woken := by simp [init, Waits]

variable {p : Pc}

/-- What has to be shown of a step of thread `t` to `p`: a thread that sleeps afterwards did so
before, or is `t` in `sleep`; and one that is blocked on an unlocked semaphore afterwards was so
before, with no `wakeup` ended, or `t` is going to wake it. -/
theorem Awake.move (h : s.Awake proc) (hinv : s'.Inv proc) (hpc : s'.pc = update s.pc t p)
    (hasleep : ∀ u, s'.state u = .sleeping →
      u ≠ t ∧ s.state u = .sleeping ∨ u = t ∧ ∃ b, p = .slept b ∨ p = .asleep b)
    (hwoken : ∀ u b, s'.Waits u b → (s'.bsems b).unlocked = true →
    (s.Waits u b ∧ (s.bsems b).unlocked = true ∧ ((s.pc t).Wakes b (proc u) → p.Wakes b (proc u))
    ) ∨ p.Wakes b (proc u)) : s'.Awake proc := by
  refine ⟨hinv, fun u hu => ?_, fun u b hu hb => ?_⟩
  · rw [hpc]
    rcases hasleep u hu with ⟨hut, hu⟩ | ⟨rfl, hp⟩
    · rw [update_of_ne hut]
      exact h.asleep u hu
    · rwa [update_self]
  · rcases hwoken u b hu hb with ⟨hu, hb, hp⟩ | hp
    · obtain ⟨w, hw⟩ := h.woken u b hu hb
      refine ⟨w, ?_⟩
      rw [hpc]
      by_cases hwt : w = t
      · subst hwt
        rw [update_self]
        exact hp hw
      · rwa [update_of_ne hwt]
    · exact ⟨t, by rwa [hpc, update_self]⟩

omit [DecidableEq T] in
/-- A thread at another position than those two does not sleep. -/
theorem Awake.ne_of_sleeping (h : s.Awake proc) {u : T}
    (hold : ∀ b, s.pc t ≠ .slept b ∧ s.pc t ≠ .asleep b) (hu : s.state u = .sleeping) : u ≠ t := by
  rintro rfl
  obtain ⟨b, hb | hb⟩ := h.asleep u hu
  · exact (hold b).1 hb
  · exact (hold b).2 hb

/-- After a step of `t` to `p` that changes no state, a blocked thread was blocked before, or it
is `t`. -/
theorem Waits.before {u : T} (h : s'.Waits u b) (hpc : s'.pc = update s.pc t p)
    (hstate : s'.state = s.state) (hchan : s'.chan = s.chan) : s.Waits u b ∨ p = .sleep2 b := by
  rcases h with h | h
  · rw [hpc] at h
    by_cases hut : u = t
    · subst hut
      rw [update_self] at h
      exact .inr h
    · rw [update_of_ne hut] at h
      exact .inl (.inl h)
  · rw [hstate, hchan] at h
    exact .inl (.inr h)

/-- A step that changes no thread state, of a thread that does not sleep. -/
theorem Awake.still (h : s.Awake proc) (hinv : s'.Inv proc) (hpc : s'.pc = update s.pc t p)
    (hstate : s'.state = s.state) (hchan : s'.chan = s.chan)
    (hold : ∀ b, s.pc t ≠ .slept b ∧ s.pc t ≠ .asleep b)
    (hwoken : ∀ u b, s.Waits u b ∨ p = .sleep2 b → (s'.bsems b).unlocked = true →
    (s.Waits u b ∧ (s.bsems b).unlocked = true ∧ ((s.pc t).Wakes b (proc u) → p.Wakes b (proc u))
    ) ∨ p.Wakes b (proc u)) : s'.Awake proc := by
  refine h.move hinv hpc (fun u hu => .inl ?_) fun u b hu => hwoken u b (hu.before hpc hstate hchan)
  rw [hstate] at hu
  exact ⟨h.ne_of_sleeping hold hu, hu⟩

/-- Such a step that blocks nobody, unlocks nothing and ends no `wakeup`. -/
theorem Awake.quiet {p₀ : Pc} (h : s.Awake proc) (hold : s.pc t = p₀) (hinv : s'.Inv proc)
    (hpc : s'.pc = update s.pc t p) (hstate : s'.state = s.state) (hchan : s'.chan = s.chan)
    (hopen : ∀ b, (s'.bsems b).unlocked = true → (s.bsems b).unlocked = true :=
      by exact fun _ h => h)
    (hleft : ∀ b, p₀ ≠ .slept b ∧ p₀ ≠ .asleep b := by simp) (hnew : ∀ b, p ≠ .sleep2 b := by simp)
    (hwakes : ∀ b q, p₀.Wakes b q → p.Wakes b q := by simp [Pc.Wakes]) : s'.Awake proc :=
  h.still hinv hpc hstate hchan (hold ▸ hleft) fun _ b hu hb =>
    .inl ⟨hu.resolve_right (hnew b), hopen b hb, hold ▸ hwakes b _⟩

/-- The turn of `wakeup` for slot `q`: a thread of the slot that is blocked sleeps, since `q` is
not locked, and is woken. -/
theorem awake_wake (h : s.Awake proc) {q : ProcId} {qs : List ProcId} {lock : Lk → Option T}
    (hpc : s.pc t = .wake b (q :: qs)) (hl : Spinlock.acquire s.lock t (.proc q) = some lock)
    (hinv : ((({ s with lock := lock }).wakeSlot proc t q b).goto t (.waking b q qs)).Inv proc) :
    ((({ s with lock := lock }).wakeSlot proc t q b).goto t (.waking b q qs)).Awake proc := by
  have hold : ∀ b, s.pc t ≠ .slept b ∧ s.pc t ≠ .asleep b := by simp [hpc]
  refine h.move hinv rfl (fun u hu => .inl ?_) fun u c hu hc => .inl ⟨?_, hc, ?_⟩
  · have hu' : s.state u = .sleeping := by
      simp only [goto, wakeSlot] at hu
      split_ifs at hu
      exact hu
    exact ⟨h.ne_of_sleeping hold hu', hu'⟩
  · rcases hu with hu | ⟨hst, hch⟩
    · by_cases hut : u = t
      · subst hut; simp [goto] at hu
      · exact .inl (by simpa [goto, wakeSlot, update_of_ne hut] using hu)
    · simp only [goto, wakeSlot] at hst
      split_ifs at hst
      exact .inr ⟨hst, hch⟩
  · rw [hpc]
    rintro ⟨rfl, hq⟩
    refine ⟨rfl, ?_⟩
    rcases List.mem_cons.1 hq with huq | hq
    · exfalso
      rcases hu with hu | ⟨hst, hch⟩
      · have hut : u ≠ t := by
          rintro rfl
          simp [goto] at hu
        have hu' : s.pc u = .sleep2 b := by
          simpa [goto, wakeSlot, update_of_ne hut] using hu
        refine h.inv.locks.free hl u ?_
        simp [hu', Pc.locks, huq]
      · simp only [goto, wakeSlot] at hst hch
        split_ifs at hst with hcond
        exact hcond ⟨huq, h.ne_of_sleeping hold hst, hst, hch⟩
    · exact hq

theorem awake_goStep (h : s.Awake proc) (hG : s.Unwaited (.go t))
    (hs : s.goStep proc t = some s') : s'.Awake proc := by
  have hinv := inv_goStep h.inv hs
  unfold goStep at hs
  cases hpc : s.pc t <;> simp only [hpc] at hs
  case user => cases hs
  case scan k =>
    split_ifs at hs <;> cases hs <;>
      exact h.quiet hpc hinv rfl rfl rfl
  case take b =>
    cases hs
    simp only [Unwaited, hpc] at hG
    refine h.still hinv rfl rfl rfl (by simp [hpc]) fun u c hu hc => ?_
    have hwaits : s.Waits u c := hu.resolve_right (by simp)
    have hcb : c ≠ b := by
      rintro rfl
      exact hG u hwaits
    refine .inl ⟨hwaits, ?_, by simp [hpc, Pc.Wakes]⟩
    simpa [goto, Sys.write, take, update_of_ne hcb] using hc
  case taken b | woken b | waking b q qs | unlock =>
    obtain ⟨lock, -, rfl⟩ := of_release hs
    exact h.quiet hpc hinv rfl rfl rfl
  case allocRet b =>
    cases hs
    exact h.quiet hpc hinv rfl rfl rfl
  case free b =>
    cases hs
    refine h.quiet hpc hinv rfl rfl rfl fun c hc => ?_
    by_cases hcb : c = b
    · subst hcb; simpa [goto, Sys.write, free] using hc
    · simpa [goto, Sys.write, free, update_of_ne hcb] using hc
  case test b =>
    cases hs
    split_ifs at hinv ⊢ <;>
      exact h.quiet hpc hinv rfl rfl rfl
  case closing b =>
    cases hs
    refine h.quiet hpc hinv rfl rfl rfl fun c hc => ?_
    by_cases hcb : c = b
    · subst hcb; simp [goto, Sys.write, setUnlocked] at hc
    · simpa [goto, Sys.write, setUnlocked, update_of_ne hcb] using hc
  case sleep0 b | reacquire b =>
    obtain ⟨lock, -, rfl⟩ := of_acquire hs
    exact h.quiet hpc hinv rfl rfl rfl
  case sleep1 b =>
    obtain ⟨lock, -, rfl⟩ := of_release hs
    -- the semaphore was found locked, and `bsem_lock` has been held since
    have hlocked : (s.bsems b).unlocked = false := by
      have := h.inv.knows t
      rwa [hpc] at this
    refine h.still hinv rfl rfl rfl (by simp [hpc]) fun u c hu hc => ?_
    rcases hu with hu | hu
    · exact .inl ⟨hu, hc, by simp [hpc, Pc.Wakes]⟩
    · cases hu
      exact absurd (hlocked.symm.trans hc) (by simp)
  case sleep2 b =>
    cases hs
    refine h.move hinv rfl (fun u hu => ?_) fun u c hu hc => .inl ⟨?_, hc, by simp [hpc, Pc.Wakes]⟩
    · by_cases hut : u = t
      · exact .inr ⟨hut, b, .inl rfl⟩
      · exact .inl ⟨hut, by simpa [goto, update_of_ne hut] using hu⟩
    · by_cases hut : u = t
      · subst hut
        have hcb : b = c := by simpa [Waits, goto] using hu
        exact .inl (hcb ▸ hpc)
      · simpa [Waits, goto, update_of_ne hut] using hu
  case slept b =>
    obtain ⟨lock, -, rfl⟩ := of_release hs
    refine h.move hinv rfl (fun u hu => ?_) fun u c hu hc => .inl ⟨?_, hc, by simp [hpc, Pc.Wakes]⟩
    · by_cases hut : u = t
      · exact .inr ⟨hut, b, .inr rfl⟩
      · exact .inl ⟨hut, hu⟩
    · exact (hu.before rfl rfl rfl).resolve_right (by simp)
  case asleep b =>
    split_ifs at hs with hrun
    obtain ⟨lock, -, rfl⟩ := of_acquire hs
    refine h.move hinv rfl (fun u hu => ?_) fun u c hu hc => .inl ⟨?_, hc, by simp [hpc, Pc.Wakes]⟩
    · by_cases hut : u = t
      · subst hut; simp [goto] at hu
      · exact .inl ⟨hut, by simpa [goto, update_of_ne hut] using hu⟩
    · by_cases hut : u = t
      · subst hut; simp [Waits, goto] at hu
      · simpa [Waits, goto, update_of_ne hut] using hu
  case opening b =>
    cases hs
    refine h.still hinv rfl rfl rfl (by simp [hpc]) fun u c hu hc => ?_
    by_cases hcb : c = b
    · subst hcb
      exact .inr (by simp [Pc.Wakes])
    · refine .inl ⟨hu.resolve_right (by simp), ?_, by simp [hpc, Pc.Wakes]⟩
      simpa [goto, Sys.write, setUnlocked, update_of_ne hcb] using hc
  case wake b qs =>
    cases qs with
    | nil =>
      simp only at hs
      obtain ⟨lock, -, rfl⟩ := of_release hs
      exact h.quiet hpc hinv rfl rfl rfl
    | cons q qs =>
      simp only at hs
      obtain ⟨lock, hl, rfl⟩ := of_acquire hs
      exact awake_wake h hpc hl hinv

theorem awake_step (h : s.Awake proc) (a : Act T) (hG : s.Unwaited a)
    (hs : s.step proc a = some s') : s'.Awake proc := by
  have hinv := inv_step h.inv a hs
  cases a with
  | call t c =>
    simp only [step] at hs
    split_ifs at hs with hpc
    obtain ⟨lock, -, rfl⟩ := of_acquire hs
    refine h.quiet hpc hinv rfl rfl rfl (fun _ hb => hb) (by simp) ?_ (by simp [Pc.Wakes])
    cases c <;> simp [Call.start]
  | go t => exact awake_goStep h hG hs
  | kill q =>
    simp only [step] at hs
    split_ifs at hs
    cases hs
    have hst : ∀ u, (s.killSlot proc q).state u = .sleeping → s.state u = .sleeping := by
      intro u hu
      simp only [killSlot] at hu
      split_ifs at hu
      exact hu
    refine ⟨hinv, fun u hu => h.asleep u (hst u hu), fun u b hu hb => h.woken u b ?_ hb⟩
    exact hu.imp_right fun hu => ⟨hst u hu.1, hu.2⟩

/-- **Nobody sleeps on an available semaphore.** In every run in which `bsem_alloc` takes no entry
that a thread is still blocked on, whenever `bsem_lock` is free and a semaphore is unlocked, no
thread is `SLEEPING` on it. -/
theorem no_sleeper_when_unlocked {tr : List (Act T)} (h : Reach (step proc) Unwaited init tr s)
    (hfree : s.lock .bsem = none) (hb : (s.bsems b).unlocked = true) (t : T) :
    ¬ (s.state t = .sleeping ∧ s.chan t = some b) := by
  have hawake : s.Awake proc :=
    h.state_invariant awake_init fun s a s' hi hG hs => awake_step hi a hG hs
  intro ht
  obtain ⟨u, hu⟩ := hawake.woken t b (.inr ht) hb
  have := (hawake.inv.locks u .bsem).2 hu.holds
  rw [hfree] at this
  cases this

/-- The other thread goes to sleep in `bsem_down` of the first entry. -/
def runBlock (t : Bool) : List (Act Bool) := .call t (.down 0) :: List.replicate 5 (.go t)

/-- One thread sleeps until the other one releases the semaphore. -/
theorem no_sleeper_when_unlocked_two :
    ∃ s, runWhen (step twoProcs) Unwaited init
        (runAlloc true ++ runDown true ++ runBlock false ++ runUp true) = some s ∧
      s.lock .bsem = none ∧ (s.bsems 0).unlocked = true ∧
      ∀ t, ¬ (s.state t = .sleeping ∧ s.chan t = some 0) := by
  obtain ⟨s, hs, he⟩ : ∃ s ∈ runWhen (step twoProcs) Unwaited init
      (runAlloc true ++ runDown true ++ runBlock false ++ runUp true), s.lock .bsem = none ∧
      (s.bsems 0).unlocked = true := by decide +kernel
  exact ⟨s, hs, he.1, he.2,
    no_sleeper_when_unlocked (reach_of_runWhen hs) he.1 he.2⟩

/-- The semaphore is freed while a thread sleeps on it, and allocated again. -/
def runFree (t : Bool) : List (Act Bool) := .call t (.free 0) :: List.replicate 2 (.go t)

theorem sleeper_on_unlocked :
    ∃ tr s, Reach (step twoProcs) Always (init : Sys Bool) tr s ∧
      s.lock .bsem = none ∧ (s.bsems 0).unlocked = true ∧
      s.state false = .sleeping ∧ s.chan false = some 0 := by
  obtain ⟨s, hs, he⟩ : ∃ s ∈ run (step twoProcs) init
      (runAlloc true ++ runDown true ++ runBlock false ++ runFree true ++ runAlloc true),
      s.lock .bsem = none ∧ (s.bsems 0).unlocked = true ∧ s.state false = .sleeping ∧
      s.chan false = some 0 := by decide
  exact ⟨_, s, reach_always hs, he.1, he.2.1, he.2.2.1, he.2.2.2⟩

end Sys

end Xv6.Sem
