import Xv6.Pipe.Model

/-!
# Sleepers on a pipe

While the lock of a pipe is free, readers sleep only on an empty pipe that is open for writing, and
writers only on a full pipe that is open for reading.  A writer that is killed after it has stored
bytes leaves without a wakeup, so this takes that a process is not marked as killed while one of its
threads has the lock in `pipewrite`.
-/

namespace Xv6.Pipe

open Function Transition Pos Option

variable {T P : Type} {s s' : Pipe T P}

/-- Readers sleep on an empty pipe only. -/
def ReadersWait (s : Pipe T P) : Prop :=
  ∀ t n, s.pos t = .readSleep n → s.nread = s.nwrite ∧ s.writeopen = true

/-- Writers sleep on a full pipe only. -/
def WritersWait (s : Pipe T P) : Prop :=
  ∀ t n i, s.pos t = .writeSleep n i →
    s.nwrite = s.nread + BitVec.ofNat 32 PIPESIZE ∧ s.readopen = true

/-- A process is not marked as killed while one of its threads has the lock in `pipewrite`. -/
def SparesWriter (proc : T → P) (s : Pipe T P) : Act T P → Prop
  | .kill p => ∀ t n i, s.pos t = .writing n i → proc t ≠ p
  | _ => True

/-- The positions with the lock. -/
def Pos.inside : Pos → Bool
  | .writing _ _ => true
  | .waiting _ => true
  | .copying _ _ => true
  | _ => false

structure Inv (proc : T → P) (s : Pipe T P) : Prop where
  holder : ∀ t, (s.pos t).inside = true → s.lock = some t
  /-- Readers sleep with reason, or a writer with the lock will wake them. -/
  readers : s.ReadersWait ∨
    ∃ t n i, s.pos t = .writing n i ∧ s.killed (proc t) = false ∧ s.readopen = true
  /-- Writers sleep with reason, or a reader with the lock will wake them. -/
  writers : s.WritersWait ∨ ∃ t n i, s.pos t = .copying n i

theorem inv_start (proc : T → P) (k : UInt) : Inv proc (start k : Pipe T P) where
  holder _ h := nomatch h
  readers := .inl fun _ _ h => nomatch h
  writers := .inl fun _ _ _ h => nomatch h

theorem ReadersWait.mono (h : s.ReadersWait)
    (hpos : ∀ t n, s'.pos t = .readSleep n → s.pos t = .readSleep n)
    (hread : s'.nread = s.nread) (hwrite : s'.nwrite = s.nwrite)
    (hopen : s'.writeopen = s.writeopen) : s'.ReadersWait := fun t n ht => by
  rw [hread, hwrite, hopen]
  exact h t n (hpos t n ht)

theorem WritersWait.mono (h : s.WritersWait)
    (hpos : ∀ t n i, s'.pos t = .writeSleep n i → s.pos t = .writeSleep n i)
    (hread : s'.nread = s.nread) (hwrite : s'.nwrite = s.nwrite)
    (hopen : s'.readopen = s.readopen) : s'.WritersWait := fun t n i ht => by
  rw [hread, hwrite, hopen]
  exact h t n i (hpos t n i ht)

theorem Pos.wakeRead_ne (p : Pos) (n : ℤ) : p.wakeRead ≠ .readSleep n := by
  cases p <;> nofun

theorem Pos.wakeWrite_ne (p : Pos) (n : ℤ) (i : ℕ) : p.wakeWrite ≠ .writeSleep n i := by
  cases p <;> nofun

theorem Pos.wakeRead_eq {p q : Pos} (h : p.wakeRead = q) (hq : ∀ n, q ≠ .readWoken n) : p = q := by
  cases p with
  | readSleep n => exact absurd h.symm (hq n)
  | _ => exact h

theorem Pos.wakeWrite_eq {p q : Pos} (h : p.wakeWrite = q) (hq : ∀ n i, q ≠ .writeWoken n i) :
    p = q := by
  cases p with
  | writeSleep n i => exact absurd h.symm (hq n i)
  | _ => exact h

theorem Pos.inside_wakeRead (p : Pos) : p.wakeRead.inside = p.inside := by
  cases p <;> rfl

theorem Pos.inside_wakeWrite (p : Pos) : p.wakeWrite.inside = p.inside := by
  cases p <;> rfl

namespace Inv

variable {proc : T → P} {t u : T}

theorem unique (h : Inv proc s) (ht : (s.pos t).inside = true) (hu : (s.pos u).inside = true) :
    t = u := some.inj ((h.holder t ht).symm.trans (h.holder u hu))

theorem outside (h : Inv proc s) (hlock : s.lock = none) : ¬ (s.pos t).inside = true := by
  intro ht
  rw [h.holder t ht] at hlock
  cases hlock

/-- Unless a writer has the lock, readers sleep with reason. -/
theorem readersWait (h : Inv proc s)
    (hno : ∀ t n i, s.pos t = .writing n i → s.killed (proc t) = false → s.readopen = true →
      False) :
    s.ReadersWait :=
  h.readers.resolve_right fun ⟨t, n, i, hp, hk, hr⟩ => hno t n i hp hk hr

/-- Unless a reader has the lock, writers sleep with reason. -/
theorem writersWait (h : Inv proc s) (hno : ∀ t n i, s.pos t ≠ .copying n i) : s.WritersWait :=
  h.writers.resolve_right fun ⟨t, n, i, hp⟩ => hno t n i hp

/-- **No sleeper is stranded** while the lock is free. -/
theorem free (h : Inv proc s) (hlock : s.lock = none) : s.ReadersWait ∧ s.WritersWait := by
  refine ⟨h.readersWait fun t n i hp _ _ => ?_, h.writersWait fun t n i hp => ?_⟩
  · exact h.outside (t := t) hlock (by rw [hp]; rfl)
  · exact h.outside (t := t) hlock (by rw [hp]; rfl)

theorem release (h : Inv proc s) (ht : (s.pos t).inside = true)
    (hpos : ∀ u, u ≠ t → (s'.pos u).inside = (s.pos u).inside)
    (hself : (s'.pos t).inside = false) (hr : s'.ReadersWait) (hw : s'.WritersWait) :
    Inv proc s' where
  holder u hu := by
    by_cases hut : u = t
    · rw [hut, hself] at hu
      cases hu
    · rw [hpos u hut] at hu
      exact absurd (h.unique hu ht) hut
  readers := .inl hr
  writers := .inl hw

variable [DecidableEq T] {p : Pos}

omit proc in
/-- A thread is at `q'` after a move of `t` to another position only if it was there before. -/
theorem of_update {f : T → Pos} {q q' : Pos} (hu : update f t q u = q') (hne : q ≠ q') :
    u ≠ t ∧ f u = q' := by
  by_cases hut : u = t
  · subst hut
    rw [update_self] at hu
    exact absurd hu hne
  · rw [update_of_ne hut] at hu
    exact ⟨hut, hu⟩

section

variable (h : Inv proc s)

include h

/-- A thread without the lock goes on to a position where it neither has the lock nor sleeps. -/
theorem move (ht : (s.pos t).inside = false) (hp : p.inside = false)
    (hread : ∀ n, p ≠ .readSleep n) (hwrite : ∀ n i, p ≠ .writeSleep n i) :
    Inv proc (s.goto t p) := by
  have hkeep : ∀ {u}, (s.pos u).inside = true → (s.goto t p).pos u = s.pos u := by
    intro u hu
    refine update_of_ne ?_ ..
    rintro rfl
    rw [ht] at hu
    cases hu
  refine ⟨fun u hu => ?_, ?_, ?_⟩
  · have hne : p ≠ (s.goto t p).pos u := fun heq => by
      rw [← heq, hp] at hu
      cases hu
    have hsame : s.pos u = (s.goto t p).pos u := (of_update (t := t) rfl hne).2
    exact h.holder u (by rw [hsame]; exact hu)
  · rcases h.readers with hr | ⟨u, n, i, hu, hk, ho⟩
    · exact .inl (hr.mono (fun u n hu => (of_update hu (hread n)).2) rfl rfl rfl)
    · exact .inr ⟨u, n, i, (hkeep (by rw [hu]; rfl)).trans hu, hk, ho⟩
  · rcases h.writers with hw | ⟨u, n, i, hu⟩
    · exact .inl (hw.mono (fun u n i hu => (of_update hu (hwrite n i)).2) rfl rfl rfl)
    · exact .inr ⟨u, n, i, (hkeep (by rw [hu]; rfl)).trans hu⟩

theorem acquire (hs : s.acquire t p = some s') (hread : ∀ n, p ≠ .readSleep n)
    (hwrite : ∀ n i, p ≠ .writeSleep n i) : Inv proc s' := by
  unfold Pipe.acquire at hs
  split_ifs at hs with hlock
  cases hs
  have hnone := isNone_iff_eq_none.1 hlock
  obtain ⟨hr, hw⟩ := h.free hnone
  refine ⟨fun u hu => ?_, .inl (hr.mono ?_ rfl rfl rfl), .inl (hw.mono ?_ rfl rfl rfl)⟩
  · by_cases hut : u = t
    · rw [hut]
      rfl
    · change (update s.pos t p u).inside = true at hu
      rw [update_of_ne hut] at hu
      exact absurd hu (h.outside hnone)
  · exact fun u n hu => (of_update hu (hread n)).2
  · exact fun u n i hu => (of_update hu (hwrite n i)).2

/-- The thread with the lock goes on without giving it back. -/
theorem holder_goto (ht : (s.pos t).inside = true) (q : Pos) (u : T)
    (hu : (update s.pos t q u).inside = true) : s.lock = some u := by
  by_cases hut : u = t
  · rw [hut]
    exact h.holder t ht
  · rw [update_of_ne hut] at hu
    exact h.holder u hu

/-- A turn of the loop of `pipewrite`. -/
theorem writeStep {n : ℤ} {i : ℕ} (hp : s.pos t = .writing n i)
    (copyin : Option Byte) : Inv proc (s.writeStep proc t n i copyin) := by
  have ht : (s.pos t).inside = true := by rw [hp]; rfl
  have hw : s.WritersWait := h.writersWait fun u m j hu => by
    have heq := h.unique (u := u) ht (by rw [hu]; rfl)
    rw [← heq, hp] at hu
    cases hu
  -- the exits that wake the readers
  have hwakes : ∀ q : Pos, q.inside = false → (∀ m, q ≠ .readSleep m) → ∀ s' : Pipe T P,
      s'.pos = update s.wakeRead.pos t q → s'.WritersWait → Inv proc s' := by
    intro q hq hread s' hpos hw'
    refine h.release ht (fun u hut => ?_) ?_ ?_ hw'
    · rw [hpos, update_of_ne hut]
      exact inside_wakeRead _
    · rw [hpos, update_self]
      exact hq
    · intro u m hu
      rw [hpos] at hu
      exact absurd (of_update hu (hread m)).2 (wakeRead_ne _ m)
  have hreturns : Inv proc (s.wakeRead.leave t i) := by
    refine hwakes .idle rfl (fun _ => nofun) _ rfl (hw.mono (fun u m j hu => ?_) rfl rfl rfl)
    exact wakeRead_eq (of_update hu nofun).2 nofun
  unfold Pipe.writeStep
  split_ifs with hi hleave hfull
  · -- the exit without a wakeup: no byte has been stored since the lock was taken
    refine h.release ht (fun u hut => ?_) ?_ ?_ ?_
    · exact congrArg inside (update_of_ne hut _ _)
    · exact congrArg inside (update_self t idle s.pos)
    · refine (h.readersWait ?_).mono (fun u m hu => (of_update hu nofun).2) rfl rfl rfl
      intro u m j hu hk ho
      have heq := h.unique (u := u) ht (by rw [hu]; rfl)
      subst heq
      rcases hleave with hclosed | hkilled
      · rw [ho] at hclosed
        cases hclosed
      · rw [hk] at hkilled
        cases hkilled
    · exact hw.mono (fun u m j hu => (of_update hu nofun).2) rfl rfl rfl
  · refine hwakes (.writeSleep n i) rfl (fun _ => nofun) _ rfl fun u m j hu => ?_
    exact ⟨hfull, Bool.eq_true_of_not_eq_false fun hc => hleave (.inl hc)⟩
  · cases copyin with
    | none => exact hreturns
    | some ch =>
      -- a byte is stored: no writer sleeps, and this one will wake the readers
      refine ⟨h.holder_goto ht _, .inr ⟨t, n, i + 1, update_self .., ?_, ?_⟩, .inl ?_⟩
      · exact Bool.eq_false_iff.2 fun hk => hleave (.inr hk)
      · exact Bool.eq_true_of_not_eq_false fun hc => hleave (.inl hc)
      · exact fun u m j hu => absurd (hw u m j (of_update hu nofun).2).1 hfull
  · exact hreturns

/-- A turn of the first loop of `piperead`. -/
theorem waitStep {n : ℤ} (hp : s.pos t = .waiting n) : Inv proc (s.waitStep proc t n) := by
  have ht : (s.pos t).inside = true := by rw [hp]; rfl
  have halone : ∀ u, (s.pos u).inside = true → s.pos u = .waiting n := fun u hu => by
    rw [h.unique hu ht, hp]
  have hr : s.ReadersWait := h.readersWait fun u m i hu _ _ => by
    have heq := halone u (by rw [hu]; rfl)
    rw [hu] at heq
    cases heq
  have hw : s.WritersWait := h.writersWait fun u m i hu => by
    have heq := halone u (by rw [hu]; rfl)
    rw [hu] at heq
    cases heq
  unfold Pipe.waitStep
  split_ifs with hempty hkilled
  · refine h.release ht (fun u hut => ?_) ?_ ?_ ?_
    · exact congrArg inside (update_of_ne hut _ _)
    · exact congrArg inside (update_self t idle s.pos)
    · exact hr.mono (fun u m hu => (of_update hu nofun).2) rfl rfl rfl
    · exact hw.mono (fun u m j hu => (of_update hu nofun).2) rfl rfl rfl
  · refine h.release ht (fun u hut => ?_) ?_ (fun _ _ _ => hempty) ?_
    · exact congrArg inside (update_of_ne hut _ _)
    · exact congrArg inside (update_self t (readSleep n) s.pos)
    · exact hw.mono (fun u m j hu => (of_update hu nofun).2) rfl rfl rfl
  · refine ⟨h.holder_goto ht _, .inl ?_, .inl ?_⟩
    · exact hr.mono (fun u m hu => (of_update hu nofun).2) rfl rfl rfl
    · exact hw.mono (fun u m j hu => (of_update hu nofun).2) rfl rfl rfl

/-- A turn of the second loop of `piperead`. -/
theorem copyStep {n : ℤ} {i : ℕ} (hp : s.pos t = .copying n i) (copyout : Bool) :
    Inv proc (s.copyStep t n i copyout) := by
  have ht : (s.pos t).inside = true := by rw [hp]; rfl
  have hr : s.ReadersWait := h.readersWait fun u m j hu _ _ => by
    have heq := h.unique (u := u) ht (by rw [hu]; rfl)
    rw [← heq, hp] at hu
    cases hu
  -- the exits wake the writers
  have hwakes : ∀ s' : Pipe T P, s'.pos = update s.wakeWrite.pos t .idle →
      s'.ReadersWait → Inv proc s' := by
    intro s' hpos hr'
    refine h.release ht (fun u hut => ?_) ?_ hr' ?_
    · rw [hpos, update_of_ne hut]
      exact inside_wakeWrite _
    · rw [hpos, update_self]
      rfl
    · intro u m j hu
      rw [hpos] at hu
      exact absurd (of_update hu nofun).2 (wakeWrite_ne _ m j)
  have hasleep : ∀ {u m}, update s.wakeWrite.pos t .idle u = .readSleep m →
      s.pos u = .readSleep m := fun hu => wakeWrite_eq (of_update hu nofun).2 nofun
  unfold Pipe.copyStep
  split_ifs with hi hout
  · -- a byte is taken: no reader sleeps
    refine ⟨h.holder_goto ht _, .inl fun u m hu => ?_, .inr ⟨t, n, i + 1, ?_⟩⟩
    · exact absurd (hr u m (of_update hu nofun).2).1 hi.2
    · exact update_self ..
  · exact hwakes _ rfl fun u m hu => absurd (hr u m (hasleep hu)).1 hi.2
  · exact hwakes _ rfl (hr.mono (fun u m hu => hasleep hu) rfl rfl rfl)

omit [DecidableEq T] in
theorem pipeclose (hlock : s.lock = none) (writable : Bool) : Inv proc (s.pipeclose writable) := by
  obtain ⟨hr, hw⟩ := h.free hlock
  cases writable with
  | true =>
    refine ⟨fun u hu => ?_, .inl fun u m hu => ?_, .inl (hw.mono (fun u m i hu => ?_) rfl rfl rfl)⟩
    · exact absurd ((inside_wakeRead _).symm.trans hu) (h.outside hlock)
    · exact absurd hu (wakeRead_ne _ m)
    · exact wakeRead_eq hu nofun
  | false =>
    refine ⟨fun u hu => ?_, .inl (hr.mono (fun u m hu => ?_) rfl rfl rfl), .inl fun u m i hu => ?_⟩
    · exact absurd ((inside_wakeWrite _).symm.trans hu) (h.outside hlock)
    · exact wakeWrite_eq hu nofun
    · exact absurd hu (wakeWrite_ne _ m i)

end

variable [DecidableEq P]

omit [DecidableEq T] in
/-- A process is marked as killed while none of its threads has the lock in `pipewrite`. -/
theorem kill (h : Inv proc s) {p : P} (hG : ∀ t n i, s.pos t = .writing n i → proc t ≠ p) :
    Inv proc { s with killed := update s.killed p true } where
  holder := h.holder
  readers := by
    refine h.readers.imp_right ?_
    rintro ⟨t, n, i, hp, hk, ho⟩
    refine ⟨t, n, i, hp, ?_, ho⟩
    exact (update_of_ne (hG t n i hp) ..).trans hk
  writers := h.writers

theorem step (h : Inv proc s) {a : Act T P} (hG : SparesWriter proc s a)
    (hs : s.step proc a = some s') : Inv proc s' := by
  cases a with
  | pipewrite t n | piperead t n =>
    simp only [Pipe.step] at hs
    split_ifs at hs with hidle
    cases hs
    exact h.move (by rw [hidle]; rfl) rfl nofun nofun
  | go t copyin copyout =>
    simp only [Pipe.step, Pipe.go] at hs
    split at hs
    · exact h.acquire hs nofun nofun
    · next n i hp =>
      cases hs
      exact h.writeStep hp copyin
    · exact h.acquire hs nofun nofun
    · exact h.acquire hs nofun nofun
    · next n hp =>
      cases hs
      exact h.waitStep hp
    · exact h.acquire hs nofun nofun
    · next n i hp =>
      cases hs
      exact h.copyStep hp copyout
    · cases hs
  | pipeclose t writable =>
    simp only [Pipe.step] at hs
    split_ifs at hs with hfree
    cases hs
    exact h.pipeclose (isNone_iff_eq_none.1 hfree.2) writable
  | kill p =>
    cases hs
    exact h.kill hG
  | rouse t =>
    simp only [Pipe.step] at hs
    split at hs
    · next n hp =>
      cases hs
      exact h.move (by rw [hp]; rfl) rfl nofun nofun
    · next n i hp =>
      cases hs
      exact h.move (by rw [hp]; rfl) rfl nofun nofun
    · cases hs

end Inv

section

variable [DecidableEq T] [DecidableEq P] {proc : T → P} {k : UInt} {tr : List (Act T P)}

/-- **No sleeper is stranded**, if no process is marked as killed while one of its threads has the
lock in `pipewrite`: while the lock is free, a reader sleeps only on an empty pipe that is open for
writing, and a writer only on a full pipe that is open for reading. -/
theorem no_sleeper_stranded
    (h : Reach (step proc) (SparesWriter proc) (start k) tr s) (hlock : s.lock = none) :
    (∀ t n, s.pos t = .readSleep n → s.nread = s.nwrite ∧ s.writeopen = true) ∧
    ∀ t n i, s.pos t = .writeSleep n i →
      s.nwrite = s.nread + BitVec.ofNat 32 PIPESIZE ∧ s.readopen = true := by
  have hinv : Inv proc s :=
    h.state_invariant (inv_start proc k) fun _ _ _ hi hG hs => hi.step hG hs
  exact hinv.free hlock

end

/-- A reader sleeps, and the process of a writer is killed. -/
theorem no_sleeper_stranded_read : ∃ s : Pipe (Fin 2) (Fin 2),
    Reach (step id) (SparesWriter id) (start 0)
      [.kill 0, .go 1 none true, .go 1 none true, .piperead 1 1] s ∧
    s.lock = none ∧ s.pos 1 = .readSleep 1 ∧ s.nread = s.nwrite ∧ s.writeopen = true := by
  obtain ⟨s, hs, hlock, hidle, hsleep⟩ : ∃ s ∈ run (step id) (start 0) ([.piperead 1 1,
      .go 1 none true, .go 1 none true] : List (Act (Fin 2) (Fin 2))), s.lock = none ∧
      s.pos 0 = .idle ∧ s.pos 1 = .readSleep 1 := by decide
  have hreach : Reach (step id) (SparesWriter id) (start 0)
      [.go 1 none true, .go 1 none true, .piperead 1 1] s := by
    refine reach_of_run (fun u a ha => ?_) hs
    simp only [List.mem_cons, List.not_mem_nil, or_false] at ha
    rcases ha with rfl | rfl | rfl <;> trivial
  have hspares : SparesWriter id s (.kill 0) := by
    intro t n i ht hzero
    have ht0 : t = 0 := hzero
    rw [ht0, hidle] at ht
    cases ht
  have hkilled := hreach.cons hspares rfl
  exact ⟨_, hkilled, hlock, hsleep, (no_sleeper_stranded hkilled hlock).1 1 1 hsleep⟩

/-- A reader sleeps; a writer stores a byte, is killed, and leaves without a wakeup. -/
theorem reader_stranded : ∃ s : Pipe (Fin 2) (Fin 2),
    Reach (step id) Always (start 0)
      [.go 0 none true, .kill 0, .go 0 (some 97) true, .go 0 none true, .pipewrite 0 2,
        .go 1 none true, .go 1 none true, .piperead 1 1] s ∧
    s.lock = none ∧ s.pos 1 = .readSleep 1 ∧ s.nread ≠ s.nwrite := by
  obtain ⟨s, hs, hlock, hsleep, hread, hwrite⟩ : ∃ s ∈ run (step id) (start 0) ([.piperead 1 1,
      .go 1 none true, .go 1 none true, .pipewrite 0 2, .go 0 none true, .go 0 (some 97) true,
      .kill 0, .go 0 none true] : List (Act (Fin 2) (Fin 2))), s.lock = none ∧
      s.pos 1 = .readSleep 1 ∧ s.nread = 0 ∧ s.nwrite = 1 := by decide
  refine ⟨s, reach_always hs, hlock, hsleep, ?_⟩
  rw [hread, hwrite]
  decide

end Xv6.Pipe
