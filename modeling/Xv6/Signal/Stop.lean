import Xv6.Signal.Kill

/-!
# Stopped and killed processes at the return to user mode

`handle_pendding_sinals` holds a frozen process back in the loop at its start; `usertrap` ends a
killed one before `usertrapret`.  The loop over the signals comes after both, and nothing looks at
`p->frozen` or `p->killed` between it and user mode.
-/

namespace Xv6

open Option Function

section

variable {p q : Proc} {t : ThreadId} {i : Fin 32} {a : Action}

theorem enterUser_flags {hart : Hart} (h : enterUser hart p t = .user q) :
    q.frozen = p.frozen ∧ q.killed = p.killed := by
  unfold enterUser at h
  split at h
  · cases h
  · cases h
    exact ⟨rfl, rfl⟩

theorem userhandler_flags {stub : List Byte} (h : userhandler stub p t i = some q) :
    q.frozen = p.frozen ∧ q.killed = p.killed := by
  obtain ⟨f, -, h⟩ := bind_eq_some_iff.1 h
  obtain ⟨b, -, h⟩ := bind_eq_some_iff.1 h
  obtain ⟨m, -, h⟩ := bind_eq_some_iff.1 h
  cases h
  exact ⟨rfl, rfl⟩

theorem perform_frozen (gap : UInt) (hp : p.frozen ≠ 1) :
    (perform p gap i a).frozen ≠ 1 ↔ a ≠ .stop := by
  cases a with
  | kill | ignore | deliver => exact iff_of_true hp nofun
  | stop => exact iff_of_false (fun h => h rfl) fun h => h rfl
  | cont => exact iff_of_true (show (0 : ℤ) ≠ 1 by decide) nofun

theorem perform_killed (gap : UInt) :
    (perform p gap i a).killed = 0 ↔ p.killed = 0 ∧ a ≠ .kill := by
  cases a with
  | kill => exact iff_of_false (show ¬ (1 : ℤ) = 0 by decide) fun h => h.2 rfl
  | stop | cont | ignore | deliver => exact ⟨fun h => ⟨h, nofun⟩, And.left⟩

/-- How `handle_pendding_sinals` returns: after the freeze loop, which leaves the process as `s`,
it acts on the first signal that the loop over the signals comes to, if any. -/
theorem handled_cases {gaps : List UInt} {r : Option (Fin 32)}
    (h : handlePenddingSinals gaps p t = .done r q) :
    ∃ rest s th, freezeLoop gaps p = some (rest, s) ∧
      (scan s = none ∧ q = { s with threads := th } ∨
        ∃ i a, scan s = some (i, a) ∧ q = perform { s with threads := th } rest.headI i a) := by
  unfold handlePenddingSinals at h
  split at h
  · cases h
  next p1 hsave =>
  obtain ⟨f, -, hsave⟩ := bind_eq_some_iff.1 hsave
  obtain ⟨b, -, hsave⟩ := bind_eq_some_iff.1 hsave
  cases hsave
  simp only [Proc.setThread, freezeLoop_threads] at h
  cases hloop : freezeLoop gaps p with
  | none =>
    rw [hloop] at h
    cases h
  | some rs =>
    obtain ⟨rest, s⟩ := rs
    rw [hloop] at h
    simp only [map_some] at h
    have hscan : ∀ th, scan { s with threads := th } = scan s := fun _ => scan_congr fun _ => rfl
    rw [hscan] at h
    refine ⟨rest, s, update p.threads t
      { p.threads t with userTrapFrameBackup := some f }, rfl, ?_⟩
    split at h
    next hnone =>
      cases h
      exact .inl ⟨hnone, rfl⟩
    next i hsome =>
      cases h
      exact .inr ⟨i, .deliver, hsome, rfl⟩
    next i a _ hsome =>
      cases h
      exact .inr ⟨i, a, hsome, rfl⟩

/-- The pending signals once those of `gaps` have arrived. -/
def Proc.sent (p : Proc) (gaps : List UInt) : UInt := gaps.foldl (· ||| ·) p.penddingSignals

/-- The signals `w` are pending when the process is not, or no longer, frozen: a frozen process
waits for the first `SIGCONT`, which is taken off. -/
def Proc.Thawed (p : Proc) (gaps : List UInt) (w : UInt) : Prop :=
  if p.frozen = 1 then
    ∃ k < gaps.length, isSet (p.sent (gaps.take k)) SIGCONT ∧
      (∀ j < k, ¬ isSet (p.sent (gaps.take j)) SIGCONT) ∧
      w = p.sent (gaps.take (k + 1)) &&& ~~~sigBit SIGCONT
  else w = p.penddingSignals

/-- Signal `i` is to stop or to kill, by its number or by the value of its handler. -/
def Proc.Halts (p : Proc) (i : Fin 32) : Prop :=
  i = SIGKILL ∨ i = SIGSTOP ∨ p.signalHandlers i = sigHandler SIGSTOP ∨
    p.signalHandlers i = sigHandler SIGKILL ∨ p.signalHandlers i = SIG_DFL

/-- No signal is there to stop or to kill the process: when `signal_handling_flag` is zero, the
lowest-numbered signal that is due once the process is not frozen is not one of these; otherwise
no signal is looked at, and the process is not frozen to begin with. -/
def RetEnv.Spares (e : RetEnv) (p : Proc) : Prop :=
  if p.signalHandlingFlag = 0 then
    ∀ w, p.Thawed e.gaps w → ∀ i, { p with penddingSignals := w }.Next i → ¬ p.Halts i
  else p.frozen ≠ 1

theorem thawed_iff {gaps : List UInt} {w : UInt} : p.Thawed gaps w ↔
    ∃ rest s, freezeLoop gaps p = some (rest, s) ∧ s.penddingSignals = w := by
  induction gaps generalizing p with
  | nil =>
    unfold Proc.Thawed freezeLoop
    split_ifs with hf
    · simp
    · simp [eq_comm]
  | cons gap gaps ih =>
    unfold Proc.Thawed freezeLoop
    split_ifs with hf
    · unfold freezeTurn
      split_ifs with hcont
      · -- the loop is left
        have hthaw : ((p.arrive gap).sigContHandler.clearSignal SIGCONT).frozen ≠ 1 :=
          (by decide : (0 : ℤ) ≠ 1)
        dsimp only
        rw [freezeLoop_of_ne hthaw]
        constructor
        · rintro ⟨k, -, -, hno, rfl⟩
          obtain rfl : k = 0 := by
            by_contra hk
            exact hno 0 (Nat.pos_of_ne_zero hk) hcont
          exact ⟨_, _, rfl, rfl⟩
        · rintro ⟨_, _, h, rfl⟩
          cases h
          exact ⟨0, Nat.succ_pos _, hcont, fun j hj => absurd hj (Nat.not_lt_zero j), rfl⟩
      · rw [← ih, Proc.Thawed, if_pos (show (p.arrive gap).frozen = 1 from hf)]
        constructor
        · rintro ⟨k, hk, hset, hno, rfl⟩
          cases k with
          | zero => exact absurd hset hcont
          | succ k =>
            exact ⟨k, Nat.lt_of_succ_lt_succ hk, hset,
              fun j hj => hno (j + 1) (Nat.succ_lt_succ hj), rfl⟩
        · rintro ⟨k, hk, hset, hno, rfl⟩
          refine ⟨k + 1, Nat.succ_lt_succ hk, hset, fun j hj => ?_, rfl⟩
          cases j with
          | zero => exact hcont
          | succ j => exact hno j (Nat.lt_of_succ_lt_succ hj)
    · simp [eq_comm]

/-- What is done with a signal that stops or kills. -/
theorem dispatch_halts (h : dispatch p i = some a) : a = .stop ∨ a = .kill ↔ p.Halts i := by
  simp only [dispatch] at h
  unfold Proc.Halts
  split_ifs at h with _ hk hs _ hign hstop hcont hkill <;> cases h
  · simp [hk]
  · simp [hs]
  · simp [hk, hs, hign]
    decide
  · simp [hstop]
  · simp [hk, hs, hcont]
    decide
  · simp [hkill]
  · simp [hk, hs, hstop, not_or.1 hkill]

theorem spares_iff {e : RetEnv} {rest : List UInt} {s : Proc} (hflag : p.signalHandlingFlag = 0)
    (hloop : freezeLoop e.gaps p = some (rest, s)) :
    e.Spares p ↔ ∀ i a, scan s = some (i, a) → a ≠ .stop ∧ a ≠ .kill := by
  obtain ⟨-, hs⟩ := freezeLoop_spec hloop
  have hsflag : s.signalHandlingFlag = 0 := by rw [hs]; exact hflag
  have hnext : ∀ i, { p with penddingSignals := s.penddingSignals }.Next i ↔ s.Next i := by
    intro i
    rw [hs]
    rfl
  have hhalts : ∀ i, s.Halts i ↔ p.Halts i := by
    intro i
    rw [hs]
    rfl
  rw [RetEnv.Spares, if_pos hflag]
  constructor
  · intro h i a hscan
    obtain ⟨hi, hbefore⟩ := scan_eq_some hscan
    have hdue : s.Next i := ⟨(dispatch_isSome_iff_due hsflag).1 (by rw [hi]; rfl),
      fun j hj => (dispatch_eq_none_iff hsflag).1 (hbefore j hj)⟩
    have hno := h _ (thawed_iff.2 ⟨rest, s, hloop, rfl⟩) i ((hnext i).2 hdue)
    rw [← hhalts, ← dispatch_halts hi] at hno
    exact not_or.1 hno
  · intro h w hw i hi hhalt
    obtain ⟨rest', s', hloop', rfl⟩ := thawed_iff.1 hw
    cases hloop.symm.trans hloop'
    have hdue := (hnext i).1 hi
    obtain ⟨a, ha⟩ := isSome_iff_exists.1 ((dispatch_isSome_iff_due hsflag).2 hdue.1)
    have hscan := scan_of_dispatch ha fun j hj => (dispatch_eq_none_iff hsflag).2 (hdue.2 j hj)
    obtain ⟨hstop, hkill⟩ := h i a hscan
    exact ((dispatch_halts ha).2 ((hhalts i).2 hhalt)).elim hstop hkill

/-- The part of `usertrapret` after `handle_pendding_sinals` has returned. -/
theorem usertrapret_cases {e : RetEnv} (hflag : p.signalHandlingFlag = 0)
    (h : usertrapret e p t = .user q) :
    ∃ r q1, handlePenddingSinals e.gaps p t = .done r q1 ∧
      q.frozen = q1.frozen ∧ q.killed = q1.killed := by
  unfold usertrapret at h
  rw [if_pos hflag] at h
  split at h
  · cases h
  · cases h
  next q1 hdone => exact ⟨none, q1, hdone, enterUser_flags h⟩
  next i q1 hdone =>
    split at h
    · cases h
    next q2 hq2 =>
      obtain ⟨hf, hk⟩ := enterUser_flags h
      obtain ⟨hf2, hk2⟩ := userhandler_flags hq2
      exact ⟨some i, q1, hdone, hf.trans hf2, hk.trans hk2⟩

/-- **Entry to user mode.**  For every process and every set of pending and arriving signals: when
`usertrapret` goes to user mode, the process is neither frozen nor killed if and only if it was not
killed before the call and no signal is there to stop or to kill it. -/
theorem user_entry_iff {e : RetEnv} (h : usertrapret e p t = .user q) :
    q.frozen ≠ 1 ∧ q.killed = 0 ↔ p.killed = 0 ∧ e.Spares p := by
  by_cases hflag : p.signalHandlingFlag = 0
  · obtain ⟨r, q₁, hdone, hf, hk⟩ := usertrapret_cases hflag h
    obtain ⟨rest, s, th, hloop, hcases⟩ := handled_cases hdone
    obtain ⟨hfrozen, hs⟩ := freezeLoop_spec hloop
    have hkilled : s.killed = p.killed := by rw [hs]
    rw [hf, hk, spares_iff hflag hloop]
    rcases hcases with ⟨hnone, rfl⟩ | ⟨i, a, hsome, rfl⟩
    · refine ⟨fun hq => ⟨hkilled ▸ hq.2, fun i a hscan => ?_⟩,
        fun hp => ⟨hfrozen, hkilled.trans hp.1⟩⟩
      rw [hnone] at hscan
      cases hscan
    · rw [perform_frozen (p := { s with threads := th }) rest.headI hfrozen, perform_killed]
      refine ⟨fun ⟨hstop, hp, hkill⟩ => ⟨hkilled ▸ hp, fun i' a' hscan => ?_⟩, fun hp => ?_⟩
      · rw [hsome] at hscan
        cases hscan
        exact ⟨hstop, hkill⟩
      · obtain ⟨hstop, hkill⟩ := hp.2 i a hsome
        exact ⟨hstop, hkilled.trans hp.1, hkill⟩
  · have henter : enterUser e.hart p t = .user q := by
      rwa [usertrapret, if_neg hflag] at h
    obtain ⟨hf, hk⟩ := enterUser_flags henter
    rw [hf, hk, RetEnv.Spares, if_neg hflag, and_comm]

end

/-- A process with an ignored signal pending. -/
def ignoring : Proc :=
  { interrupted 0 with signalHandlers := update (fun _ => SIG_DFL) 1 SIG_IGN }

theorem user_entry_ignored :
    ∃ q, usertrapret quietReturn ignoring 0 = .user q ∧ q.frozen ≠ 1 ∧ q.killed = 0 := by
  refine ⟨_, rfl, (user_entry_iff (e := quietReturn) (p := ignoring) (t := 0) rfl).2 ⟨rfl, ?_⟩⟩
  rw [RetEnv.Spares, if_pos (by rfl)]
  rintro w hw i ⟨⟨hi, -⟩, -⟩
  obtain rfl : w = sigBit 1 := hw
  obtain rfl : i = 1 := by
    revert hi
    simp
  unfold Proc.Halts
  decide

/-- `SIGSTOP`, a handler value `SIGSTOP` and `SIGKILL`: `usertrapret` acts on the signal and goes
to user mode, frozen or killed. -/
theorem user_entry_stopped :
    (∃ q, usertrapret quietReturn { interrupted 0 with penddingSignals := sigBit SIGSTOP } 0 =
      .user q ∧ q.frozen = 1 ∧ q.penddingSignals = 0) ∧
    (∃ q, usertrapret quietReturn
      { interrupted 0 with
        signalHandlers := update (fun _ => SIG_DFL) 1 (sigHandler SIGSTOP) } 0 =
      .user q ∧ q.frozen = 1 ∧ q.penddingSignals = 0) ∧
    ∃ q, usertrapret quietReturn { interrupted 0 with penddingSignals := sigBit SIGKILL } 0 =
      .user q ∧ q.killed = 1 ∧ q.penddingSignals = 0 :=
  ⟨⟨_, rfl, rfl, by decide⟩, ⟨_, rfl, rfl, by decide⟩, ⟨_, rfl, rfl, by decide⟩⟩

end Xv6
