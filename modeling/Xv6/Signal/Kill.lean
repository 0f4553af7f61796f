import Xv6.Signal.Dispatch

/-!
# A pending `SIGKILL` on the way to user mode

`SIGKILL` has no mask bit and no table entry that `handle_pendding_sinals` would look at.  Two
gates of the design postpone it: no signal is looked at while a user handler runs
(`signal_handling_flag`), and a pass acts on one signal only, the first in the order of the
loop.
-/

namespace Xv6

open Proc

theorem freezeLoop_threads (gaps : List UInt) (p : Proc) (th : ThreadId → Thread) :
    freezeLoop gaps { p with threads := th } =
      (freezeLoop gaps p).map fun r => (r.1, { r.2 with threads := th }) := by
  induction gaps generalizing p with
  | nil =>
    unfold freezeLoop
    split_ifs <;> rfl
  | cons gap gaps ih =>
    have hturn : freezeTurn { p with threads := th } gap =
        { freezeTurn p gap with threads := th } := by
      unfold freezeTurn
      split_ifs <;> rfl
    unfold freezeLoop
    split_ifs
    · rw [← ih (freezeTurn p gap), ← hturn]
    · rfl

/-- The freeze loop takes off no signal but `SIGCONT`. -/
theorem freezeLoop_pending {gaps rest : List UInt} {p s : Proc} {i : Fin 32} (hi : i ≠ SIGCONT)
    (h : freezeLoop gaps p = some (rest, s)) (hp : isSet p.penddingSignals i) :
    isSet s.penddingSignals i := by
  induction gaps generalizing p with
  | nil =>
    unfold freezeLoop at h
    split_ifs at h
    cases h
    exact hp
  | cons gap gaps ih =>
    unfold freezeLoop at h
    split_ifs at h
    · refine ih h ?_
      unfold freezeTurn
      split_ifs <;> simp [arrive, sigContHandler, clearSignal, hp, hi]
    · cases h
      exact hp

/-- The signals before `SIGKILL` are acted on when pending and not blocked. -/
theorem dispatch_isSome_iff {p : Proc} {j : Fin 32} (hflag : p.signalHandlingFlag = 0)
    (hj : j < SIGKILL) :
    (dispatch p j).isSome ↔ isSet p.penddingSignals j ∧ isSet p.signalMask j = false := by
  have hk : j ≠ SIGKILL := hj.ne
  have hs : j ≠ SIGSTOP := (hj.trans (by decide)).ne
  simp [dispatch_isSome_iff_due hflag, Proc.Due, hk, hs]

theorem dispatch_sigkill {p : Proc} (hflag : p.signalHandlingFlag = 0)
    (hp : isSet p.penddingSignals SIGKILL) : dispatch p SIGKILL = some .kill := by
  simp [dispatch, hflag, hp]

theorem perform_pending {p : Proc} {gap : UInt} {i k : Fin 32} (a : Action) (hk : k ≠ i)
    (hp : isSet p.penddingSignals k) : isSet (perform p gap i a).penddingSignals k := by
  rw [isSet_perform]
  cases a <;> simp [pendingAfter, hp, hk]

/-- The loop with `SIGKILL` pending: it is reached, or a signal before it is. -/
theorem scan_sigkill {p : Proc} (hflag : p.signalHandlingFlag = 0)
    (hp : isSet p.penddingSignals SIGKILL) :
    scan p = some (SIGKILL, .kill) ∧ (∀ j < SIGKILL, dispatch p j = none) ∨
      ∃ i a, i < SIGKILL ∧ scan p = some (i, a) ∧ (dispatch p i).isSome := by
  by_cases hbefore : ∀ j < SIGKILL, dispatch p j = none
  · exact .inl ⟨scan_of_dispatch (dispatch_sigkill hflag hp) hbefore, hbefore⟩
  · right
    cases hscan : scan p with
    | none => exact absurd (fun j _ => scan_eq_none.1 hscan j) hbefore
    | some ia =>
      obtain ⟨i, a⟩ := ia
      obtain ⟨hi, hlt⟩ := scan_eq_some hscan
      refine ⟨i, a, ?_, rfl, by simp [hi]⟩
      by_contra hge
      exact hbefore fun j hj => hlt j (lt_of_lt_of_le hj (not_lt.1 hge))

section

variable {e : RetEnv} {p : Proc} {t : ThreadId}

theorem usertrapret_done {q : Proc} {f : Trapframe} (hflag : p.signalHandlingFlag = 0)
    (h : handlePenddingSinals e.gaps p t = .done none q) (hf : (q.threads t).trapframe = some f) :
    ∃ r, usertrapret e p t = .user r ∧ r.killed = q.killed ∧
      r.penddingSignals = q.penddingSignals := by
  simp only [usertrapret, if_pos hflag, h, enterUser, hf]
  exact ⟨_, rfl, rfl, rfl⟩

/-- A pass after the freeze loop, with `SIGKILL` pending: it kills, unless it acts on a signal
before `SIGKILL`. -/
theorem usertrapret_sigkill {f : Trapframe} {m : UserMem} {rest : List UInt} {s : Proc}
    (hf : (p.threads t).trapframe = some f) (hb : (p.threads t).userTrapFrameBackup.isSome)
    (hm : p.pagetable = some m) (hflag : p.signalHandlingFlag = 0)
    (hpend : isSet p.penddingSignals SIGKILL) (hloop : freezeLoop e.gaps p = some (rest, s)) :
    ∃ q, usertrapret e p t = .user q ∧
      ((∀ j < SIGKILL, dispatch s j = none) ∧ q.killed = 1 ∨
        (∃ j < SIGKILL, (dispatch s j).isSome) ∧ isSet q.penddingSignals SIGKILL) := by
  obtain ⟨-, hs⟩ := freezeLoop_spec hloop
  have hsflag : s.signalHandlingFlag = 0 := by rw [hs]; exact hflag
  have hspend := freezeLoop_pending (i := SIGKILL) (by decide) hloop hpend
  -- the state that is scanned: `s` with the frame saved
  set th := Function.update p.threads t { p.threads t with userTrapFrameBackup := some f } with hth
  set s1 : Proc := { s with threads := th } with hs1
  have hsave : saveFrame p t = some { p with threads := th } := saveFrame_eq hf hb
  have hloop1 : freezeLoop e.gaps { p with threads := th } = some (rest, s1) := by
    rw [freezeLoop_threads, hloop]; rfl
  have hf1 : (s1.threads t).trapframe = some f := by simp [hs1, hth, hf]
  have hperform : ∀ i a, a ≠ .deliver → scan s1 = some (i, a) →
      ∃ q, usertrapret e p t = .user q ∧ q.killed = (perform s1 rest.headI i a).killed ∧
        q.penddingSignals = (perform s1 rest.headI i a).penddingSignals := by
    intro i a ha hscan
    have hdone : handlePenddingSinals e.gaps p t = .done none (perform s1 rest.headI i a) := by
      cases a with
      | deliver => exact absurd rfl ha
      | _ => simp only [handlePenddingSinals, hsave, hloop1, hscan]
    exact usertrapret_done hflag hdone ((perform_keeps _ _ _ _).1.trans hf1)
  rcases scan_sigkill (p := s1) hsflag hspend with ⟨hscan, hbefore⟩ | ⟨i, a, hi, hscan, hact⟩
  · obtain ⟨q, hq, hkilled, -⟩ := hperform _ _ (by decide) hscan
    exact ⟨q, hq, .inl ⟨hbefore, hkilled⟩⟩
  · have hne : SIGKILL ≠ i := hi.ne'
    by_cases ha : a = .deliver
    · subst ha
      have hdone : handlePenddingSinals e.gaps p t = .done (some i) s1 := by
        simp only [handlePenddingSinals, hsave, hloop1, hscan]
      obtain ⟨q, hq, hqpend⟩ := usertrapret_deliver hdone (by simp [hm])
      exact ⟨q, hq, .inr ⟨⟨i, hi, hact⟩, by simp [hqpend, hne, hspend, hs1]⟩⟩
    · obtain ⟨q, hq, -, hqpend⟩ := hperform i a ha hscan
      exact ⟨q, hq, .inr ⟨⟨i, hi, hact⟩, by rw [hqpend]; exact perform_pending a hne hspend⟩⟩

/-- **A pass with `SIGKILL` pending**, for every mask, handler table and pending set.  While a
user handler runs the pass postpones it.  Otherwise the pass stays in the freeze loop, or it
sets `p->killed` when no pending and unblocked signal comes before `SIGKILL`, and leaves
`SIGKILL` pending when one does. -/
theorem sigkill_pass {f : Trapframe} {m : UserMem} (hf : (p.threads t).trapframe = some f)
    (hb : (p.threads t).userTrapFrameBackup.isSome) (hm : p.pagetable = some m)
    (hpend : isSet p.penddingSignals SIGKILL) :
    (p.signalHandlingFlag ≠ 0 → ∃ q, usertrapret e p t = .user q ∧
      q.penddingSignals = p.penddingSignals ∧ q.killed = p.killed) ∧
    (p.signalHandlingFlag = 0 → freezeLoop e.gaps p = none → usertrapret e p t = .looping) ∧
    (p.signalHandlingFlag = 0 → ∀ rest s, freezeLoop e.gaps p = some (rest, s) →
      ∃ q, usertrapret e p t = .user q ∧
        ((∀ j < SIGKILL, isSet s.penddingSignals j → isSet s.signalMask j) → q.killed = 1) ∧
        (∀ j < SIGKILL, isSet s.penddingSignals j → isSet s.signalMask j = false →
          isSet q.penddingSignals SIGKILL)) := by
  refine ⟨fun hflag => ?_, fun hflag hloop => ?_, fun hflag rest s hloop => ?_⟩
  · simp only [usertrapret, if_neg hflag, enterUser, hf]
    exact ⟨_, rfl, rfl, rfl⟩
  · simp only [usertrapret, if_pos hflag, handlePenddingSinals, saveFrame_eq hf hb,
      setThread, freezeLoop_threads, hloop, Option.map_none]
  · obtain ⟨q, hq, hcase⟩ := usertrapret_sigkill hf hb hm hflag hpend hloop
    have hsflag : s.signalHandlingFlag = 0 := by
      rw [(freezeLoop_spec hloop).2]; exact hflag
    have hiff := fun j (hj : j < SIGKILL) => dispatch_isSome_iff hsflag hj
    refine ⟨q, hq, fun hblocked => ?_, fun j hj hpj hmj => ?_⟩
    · rcases hcase with ⟨-, hkilled⟩ | ⟨⟨j, hj, hact⟩, -⟩
      · exact hkilled
      · obtain ⟨hpj, hmj⟩ := (hiff j hj).1 hact
        simp [hblocked j hj hpj] at hmj
    · rcases hcase with ⟨hnone, -⟩ | ⟨-, hkept⟩
      · have := (hiff j hj).2 ⟨hpj, hmj⟩
        simp [hnone j hj] at this
      · exact hkept

end

/-- A stopped process with `SIGKILL`, `SIGCONT` and a blocked signal pending is killed. -/
theorem sigkill_pass_stopped : ∃ q, usertrapret { quietReturn with gaps := [0] }
      { interrupted 0 with
        penddingSignals := sigBit SIGKILL ||| sigBit SIGCONT ||| sigBit 1
        signalMask := sigBit 1 ||| sigBit SIGKILL, frozen := 1 } 0 = .user q ∧ q.killed = 1 := by
  obtain ⟨q, hq, hkilled, -⟩ := (sigkill_pass (e := { quietReturn with gaps := [0] })
    (p := { interrupted 0 with
      penddingSignals := sigBit SIGKILL ||| sigBit SIGCONT ||| sigBit 1
      signalMask := sigBit 1 ||| sigBit SIGKILL, frozen := 1 }) (t := 0)
    (f := interruptedFrame 0) rfl rfl rfl (by decide)).2.2 rfl _ _ rfl
  exact ⟨q, hq, hkilled (by decide)⟩

/-- In a user handler a process goes back to user mode with `SIGKILL` pending and not killed. -/
theorem sigkill_postponed : ∃ q,
    usertrapret quietReturn
      { interrupted 0 with penddingSignals := sigBit SIGKILL, signalHandlingFlag := 1 } 0
      = .user q ∧ q.killed = 0 ∧ isSet q.penddingSignals SIGKILL :=
  ⟨_, rfl, rfl, by decide⟩

end Xv6
