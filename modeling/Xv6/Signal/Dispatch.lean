import Xv6.Signal.RoundTrip

/-!
# Which signal is acted on, and how

`intended` is the table that `handle_pendding_sinals` is there to follow: what is to be done
with a signal, by its number and the value of its handler.  The code follows it for every
pending set, mask and table, but for one entry: it takes `SIG_DFL` for a request to kill
whatever the signal, `SIGCONT` included.
-/

namespace Xv6

namespace Proc

/-- Signal `i` is pending, and is not or cannot be blocked. -/
def Due (p : Proc) (i : Fin 32) : Prop :=
  isSet p.penddingSignals i ∧ (i = SIGKILL ∨ i = SIGSTOP ∨ isSet p.signalMask i = false)

/-- The lowest-numbered signal that is due. -/
def Next (p : Proc) (i : Fin 32) : Prop := p.Due i ∧ ∀ j < i, ¬p.Due j

/-- What is to be done with signal `i`. -/
def intended (p : Proc) (i : Fin 32) : Action :=
  if i = SIGKILL then .kill
  else if i = SIGSTOP then .stop
  else if p.signalHandlers i = SIG_IGN then .ignore
  else if p.signalHandlers i = sigHandler SIGSTOP then .stop
  else if p.signalHandlers i = sigHandler SIGCONT then .cont
  else if p.signalHandlers i = sigHandler SIGKILL then .kill
  else if p.signalHandlers i = SIG_DFL then if i = SIGCONT then .cont else .kill
  else .deliver

/-- What is left of `p` when the action is taken: the result of `handle_pendding_sinals` and
the process. -/
def Does (p : Proc) (i : Fin 32) (ret : Option (Fin 32)) (q : Proc) : Action → Prop
  | .kill => ret = none ∧ q.killed = 1 ∧ (∀ u, (q.threads u).killed = 1) ∧ q.frozen = p.frozen
  | .stop => ret = none ∧ q.frozen = 1 ∧ q.killed = p.killed ∧ q.threads = p.threads
  | .cont => ret = none ∧ q.frozen = 0 ∧ q.killed = p.killed ∧ q.threads = p.threads
  | .ignore => ret = none ∧ q.frozen = p.frozen ∧ q.killed = p.killed ∧ q.threads = p.threads
  | .deliver => ret = some i ∧ q = p

/-- The pending signals after an action for `i`: `i` is taken off, unless `userhandler` does
it.  What `kill` sends while the lock is released for a stop or a continue is added. -/
def pendingAfter (p : Proc) (gap : UInt) (i j : Fin 32) : Action → Bool
  | .kill | .ignore => isSet p.penddingSignals j && j ≠ i
  | .stop | .cont => (isSet p.penddingSignals j || isSet gap j) && j ≠ i
  | .deliver => isSet p.penddingSignals j

/-- The pass over `p`, which is `s` once the frame is saved, acts on the lowest-numbered signal that
is due, and on no other: it takes the action of the table, that signal is taken off the pending set
and no other one, and the mask and the handler table stay.  If no signal is due, only the frame is
saved. -/
def Followed (p s : Proc) (gap : UInt) (r : Handled) : Prop :=
  ((∀ i, ¬p.Due i) ∧ r = .done none s) ∨
    ∃ i ret q, p.Next i ∧ r = .done ret q ∧ s.Does i ret q (p.intended i) ∧
      (∀ j, isSet q.penddingSignals j = p.pendingAfter gap i j (p.intended i)) ∧
      q.signalMask = p.signalMask ∧ q.signalHandlers = p.signalHandlers ∧
      q.signalHandlersMask = p.signalHandlersMask

theorem Next.unique {p : Proc} {i j : Fin 32} (hi : p.Next i) (hj : p.Next j) : i = j :=
  le_antisymm (not_lt.1 fun h => hi.2 j h hj.1) (not_lt.1 fun h => hj.2 i h hi.1)

end Proc

variable {p : Proc} {i : Fin 32}

theorem dispatch_isSome_iff_due (hflag : p.signalHandlingFlag = 0) :
    (dispatch p i).isSome ↔ p.Due i := by
  unfold dispatch Proc.Due
  by_cases hp : isSet p.penddingSignals i
  · by_cases hm : isSet p.signalMask i
    · simp only [hp, hflag, hm, and_self, if_true]
      split_ifs <;> simp_all
    · simp only [hp, hflag, hm, and_self, if_true, Bool.not_false]
      split_ifs <;> simp
  · simp [hp]

theorem dispatch_eq_none_iff (hflag : p.signalHandlingFlag = 0) :
    dispatch p i = none ↔ ¬p.Due i := by
  rw [← dispatch_isSome_iff_due hflag, Option.not_isSome_iff_eq_none]

/-- The body of the loop follows the table, the default of `SIGCONT` apart. -/
theorem dispatch_of_due (hflag : p.signalHandlingFlag = 0) (hdue : p.Due i)
    (hcont : i = SIGCONT → p.signalHandlers i ≠ SIG_DFL) : dispatch p i = some (p.intended i) := by
  obtain ⟨hp, hdue⟩ := hdue
  simp only [dispatch, Proc.intended, hp, hflag, and_self, if_true]
  by_cases hk : i = SIGKILL
  · simp only [if_pos hk]
  by_cases hs : i = SIGSTOP
  · simp only [if_neg hk, if_pos hs]
  have hm : isSet p.signalMask i = false := (hdue.resolve_left hk).resolve_left hs
  simp only [hk, hs, hm, if_false, Bool.not_false, if_true]
  by_cases hdfl : p.signalHandlers i = SIG_DFL
  · have hne : i ≠ SIGCONT := fun h => hcont h hdfl
    simp only [hdfl, hne, or_true, if_true, if_false]
    rfl
  · simp only [hdfl, or_false, if_false]
    split_ifs <;> rfl

/-- `SIGCONT` with its default handler. -/
theorem scan_sigcont_default (hflag : p.signalHandlingFlag = 0) (hnext : p.Next SIGCONT)
    (hdfl : p.signalHandlers SIGCONT = SIG_DFL) : scan p = some (SIGCONT, .kill) := by
  refine scan_of_dispatch ?_ fun j hj => (dispatch_eq_none_iff hflag).2 (hnext.2 j hj)
  have hm := (hnext.1.2.resolve_left (by decide)).resolve_left (by decide)
  simp only [dispatch, hnext.1.1, hflag, hm, hdfl]
  decide

theorem perform_does (gap : UInt) {a : Action} (ha : a ≠ .deliver) :
    p.Does i none (perform p gap i a) a := by
  cases a with
  | deliver => exact absurd rfl ha
  | kill => exact ⟨rfl, rfl, fun _ => rfl, rfl⟩
  | _ => exact ⟨rfl, rfl, rfl, rfl⟩

theorem isSet_perform (gap : UInt) (a : Action) (j : Fin 32) :
    isSet (perform p gap i a).penddingSignals j = p.pendingAfter gap i j a := by
  cases a <;>
    simp [perform, Proc.pendingAfter, Proc.clearSignal, Proc.sigKillHandler,
      Proc.sigStopHandler, Proc.sigContHandler, Proc.arrive]

theorem perform_tables (gap : UInt) (a : Action) :
    (perform p gap i a).signalMask = p.signalMask ∧
      (perform p gap i a).signalHandlers = p.signalHandlers ∧
      (perform p gap i a).signalHandlersMask = p.signalHandlersMask := by
  cases a <;> exact ⟨rfl, rfl, rfl⟩

/-- **The table is followed**, in a process that is not frozen and runs no handler, unless the
signal to act on is `SIGCONT` with its default handler; and then it is not, in a process that has
not been killed. -/
theorem handlePenddingSinals_table {t : ThreadId} {f : Trapframe} (gaps : List UInt)
    (hf : (p.threads t).trapframe = some f) (hb : (p.threads t).userTrapFrameBackup.isSome)
    (hfrozen : p.frozen = 0) (hflag : p.signalHandlingFlag = 0) :
    let s := p.setThread t { p.threads t with userTrapFrameBackup := some f }
    let cond := p.Next SIGCONT → p.signalHandlers SIGCONT ≠ SIG_DFL
    (cond → p.Followed s gaps.headI (handlePenddingSinals gaps p t)) ∧
      (p.killed = 0 → p.Followed s gaps.headI (handlePenddingSinals gaps p t) → cond) := by
  intro s cond
  have hloop : freezeLoop gaps s = some (gaps, s) :=
    freezeLoop_of_ne (by simp [s, Proc.setThread, hfrozen])
  -- the saved frame is not something the loop over the signals looks at
  have hscan : ∀ i, dispatch s i = dispatch p i := fun _ => rfl
  refine ⟨fun hcont => ?_, fun hlive hdone hnext hdfl => ?_⟩
  case refine_2 =>
    have hpass : handlePenddingSinals gaps p t =
        .done none (perform s gaps.headI SIGCONT .kill) := by
      simp only [handlePenddingSinals, saveFrame_eq hf hb, hloop, s,
        (scan_congr hscan).trans (scan_sigcont_default hflag hnext hdfl)]
    rcases hdone with ⟨hnone, -⟩ | ⟨i, ret, q, hi, hq, hdoes, -⟩
    · exact hnone _ hnext.1
    · rw [hpass, Handled.done.injEq] at hq
      have hcont : p.intended SIGCONT = .cont := by
        simp only [Proc.intended, hdfl]
        decide
      rw [hi.unique hnext, hcont, ← hq.2] at hdoes
      exact absurd (show (1 : ℤ) = 0 from hdoes.2.2.1.trans hlive) (by decide)
  cases h : scan s with
  | none =>
    refine .inl ⟨fun i => ?_, by simp only [handlePenddingSinals, saveFrame_eq hf hb, hloop, s, h]⟩
    rw [← dispatch_eq_none_iff hflag, ← hscan]
    exact scan_eq_none.1 h i
  | some ia =>
    obtain ⟨i, a⟩ := ia
    obtain ⟨hi, hbefore⟩ := scan_eq_some h
    have hdue : p.Due i := (dispatch_isSome_iff_due hflag).1 (by rw [← hscan, hi]; rfl)
    have hnext : p.Next i :=
      ⟨hdue, fun j hj => (dispatch_eq_none_iff hflag).1 ((hscan j).symm.trans (hbefore j hj))⟩
    have ha : a = p.intended i := by
      have := dispatch_of_due hflag hdue fun hc => hc ▸ hcont (hc ▸ hnext)
      rw [← hscan, hi] at this
      exact Option.some.inj this
    have hpend := isSet_perform (p := s) (i := i) gaps.headI a
    have htables := perform_tables (p := s) (i := i) gaps.headI a
    refine .inr ⟨i, ?_⟩
    rw [← ha]
    by_cases hd : a = .deliver
    · subst hd
      refine ⟨some i, s, hnext, ?_, ⟨rfl, rfl⟩, hpend, htables⟩
      simp only [handlePenddingSinals, saveFrame_eq hf hb, hloop, s, h]
    · refine ⟨none, _, hnext, ?_, perform_does gaps.headI hd, hpend, htables⟩
      cases a with
      | deliver => exact absurd rfl hd
      | _ => simp only [handlePenddingSinals, saveFrame_eq hf hb, hloop, s, h]

/-- Signal 1 has a user handler. -/
theorem handlePenddingSinals_table_user :
    ∃ q, handlePenddingSinals [] (interrupted 0) 0 = .done (some 1) q ∧
      isSet q.penddingSignals 1 := by
  have h := (handlePenddingSinals_table (p := interrupted 0) (t := 0) [] rfl rfl rfl rfl).1
    (fun h => absurd h.1.1 (by decide))
  rcases h with ⟨hnone, -⟩ | ⟨i, ret, q, hnext, hq, hdoes, hpend, -⟩
  · exact absurd ⟨by decide, .inr (.inr (by decide))⟩ (hnone 1)
  · have hi : i = 1 := by
      have := hnext.1.1
      revert this
      simp [interrupted]
    subst hi
    obtain ⟨rfl, -⟩ : ret = some 1 ∧ _ := hdoes
    exact ⟨q, hq, (hpend 1).trans (by decide)⟩

/-- `SIGCONT`, pending with its default handler, kills a process that is not frozen. -/
theorem sigcont_default_kills : let p := { interrupted 0 with penddingSignals := sigBit SIGCONT }
    p.intended SIGCONT = .cont ∧
      ∃ q, handlePenddingSinals [] p 0 = .done none q ∧ q.killed = 1 ∧ (q.threads 0).killed = 1 :=
  ⟨by decide, _, rfl, rfl, rfl⟩

end Xv6
