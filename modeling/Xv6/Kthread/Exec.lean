import Xv6.Kthread.Exit

/-!
# `exec` waits for the other threads

`exec` marks the other threads of the process as killed and then reads the states of the slots one
after the other, without `p->lock`, until it has seen no thread in use in a whole round.  A thread
that is already in `kthread_create` may put a new thread, which is not killed, into a slot that the
round has passed, and exit before the round comes to its own slot (`exec_commits_with_thread`).  If
this does not happen, `exec` goes on alone.
-/

namespace Xv6.Kthread

open Transition Function

/-- The slots that the present round of `exec` has passed without finding a thread in use. -/
def Base.passed : Base → ℕ
  | .execScan k false => k
  | _ => 0

/-- In `exec`, at or after the waiting loop. -/
def Base.waits : Base → Bool
  | .execScan _ _ | .execBody => true
  | _ => false

namespace Sys

variable {s s' : Sys} {c : ℤ} {b b' : Base} {a : Act} {ok : Bool}

/-- The slots that the thread in slot `k` has passed in `exec`. -/
def passed (s : Sys) (k : ThreadId) : ℕ := ((s.pc (s.slot k).id).base.map Base.passed).getD 0

/-- `kthread_create` takes no slot that a round of `exec` has passed. -/
def NotPassed (s : Sys) : Act → Prop
  | .go c _ => s.pc c = .here .create0 → ∀ j ∈ s.freeSlot, ∀ k, s.passed k ≤ j.val
  | _ => True

instance (s : Sys) (a : Act) : Decidable (s.NotPassed a) :=
  a.casesOn (motive := fun a => Decidable (s.NotPassed a)) (fun _ _ => .isTrue trivial)
    (fun _ _ => inferInstanceAs (Decidable (_ → ∀ j ∈ s.freeSlot, ∀ k, s.passed k ≤ j.val)))
    (fun _ => .isTrue trivial) (fun _ => .isTrue trivial) (.isTrue trivial)

/-- Slot `j` holds no thread but the one that calls `exec`. -/
def Clear (s : Sys) (c : ℤ) (j : ThreadId) : Prop := j ≠ s.home c → Gone (s.slot j).state

/-- What `exec` has seen is still so. -/
structure ExecInv (s : Sys) : Prop where
  inv : s.live = true → s.Inv
  scan : ∀ c k, (s.pc c).base = some (.execScan k false) → ∀ j : ThreadId, j.val < k → s.Clear c j
  body : ∀ c, (s.pc c).base = some .execBody → ∀ j, s.Clear c j

/-! ### One step -/

/-- The waiting loop is entered from the beginning of `exec` only. -/
theorem baseStep_waits (hs : s.baseStep c ok b = some s') (hb : (s'.pc c).base = some b')
    (hw : b'.waits = true) : b = .exec1 ∨ ∃ k live, b = .execScan k live := by
  cases b with
  | exec1 => exact .inl rfl
  | execScan k live => exact .inr ⟨k, live, rfl⟩
  | user | exiting status => cases hs
  | busy | execBody => cases hs; obtain rfl := base_goto hb; cases hw
  | ret =>
    cases hs
    obtain rfl := base_goto hb
    split_ifs at hw <;> cases hw
  | create0 | kexit2 | kexit3 | join0 x | joinAt x k | joinSleep x k | exec0 =>
    obtain rfl := base_acquire hs hb; cases hw
  | create1 | kexit4 | kexit5 | joinNext x k | joinDone | joinEnd | sleep1 x k =>
    obtain rfl := base_release hs hb; cases hw
  | kexit0 status =>
    obtain ⟨lock, -, rfl⟩ := of_acquire hs
    obtain rfl := base_goto hb
    cases hw
  | kexit1 last status =>
    obtain rfl := base_release hs hb
    split_ifs at hw <;> cases hw
  | kexit6 =>
    obtain ⟨lock, -, rfl⟩ := of_acquire hs
    simp [setPc, Pc.base, Wait.next] at hb
  | joinScan x k found =>
    simp only [baseStep] at hs
    split at hs
    · cases hs
      obtain rfl := base_goto hb
      split_ifs at hw <;> cases hw
    · split at hs
      · split_ifs at hs <;> cases hs <;> obtain rfl := base_goto hb <;> cases hw
      · cases hs
        obtain rfl := base_goto hb
        cases hw
  | joinLook x k =>
    cases hs
    unfold look at hb
    split_ifs at hb <;> obtain rfl := base_goto hb <;> cases hw
  | sleep2 x k =>
    cases hs
    simp only [setPc, update_self] at hb
    cases hb
    cases hw

theorem callStep_waits {f : Call} (hb : (s.callStep c f).pc c = .here b) : b.waits = false := by
  unfold callStep at hb
  split_ifs at hb
  · simp only [goto, update_self] at hb
    cases hb
    rfl
  · cases f with
    | join x =>
      simp only at hb
      split_ifs at hb <;> simp only [goto, record, update_self] at hb <;> cases hb <;> rfl
    | _ =>
      simp only [goto, update_self] at hb
      cases hb
      rfl

/-- A thread in the waiting loop, or after it, has been there before the step, has entered the
loop, or has taken a step of the loop. -/
theorem step_waits (h : s.Inv) (hs : s.step a = some s') (hb : (s'.pc c).base = some b)
    (hw : b.waits = true) :
    (s.pc c).base = some b ∨ b = .execScan 0 false ∨
      ∃ ok k live, s.pc c = .here (.execScan k live) ∧
        s.baseStep c ok (.execScan k live) = some s' := by
  rcases step_base h hs hb with hb | rfl | ⟨f, rfl, -, hcall⟩ | ⟨-, rfl⟩ | ⟨ok, b0, rfl, hpc, hstep⟩
  · exact .inl hb
  · cases hw
  · rw [callStep_waits hcall] at hw
    cases hw
  · cases hw
  · rcases baseStep_waits hstep hb hw with rfl | ⟨k, live, rfl⟩
    · exact .inr (.inl (base_release hstep hb))
    · exact .inr (.inr ⟨ok, k, live, hpc, hstep⟩)

/-- What a thread in the waiting loop has seen stays so in a step. -/
theorem Clear.step (h : s.Inv) (hs : s.step a = some s') (hb : (s.pc c).base = some b)
    {j : ThreadId} (hj : s.Clear c j)
    (hcreate : ∀ d, a = .go d true → s.pc d = .here .create0 → s.freeSlot ≠ some j) :
    s'.Clear c j := by
  have hc : s.pc c ≠ .absent := by
    intro hc
    rw [hc] at hb
    cases hb
  intro hne
  rw [step_home h hs hc] at hne
  rcases step_gone h hs (hj hne) with hg | ⟨d, ha, hd, hfree⟩
  · exact hg
  · exact absurd hfree (hcreate d ha hd)

theorem passed_of_base (h : s.Inv) {k : ℕ} (hb : (s.pc c).base = some (.execScan k false)) :
    s.passed (s.home c) = k := by
  have hown : s.Owns c := by
    refine (h.owns (c := c) ?_ ?_).1
    · intro hc
      rw [hc] at hb
      cases hb
    · intro hc
      rw [hc] at hb
      cases hb
  rw [passed, show (s.slot (s.home c)).id = c from hown, hb]
  rfl

theorem ExecInv.step (h : s.ExecInv) (hG : s.Careful a ∧ s.NotPassed a) (hs : s.step a = some s') :
    s'.ExecInv := by
  have hinv := h.inv (live_of_step hs)
  refine ⟨fun hl => hinv.step hG.1 hs hl, fun c k hb j hjk => ?_, fun c hb j => ?_⟩
  · rcases step_waits hinv hs hb rfl with hb | h0 | ⟨ok, i, live, hpc, hstep⟩
    · refine (h.scan c k hb j hjk).step hinv hs hb fun d ha hd hfree => ?_
      subst ha
      have := hG.2 hd j hfree (s.home c)
      rw [passed_of_base hinv hb] at this
      omega
    · cases h0
      omega
    · -- the loop has just read slot `i`
      simp only [baseStep] at hstep
      split_ifs at hstep with hi hlive
      · cases hstep
        have hk := base_goto hb
        simp only [Base.execScan.injEq] at hk
        obtain ⟨rfl, hfalse⟩ := hk
        have hor := Bool.or_eq_false_iff.1 hfalse.symm
        obtain ⟨rfl, hread⟩ := hor
        intro hne
        rcases Nat.lt_succ_iff_lt_or_eq.1 hjk with hlt | heq
        · exact h.scan c i (by rw [hpc]; rfl) j hlt hne
        · by_contra hg
          have hji : j = ⟨i, hi⟩ := Fin.ext heq
          subst hji
          exact of_decide_eq_false hread ⟨hg, hne⟩
      · cases hstep
        have hk := base_goto hb
        simp only [Base.execScan.injEq] at hk
        omega
      · cases hstep
        have hk := base_goto hb
        cases hk
  · rcases step_waits hinv hs hb rfl with hb | h0 | ⟨ok, i, live, hpc, hstep⟩
    · refine (h.body c hb j).step hinv hs hb fun d ha hd hfree => ?_
      -- the creating thread would be in use
      have hcd : c ≠ d := by
        rintro rfl
        rw [hd] at hb
        cases hb
      exact hinv.not_alone hcd (by simp [hb]) hd rfl (h.body c hb)
    · cases h0
    · simp only [baseStep] at hstep
      split_ifs at hstep with hi hlive
      · cases hstep
        have hk := base_goto hb
        cases hk
      · cases hstep
        have hk := base_goto hb
        cases hk
      · cases hstep
        have hbase : (s.pc c).base = some (.execScan i false) := by
          rw [hpc]
          simp only [Bool.not_eq_true] at hlive
          rw [hlive]
          rfl
        exact h.scan c i hbase j (by omega)

theorem execInv_init (m : ℕ) : (init m).ExecInv := by
  have hbase : ∀ c b, ((init m).pc c).base = some b → b = .user := by
    intro c b hb
    simp only [init] at hb
    split_ifs at hb <;> cases hb
    rfl
  refine ⟨fun _ => inv_init m, fun c k hb => ?_, fun c hb => ?_⟩
  · cases hbase c _ hb
  · cases hbase c _ hb

/-! ### The main theorem -/

/-- **`exec` commits alone.** In every run in which `kthread_join` reaps only threads that have
switched away for the last time, and `kthread_create` takes no slot that a round of a waiting
`exec` has passed, all other slots are `UNUSED` or `ZOMBIE` from the moment `exec` leaves the
waiting loop until it returns. -/
theorem exec_commits_alone {m : ℕ} {tr : List Act}
    (h : Reach step (fun s a => s.Careful a ∧ s.NotPassed a) (init m) tr s)
    (hc : (s.pc c).base = some .execBody) : ∀ k, k ≠ s.home c → Gone (s.slot k).state := by
  have hexec : s.ExecInv :=
    h.state_invariant (execInv_init m) fun _ _ _ hi hG hs => hi.step hG hs
  exact fun k hk => hexec.body c hc k hk

/-- The second thread is interrupted after `exec` has marked it, and exits. -/
def execRun : List Act :=
  starts 0 1 ++ creates 1 ++ starts 1 2 ++ (.call 1 .exec :: goes 1 2) ++ (.timer 2 :: goes 2 2) ++
    goes 1 9

theorem exec_commits_alone_two :
    ∃ s, runWhen step (fun s a => s.Careful a ∧ s.NotPassed a) (init 0) execRun = some s ∧
      s.pc 1 = .here .execBody ∧ ∀ k, k ≠ s.home 1 → Gone (s.slot k).state := by
  obtain ⟨s, hs, he⟩ : ∃ s ∈ runWhen step (fun s a => s.Careful a ∧ s.NotPassed a) (init 0) execRun,
      s.pc 1 = .here .execBody := by decide
  exact ⟨s, hs, he, exec_commits_alone (reach_of_runWhen hs) (by rw [he]; rfl)⟩

/-- The second thread exits and is joined.  `exec` reads its slot while the third thread is in
`kthread_create`, and the slot of the third thread after it has created a thread and exited. -/
def passedRun : List Act :=
  threeThreads ++ (.call 2 (.exit 5) :: goes 2 8) ++ (.call 1 (.join ⟨2, true⟩) :: goes 1 8) ++
    starts 2 3 ++ [.call 3 .create, .call 1 .exec] ++ goes 1 4 ++ goes 3 4 ++ goes 1 7

/-- `exec` leaves the waiting loop while another thread is `RUNNABLE`. -/
theorem exec_commits_with_thread :
    ∃ tr s, Reach step Careful (init 0) tr s ∧ s.pc 1 = .here .execBody ∧
      s.home 1 = 0 ∧ (s.slot 1).state = .runnable ∧ (s.slot 1).killed = false := by
  obtain ⟨s, hs, he⟩ : ∃ s ∈ runWhen step Careful (init 0) passedRun, s.pc 1 = .here .execBody ∧
      s.home 1 = 0 ∧ (s.slot 1).state = .runnable ∧ (s.slot 1).killed = false := by decide
  exact ⟨_, s, reach_of_runWhen hs, he⟩

end Sys

end Xv6.Kthread
