import Xv6.Kthread.Moves
import Xv6.Kthread.Join

/-!
# The last thread of a process exits

Runs in which the threads of a process only create threads and exit.  Each thread decides in the
first critical section of `kthread_exit` whether it is the last one, and then calls `exit`; the
others cannot come to the same conclusion, since a thread that is still to decide is in use.
-/

namespace Xv6.Kthread

open Transition Function

/-- The thread calls `kthread_create` and `kthread_exit` only, and other system calls that have
nothing to do with threads. -/
def Plain (_ : Sys) : Act → Prop
  | .call _ (.join _) | .call _ .exec => False
  | _ => True

instance (s : Sys) (a : Act) : Decidable (Plain s a) := by
  unfold Plain
  split <;> infer_instance

/-- The positions of such threads.  The status in `kthread_exit` is the one the thread has given. -/
def Base.Plain (tr : List Act) (c : ℤ) : Base → Prop
  | .user | .busy | .ret | .create0 | .create1 => True
  | .kexit0 status | .kexit1 _ status | .exiting status => .call c (.exit status) ∈ tr
  | .kexit2 | .kexit3 | .kexit4 | .kexit5 | .kexit6 => True
  | _ => False

theorem Base.Plain.mono {tr : List Act} {c : ℤ} {b : Base} (h : b.Plain tr c) (a : Act) :
    b.Plain (a :: tr) c := by
  cases b with
  | kexit0 status | kexit1 last status | exiting status => exact List.mem_cons_of_mem _ h
  | _ => exact h

/-- The thread has found that it is the last one. -/
def Base.last : Base → Bool
  | .kexit1 last _ => last
  | .exiting _ => true
  | _ => false

/-- The thread has left the first critical section of `kthread_exit`. -/
def Pc.Passed (p : Pc) : Prop := p.Left ∧ ∀ last status, p ≠ .here (.kexit1 last status)

namespace Sys

variable {s s' : Sys} {c d : ℤ} {b b' : Base} {a : Act} {tr : List Act} {ok : Bool}

theorem Inv.alone_of_last (h : s.Inv) (hb : (s.pc c).base = some b) (hlast : b.last = true) :
    s.Alone c := by
  have hknows : b.Knows s c := by
    have hk := h.knows c
    revert hb hk
    cases s.pc c with
    | absent => exact fun hb => by cases hb
    | here b' | yield0 b' => exact fun hb hk => by cases hb; exact hk
    | sched w | out w => cases w <;> intro hb hk <;> cases hb <;> first | exact hk | cases hlast
    | back w => cases w <;> intro hb hk <;> cases hb <;> exact hk
  cases b with
  | kexit1 last status => exact hknows.2 hlast
  | exiting status => exact hknows.2
  | _ => cases hlast

/-- A thread is not alone while another one has not left. -/
theorem Inv.not_alone (h : s.Inv) (hcd : c ≠ d) (hc : (s.pc c).base ≠ none)
    (hd : s.pc d = .here b) (hb : b.left = false) : ¬ s.Alone c := by
  intro halone
  obtain ⟨hdown, hdall⟩ := h.owns (c := d) (by simp [hd]) (by simp [hd])
  have hcown := (h.owns (c := c) (by rintro h0; simp [h0, Pc.base] at hc)
    (by rintro h0; simp [h0, Pc.base, Wait.next] at hc)).1
  have hgone := halone (s.home d) fun heq => hcd (hdown.home_inj hcown heq).symm
  rw [hd] at hdall
  simp only [Pc.Allows, hb, Bool.false_eq_true, if_false] at hdall
  rw [← my, hdall] at hgone
  simp [Gone] at hgone

theorem callStep_plain (hkilled : (s.my c).killed = false) {f : Call} (hG : Plain s (.call c f))
    (hb : (s.callStep c f).pc c = .here b) : b.Plain (.call c f :: tr) c := by
  have hk : ¬ (s.my c).killed = true := by simp [hkilled]
  unfold callStep at hb
  rw [if_neg hk] at hb
  cases f with
  | join x | exec => exact hG.elim
  | exit status =>
    simp only [goto, update_self] at hb
    cases hb
    exact List.mem_cons_self
  | create | other =>
    simp only [goto, update_self] at hb
    cases hb
    trivial

/-- A step at a plain position leads to a plain position, and finds the thread to be the last one
only at the beginning of `kthread_exit`. -/
theorem baseStep_plain (hkilled : (s.my c).killed = false) (hb : b.Plain tr c)
    (hs : s.baseStep c ok b = some s') (hb' : (s'.pc c).base = some b') :
    b'.Plain tr c ∧ (b'.last = true → b.last = true ∨ ∃ status, b = .kexit0 status) := by
  cases b with
  | user | exiting status => cases hs
  | busy =>
    cases hs
    obtain rfl := base_goto hb'
    exact ⟨trivial, fun hl => by cases hl⟩
  | ret =>
    have hk : ¬ (s.my c).killed = true := by simp [hkilled]
    simp only [baseStep, if_neg hk] at hs
    cases hs
    obtain rfl := base_goto hb'
    exact ⟨trivial, fun hl => by cases hl⟩
  | create0 | kexit2 | kexit3 =>
    obtain rfl := base_acquire hs hb'
    exact ⟨trivial, fun hl => by cases hl⟩
  | create1 | kexit4 | kexit5 =>
    obtain rfl := base_release hs hb'
    exact ⟨trivial, fun hl => by cases hl⟩
  | kexit0 status =>
    obtain ⟨lock, -, rfl⟩ := of_acquire hs
    obtain rfl := base_goto hb'
    exact ⟨hb, fun _ => .inr ⟨status, rfl⟩⟩
  | kexit1 last status =>
    obtain rfl := base_release hs hb'
    cases last with
    | true => exact ⟨hb, fun _ => .inl rfl⟩
    | false => exact ⟨trivial, fun hl => by cases hl⟩
  | kexit6 =>
    obtain ⟨lock, -, rfl⟩ := of_acquire hs
    simp only [setPc, update_self] at hb'
    cases hb'
  | _ => exact hb.elim

/-! ### Whole runs -/

/-- What holds in a run of plain actions.  A failed `kalloc` in `kthread_create` frees the process
and ends the run. -/
structure PlainInv (tr : List Act) (s : Sys) : Prop where
  inv : s.live = true → s.Inv
  killed : ∀ k, (s.slot k).killed = false
  plain : ∀ c b, (s.pc c).base = some b → b.Plain tr c
  last : ∀ c d b b', (s.pc c).base = some b → (s.pc d).base = some b' →
    b.last = true → b'.last = true → c = d
  freed : s.live = false →
    ∃ c, s.pc c = .here .create1 ∧ ∀ d status, s.pc d ≠ .here (.exiting status)

/-- A thread that is the last one has been so, or decides it in this step. -/
theorem PlainInv.step_last (h : PlainInv tr s) (hinv : s.Inv) (hs : s.step a = some s')
    (hG : Plain s a) (hb : (s'.pc c).base = some b) :
    b.Plain (a :: tr) c ∧ (b.last = true → (∃ b0, (s.pc c).base = some b0 ∧ b0.last = true) ∨
      ∃ ok status, a = .go c ok ∧ s.pc c = .here (.kexit0 status)) := by
  rcases step_base hinv hs hb with hb | rfl | ⟨f, rfl, -, hcall⟩ | ⟨hk, -⟩ | ⟨ok, b0, rfl, hpc, hb0⟩
  · exact ⟨(h.plain c b hb).mono a, fun hl => .inl ⟨b, hb, hl⟩⟩
  · exact ⟨trivial, fun hl => by cases hl⟩
  · have hp : b.Plain (.call c f :: tr) c := callStep_plain (h.killed _) hG hcall
    refine ⟨hp, fun hl => ?_⟩
    unfold callStep at hcall
    rw [if_neg (by simp [my, h.killed])] at hcall
    cases f with
    | join x | exec => exact hG.elim
    | _ =>
      simp only [goto, update_self] at hcall
      cases hcall
      cases hl
  · rw [my, h.killed] at hk
    cases hk
  · have hpc0 : (s.pc c).base = some b0 := by rw [hpc]; rfl
    obtain ⟨hp, hl⟩ := baseStep_plain (h.killed _) (h.plain c b0 hpc0) hb0 hb
    refine ⟨hp.mono _, fun hlast => ?_⟩
    rcases hl hlast with hl | ⟨status, rfl⟩
    · exact .inl ⟨b0, hpc0, hl⟩
    · exact .inr ⟨ok, status, rfl, hpc⟩

theorem PlainInv.careful (h : PlainInv tr s) (a : Act) : s.Careful a := by
  unfold Careful
  split
  · rename_i c ok
    split
    · rename_i x k hpc
      exact (h.plain c (.joinLook x k) (by rw [hpc]; rfl)).elim
    · trivial
  · trivial

theorem PlainInv.step (h : PlainInv tr s) (hG : Plain s a) (hs : s.step a = some s') :
    PlainInv (a :: tr) s' := by
  have hlive := live_of_step hs
  have hinv := h.inv hlive
  refine
    { inv := fun hl => hinv.step (h.careful a) hs hl
      killed := fun k => ?_
      plain := fun c b hb => (h.step_last hinv hs hG hb).1
      last := fun c d b b' hb hb' hl hl' => ?_
      freed := fun hfreed => ?_ }
  · by_contra hk
    rw [Bool.not_eq_false] at hk
    rcases step_cases hinv hs with ⟨c, ok, b, rfl, hpc, hb⟩ | hsw
    · rcases (baseStep_effect hb).killed k hk with hk | rfl
      · rw [h.killed] at hk
        cases hk
      · exact h.plain c .exec0 (by rw [hpc]; rfl)
    · rw [hsw.killed, h.killed] at hk
      cases hk
  · by_contra hcd
    -- a thread that is still to decide is in use, so nobody has decided before
    rcases (h.step_last hinv hs hG hb).2 hl with ⟨b0, hb0, hl0⟩ | ⟨ok, status, rfl, hpc⟩ <;>
      rcases (h.step_last hinv hs hG hb').2 hl' with ⟨b1, hb1, hl1⟩ | ⟨ok', status', ha', hpc'⟩
    · exact hcd (h.last c d b0 b1 hb0 hb1 hl0 hl1)
    · exact hinv.not_alone hcd (by simp [hb0]) hpc' rfl (hinv.alone_of_last hb0 hl0)
    · exact hinv.not_alone (Ne.symm hcd) (by simp [hb1]) hpc rfl (hinv.alone_of_last hb1 hl1)
    · cases ha'
      exact hcd rfl
  · rcases step_live hinv hs hlive with hl | ⟨c, ok, rfl, hpc, hpc'⟩
    · rw [hl] at hfreed
      cases hfreed
    · refine ⟨c, hpc', fun d status hd => ?_⟩
      have hbase : (s'.pc d).base = some (.exiting status) := by rw [hd]; rfl
      rcases (h.step_last hinv hs hG hbase).2 rfl with ⟨b0, hb0, hl0⟩ | ⟨ok', status', ha, hpcd⟩
      · have hcd : d ≠ c := by
          rintro rfl
          rw [hpc'] at hd
          cases hd
        exact hinv.not_alone hcd (by simp [hb0]) hpc rfl (hinv.alone_of_last hb0 hl0)
      · cases ha
        rw [hpc] at hpcd
        cases hpcd

theorem plainInv_init (m : ℕ) : PlainInv [] (init m) := by
  have hbase : ∀ c b, ((init m).pc c).base = some b → b = .user := by
    intro c b hb
    simp only [init] at hb
    split_ifs at hb <;> cases hb
    rfl
  refine ⟨fun _ => inv_init m, fun k => ?_, fun c b hb => ?_, fun c d b b' hb _ hl _ => ?_, ?_⟩
  · simp only [init]
    split_ifs <;> rfl
  · rw [hbase c b hb]
    trivial
  · rw [hbase c b hb] at hl
    cases hl
  · intro hl
    cases hl

/-- **The last thread calls `exit`.** In every run in which the threads of a process only create
threads and exit, at most one thread calls `exit` from `kthread_exit`, every other slot is then
`UNUSED` or `ZOMBIE`, and the status is the one the thread has passed.  Once every thread has left
the first critical section of `kthread_exit`, one of them has called `exit`. -/
theorem last_thread_calls_exit {m : ℕ} (h : Reach step Plain (init m) tr s) :
    (∀ c d status status', s.pc c = .here (.exiting status) → s.pc d = .here (.exiting status') →
      c = d) ∧
    (∀ c status, s.pc c = .here (.exiting status) →
      (∀ k, k ≠ s.home c → Gone (s.slot k).state) ∧ .call c (.exit status) ∈ tr) ∧
    ((∀ c, s.pc c ≠ .absent → (s.pc c).Passed) →
      ∃ c status, s.pc c = .here (.exiting status) ∧ .call c (.exit status) ∈ tr) := by
  have hplain : PlainInv tr s :=
    h.invariant (plainInv_init m) fun _ _ _ _ hi hG hs => hi.step hG hs
  have hbase : ∀ c status, s.pc c = .here (.exiting status) →
      (s.pc c).base = some (.exiting status) := fun c status hc => by rw [hc]; rfl
  refine ⟨fun c d status status' hc hd => ?_, fun c status hc => ⟨?_, ?_⟩, fun hall => ?_⟩
  · exact hplain.last c d _ _ (hbase c status hc) (hbase d status' hd) rfl rfl
  · cases hlive : s.live with
    | true => exact (hplain.inv hlive).alone_of_last (hbase c status hc) rfl
    | false =>
      obtain ⟨-, -, hno⟩ := hplain.freed hlive
      exact absurd hc (hno c status)
  · exact hplain.plain c _ (hbase c status hc)
  · cases hlive : s.live with
    | true =>
      rcases (hplain.inv hlive).someone with ⟨c, hc, hleft⟩ | ⟨c, status, hc | hc⟩
      · exact absurd (hall c hc).1 hleft
      · exact absurd hc ((hall c (by simp [hc])).2 true status)
      · exact ⟨c, status, hc, hplain.plain c _ (hbase c status hc)⟩
    | false =>
      obtain ⟨c, hc, -⟩ := hplain.freed hlive
      have hleft := (hall c (by simp [hc])).1
      rw [hc] at hleft
      cases hleft

/-- Both threads exit. -/
def bothExit : List Act :=
  starts 0 1 ++ creates 1 ++ starts 1 2 ++ (.call 1 (.exit 5) :: goes 1 8) ++
    (.call 2 (.exit 6) :: goes 2 2)

theorem last_thread_calls_exit_two :
    ∃ s, runWhen step Plain (init 0) bothExit = some s ∧
      s.pc 2 = .here (.exiting 6) ∧ (∀ c status, s.pc c = .here (.exiting status) → c = 2) ∧
      ∀ k, k ≠ s.home 2 → Gone (s.slot k).state := by
  obtain ⟨s, hs, he⟩ : ∃ s ∈ runWhen step Plain (init 0) bothExit,
      s.pc 2 = .here (.exiting 6) := by decide
  have hlast := last_thread_calls_exit (reach_of_runWhen hs)
  exact ⟨s, hs, he, fun c status hc => hlast.1 c 2 status 6 hc he, (hlast.2.1 2 6 he).1⟩

end Sys

end Xv6.Kthread
