import Xv6.Lib.Ring
import Xv6.Lib.Run
import Xv6.Vm.UserMem

/-!
# Console output (`kernel/uart.c`)

`uartputc`, by any number of threads, and the sending half of `uartintr`.  Both hold `uart_tx_lock`
but in `sleep`: a step is a call, up to `sleep` or from there on.  The bits `LSR_TX_IDLE` that
`uartstart` reads come with the step.
-/

namespace Xv6

open Function Transition List

def UART_TX_BUF_SIZE : ℕ := 32

/-- Where a thread is in `uartputc`. -/
inductive Uart.Pos
  | idle
  | asleep (c : Byte) -- `SLEEPING` on `&uart_tx_r`
  | woken (c : Byte)
  deriving DecidableEq

structure Uart (T : Type) where
  buf : ℕ → Byte -- `uart_tx_buf`
  w : BitVec 64 -- `uart_tx_w`
  r : BitVec 64 -- `uart_tx_r`
  pos : T → Uart.Pos
  sent : List Byte -- Written to `THR`
  stored : List Byte -- Put into the buffer; not in the source

namespace Uart

variable {T : Type} {u u' : Uart T} {cs : List Byte}

/-- `wakeup(&uart_tx_r)`. -/
def Pos.wake : Pos → Pos
  | .asleep c => .woken c
  | p => p

theorem Pos.wake_ne (p : Pos) (c : Byte) : p.wake ≠ .asleep c := by
  cases p <;> simp [wake]

/-- A turn of the loop of `uartstart` that sends a character. -/
def send (u : Uart T) : Uart T :=
  { u with
    r := u.r + 1
    pos := fun t => (u.pos t).wake
    sent := u.sent ++ [u.buf (u.r.toNat % UART_TX_BUF_SIZE)] }

/-- `uartstart`; after the bits of `lsr`, the transmit register is full. -/
def uartstart (u : Uart T) : List Bool → Uart T
  | [] => u
  | idle :: lsr => if u.w = u.r ∨ idle = false then u else u.send.uartstart lsr

/-- The buffer holds the characters `cs`, and nobody sleeps unless it is full. -/
structure Inv (u : Uart T) (cs : List Byte) : Prop where
  holds : Ring.Holds UART_TX_BUF_SIZE u.buf u.r u.w cs
  stored : u.stored = u.sent ++ cs
  full : ∀ t c, u.pos t = .asleep c → cs.length = UART_TX_BUF_SIZE

theorem Inv.empty_iff (h : u.Inv cs) : u.w = u.r ↔ cs = [] :=
  eq_comm.trans (h.holds.empty_iff (by decide))

theorem Inv.send {c : Byte} (h : u.Inv (c :: cs)) : u.send.Inv cs where
  holds := h.holds.pop (by decide)
  stored := by
    show u.stored = u.sent ++ [_] ++ cs
    rw [h.stored, h.holds.first, append_assoc, singleton_append]
  full t c hc := absurd hc ((u.pos t).wake_ne c)

theorem Inv.uartstart (h : u.Inv cs) (lsr : List Bool) : ∃ cs', (u.uartstart lsr).Inv cs' := by
  induction lsr generalizing u cs with
  | nil => exact ⟨cs, h⟩
  | cons idle lsr ih =>
    unfold Uart.uartstart
    split_ifs with hstop
    · exact ⟨cs, h⟩
    · rw [h.empty_iff, not_or] at hstop
      obtain ⟨c, cs, rfl⟩ := exists_cons_of_ne_nil hstop.1
      exact ih h.send

variable [DecidableEq T]

/-- A turn of the loop of `uartputc`. -/
def put (u : Uart T) (t : T) (c : Byte) (lsr : List Bool) : Uart T :=
  if u.w = u.r + BitVec.ofNat 64 UART_TX_BUF_SIZE then { u with pos := update u.pos t (.asleep c) }
  else uartstart
    { u with
      buf := update u.buf (u.w.toNat % UART_TX_BUF_SIZE) c
      w := u.w + 1
      pos := update u.pos t .idle
      stored := u.stored ++ [c] } lsr

inductive Act (T : Type)
  | uartputc (t : T) (c : Byte) (lsr : List Bool)
  | go (t : T) (lsr : List Bool) -- `uartputc` after `sleep`
  | uartintr (lsr : List Bool)
  | kill (t : T)

def step (u : Uart T) : Act T → Option (Uart T)
  | .uartputc t c lsr => if u.pos t = .idle then some (u.put t c lsr) else none
  | .go t lsr =>
    match u.pos t with
    | .woken c => some (u.put t c lsr)
    | _ => none
  | .uartintr lsr => some (u.uartstart lsr)
  | .kill t => some { u with pos := update u.pos t (u.pos t).wake }

/-- An empty buffer, with both indices at `x`. -/
def start (x : BitVec 64) : Uart T := ⟨fun _ => 0, x, x, fun _ => .idle, [], []⟩

theorem Inv.put (h : u.Inv cs) (t : T) (c : Byte) (lsr : List Bool) :
    ∃ cs', (u.put t c lsr).Inv cs' := by
  have hfull := h.holds.stop_eq_iff (by decide) le_rfl
  unfold Uart.put
  split_ifs with hw
  · exact ⟨cs, h.holds, h.stored, fun _ _ _ => hfull.1 hw⟩
  · have hlt := lt_of_le_of_ne h.holds.length_le fun heq => hw (hfull.2 heq)
    refine Inv.uartstart ⟨h.holds.push (by decide) hlt c, ?_, fun t' c' hc => ?_⟩ lsr
    · rw [h.stored, append_assoc]
    · -- a sleeper would need a full buffer
      by_cases ht : t' = t
      · simp [ht] at hc
      · exact absurd (h.full t' c' (by simpa [ht] using hc)) hlt.ne

theorem Inv.step {a : Act T} (h : u.Inv cs) (hs : u.step a = some u') : ∃ cs', u'.Inv cs' := by
  cases a with
  | uartputc t c lsr =>
    simp only [Uart.step] at hs
    split_ifs at hs
    cases hs
    exact h.put t c lsr
  | go t lsr =>
    simp only [Uart.step] at hs
    split at hs <;> cases hs
    exact h.put t _ lsr
  | uartintr lsr =>
    cases hs
    exact h.uartstart lsr
  | kill t =>
    cases hs
    refine ⟨cs, h.holds, h.stored, fun t' c hc => ?_⟩
    by_cases ht : t' = t
    · simp [ht, Pos.wake_ne] at hc
    · exact h.full t' c (by simpa [ht] using hc)

/-- **Output is a queue.** In every run the characters written to `THR` are the first of those that
were stored, in the same order; the others are in the buffer.  While a thread sleeps the buffer is
full, and `uartstart` wakes it as soon as it finds the register idle. -/
theorem uart_queue {x : BitVec 64} {tr : List (Act T)} (h : Reach step Always (start x) tr u) :
    ∃ cs, u.stored = u.sent ++ cs ∧ Ring.Holds UART_TX_BUF_SIZE u.buf u.r u.w cs ∧
      ∀ t c, u.pos t = .asleep c → cs.length = UART_TX_BUF_SIZE ∧
        (u.uartstart [true]).pos t = .woken c := by
  obtain ⟨cs, hinv⟩ : ∃ cs, u.Inv cs := by
    refine h.state_invariant (I := fun u : Uart T => ∃ cs, u.Inv cs) ?_ ?_
    · exact ⟨[], Ring.holds_nil x, rfl, fun _ _ hc => by cases hc⟩
    · rintro u a u' ⟨cs, hinv⟩ - hs
      exact hinv.step hs
  refine ⟨cs, hinv.stored, hinv.holds, fun t c hc => ?_⟩
  have hlen := hinv.full t c hc
  have hne : u.w ≠ u.r := fun heq => by
    rw [hinv.empty_iff.1 heq] at hlen
    cases hlen
  exact ⟨hlen, by simp [Uart.uartstart, hne, Uart.send, hc, Pos.wake]⟩

/-- One character is sent, 32 fill the buffer, and the second thread sleeps. -/
def fills : List (Act Bool) :=
  .uartputc false 65 [true] :: replicate 32 (.uartputc false 66 []) ++ [.uartputc true 67 []]

theorem uart_queue_fills : ∃ u, Reach step Always (start (-1)) fills.reverse u ∧ u.sent = [65] ∧
    u.pos true = .asleep 67 ∧ (u.uartstart [true]).pos true = .woken 67 := by
  obtain ⟨u, hu, hsent, hpos⟩ : ∃ u ∈ run step (start (-1)) fills, u.sent = [65] ∧
      u.pos true = .asleep 67 := by decide
  obtain ⟨cs, -, -, hsleep⟩ := uart_queue (reach_always hu)
  exact ⟨u, reach_always hu, hsent, hpos, (hsleep true 67 hpos).2⟩

end Uart
end Xv6
