import Xv6.Lib.Ring
import Xv6.Lib.Run
import Xv6.Vm.UserMem

/-!
# Console input (`kernel/console.c`)

`consoleintr`, which `uartintr` calls for every character, and `consoleread`, by any number of
threads.  A step is one call of `consoleintr`, one turn of the loop of `consoleread`, or one of the
lock operations around it; `sleep` is one step.  The echo is left out.

`Line` is the abstract line editor: committed bytes, and bytes that may still be edited.  What
readers have taken and the bytes from `r` to `w` are committed, those from `w` to `e` may be edited.
-/

namespace Xv6

open Function Transition List

/-- Size of the input buffer. -/
def INPUT_BUF : ℕ := 128

namespace Console

/-! ### The line editor -/

/-- `C('D')`: end of file. -/
def ctrlD : Byte := 0x04

/-- `C('H')`: backspace. -/
def ctrlH : Byte := 0x08

/-- `C('P')`: print the process list. -/
def ctrlP : Byte := 0x10

/-- `C('U')`: kill line. -/
def ctrlU : Byte := 0x15

def delete : Byte := 0x7f

def newline : Byte := 0x0a

def carriageReturn : Byte := 0x0d

/-- `(c == '\r') ? '\n' : c`. -/
def translate (c : Byte) : Byte := if c = carriageReturn then newline else c

/-- The abstract line editor. -/
structure Line where
  committed : List Byte
  pending : List Byte

/-- A character is typed while `unread` committed bytes have not been read. -/
def Line.input (l : Line) (unread : ℕ) (c : Byte) : Line :=
  if c = ctrlP then l
  else if c = ctrlU then { l with pending := [] }
  else if c = ctrlH ∨ c = delete then { l with pending := l.pending.dropLast }
  else if c ≠ 0 ∧ unread + l.pending.length < INPUT_BUF then
    let p := l.pending ++ [translate c]
    if translate c = newline ∨ translate c = ctrlD ∨ unread + p.length = INPUT_BUF then
      ⟨l.committed ++ p, []⟩
    else { l with pending := p }
  else l

/-! ### The code -/

/-- Where a thread stands in `consoleread`; `n` bytes of `target` are still wanted. -/
inductive Pos
  | idle
  | call (n : ℤ) -- `acquire(&cons.lock)`
  | reading (n target : ℤ) -- The tests of the loops, with the lock
  | asleep (n target : ℤ) -- Sleeping on `&cons.r`
  | woken (n target : ℤ) -- Woken up, before `sleep` takes the lock again
  deriving DecidableEq, Repr

end Console

/-- `cons`, with the threads of type `T` that read from it. -/
structure Console (T : Type) where
  buf : ℕ → Byte
  r : UInt
  w : UInt
  e : UInt
  lock : Option T
  killed : T → Bool -- `myproc()->killed || mythread()->killed`
  pos : T → Console.Pos
  got : T → List Byte -- What the call that a thread is in has stored at `dst`
  /-- The calls of a thread that have returned: what each has stored, and its result. -/
  reads : T → List (List Byte × ℤ)
  line : Console.Line -- What the line editor makes of the characters typed
  consumed : List Byte -- The bytes that have been taken from the buffer
  delivered : List (T × Byte) -- The bytes that have been stored, each with its reader

namespace Console

inductive Act (T : Type)
  | consoleintr (c : Byte)
  | consoleread (t : T) (n : ℤ)
  /-- The next step of a thread; whether `either_copyout` succeeds, if it makes a copy. -/
  | go (t : T) (copyout : Bool)
  | kill (t : T)
  | rouse (t : T) -- A thread is made runnable from outside

variable {T : Type}

/-- The console after `k` bytes have gone through it. -/
def start (k : UInt) : Console T where
  buf _ := 0
  r := k
  w := k
  e := k
  lock := none
  killed _ := false
  pos _ := .idle
  got _ := []
  reads _ := []
  line := ⟨[], []⟩
  consumed := []
  delivered := []

/-- The loop of `consoleintr` for `C('U')`: the edit index at its end.  Every turn takes one byte
off, so `e - w` bounds the number of turns. -/
def killLine (buf : ℕ → Byte) (w : UInt) : ℕ → UInt → UInt
  | 0, e => e
  | turns + 1, e =>
    if e ≠ w ∧ buf ((e - 1).toNat % INPUT_BUF) ≠ newline then killLine buf w turns (e - 1) else e

/-- What `wakeup(&cons.r)` does to a thread. -/
def Pos.wake : Pos → Pos
  | .asleep n target => .woken n target
  | p => p

/-- `consoleintr`, on the buffer, the indices and the threads. -/
def edit (s : Console T) (c : Byte) : Console T :=
  if c = ctrlP then s
  else if c = ctrlU then { s with e := killLine s.buf s.w (s.e - s.w).toNat s.e }
  else if c = ctrlH ∨ c = delete then if s.e ≠ s.w then { s with e := s.e - 1 } else s
  else if c ≠ 0 ∧ s.e - s.r < BitVec.ofNat 32 INPUT_BUF then
    let c := translate c
    let s := { s with buf := update s.buf (s.e.toNat % INPUT_BUF) c, e := s.e + 1 }
    if c = newline ∨ c = ctrlD ∨ s.e = s.r + BitVec.ofNat 32 INPUT_BUF then
      { s with w := s.e, pos := fun t => (s.pos t).wake }
    else s
  else s

/-- `consoleintr`.  The line editor follows. -/
def consoleintr (s : Console T) (c : Byte) : Console T :=
  { s.edit c with line := s.line.input (s.line.committed.length - s.consumed.length) c }

variable [DecidableEq T]

def goto (s : Console T) (t : T) (p : Pos) : Console T :=
  { s with pos := update s.pos t p }

def acquire (s : Console T) (t : T) (p : Pos) : Option (Console T) :=
  if s.lock.isNone then some ({ s with lock := some t }.goto t p) else none

/-- `release(&cons.lock)` and `return v`. -/
def leave (s : Console T) (t : T) (v : ℤ) : Console T :=
  { s with
    lock := none
    reads := update s.reads t (s.reads t ++ [(s.got t, v)])
    got := update s.got t [] }.goto t .idle

/-- `c = cons.buf[cons.r++ % INPUT_BUF]`, and what is done with `c`. -/
def take (s : Console T) (t : T) (n target : ℤ) (copyout : Bool) : Console T :=
  let c := s.buf (s.r.toNat % INPUT_BUF)
  let s := { s with r := s.r + 1 }
  if c = ctrlD then
    if n < target then { s with r := s.r - 1 }.leave t (target - n)
    else { s with consumed := s.consumed ++ [c] }.leave t (target - n)
  else
    let s := { s with consumed := s.consumed ++ [c] }
    if copyout then
      let s := { s with
        delivered := s.delivered ++ [(t, c)], got := update s.got t (s.got t ++ [c]) }
      if c = newline then s.leave t (target - (n - 1)) else s.goto t (.reading (n - 1) target)
    else s.leave t (target - n)

/-- A turn of the loop of `consoleread`. -/
def readStep (s : Console T) (t : T) (n target : ℤ) (copyout : Bool) : Console T :=
  if 0 < n then
    if s.r = s.w then
      if s.killed t then s.leave t (-1) else { s with lock := none }.goto t (.asleep n target)
    else s.take t n target copyout
  else s.leave t (target - n)

/-- The next step of a thread. -/
def go (s : Console T) (t : T) (copyout : Bool) : Option (Console T) :=
  match s.pos t with
  | .call n => s.acquire t (.reading n n)
  | .reading n target => some (s.readStep t n target copyout)
  | .woken n target => s.acquire t (.reading n target)
  | _ => none

def step (s : Console T) : Act T → Option (Console T)
  | .consoleintr c => if s.lock.isNone then some (s.consoleintr c) else none
  | .consoleread t n => if s.pos t = .idle then some (s.goto t (.call n)) else none
  | .go t copyout => s.go t copyout
  | .kill t => some { s with killed := update s.killed t true }
  | .rouse t => if (s.pos t).wake ≠ s.pos t then some (s.goto t (s.pos t).wake) else none

/-! ### The representation of the line editor -/

theorem inputBuf_dvd : INPUT_BUF ∣ 2 ^ 32 := by decide

theorem inputBuf_lt : INPUT_BUF < 2 ^ 32 := by decide

omit [DecidableEq T] in
/-- The indices represent the line editor; `us` are the committed bytes that are not yet taken. -/
structure Rep (s : Console T) (us : List Byte) : Prop where
  ring : Ring.Holds INPUT_BUF s.buf s.r s.e (us ++ s.line.pending)
  write : s.w = s.r + BitVec.ofNat 32 us.length
  committed : s.line.committed = s.consumed ++ us
  plain : newline ∉ s.line.pending
  delivered : s.delivered.map Prod.snd = s.consumed.filter (· ≠ ctrlD)

section

variable {s s' : Console T} {us ps : List Byte} {c : Byte}

namespace Rep

omit [DecidableEq T]

section

variable (h : s.Rep us)

include h

theorem length_le : us.length + s.line.pending.length ≤ INPUT_BUF := by
  have hle := h.ring.length_le
  rwa [length_append] at hle

theorem unread_eq : s.line.committed.length - s.consumed.length = us.length := by
  rw [h.committed, length_append, Nat.add_sub_cancel_left]

theorem toNat_write : (s.w - s.r).toNat = us.length := by
  have hle := h.length_le
  have hlt := inputBuf_lt
  rw [h.write, add_comm, BitVec.add_sub_cancel, BitVec.toNat_ofNat, Nat.mod_eq_of_lt (by omega)]

theorem toNat_edit : (s.e - s.r).toNat = us.length + s.line.pending.length := by
  rw [h.ring.toNat_sub inputBuf_lt, length_append]

theorem edit_eq : s.e = s.w + BitVec.ofNat 32 s.line.pending.length := by
  rw [h.ring.stop, length_append, BitVec.ofNat_add, ← BitVec.add_assoc, ← h.write]

/-- `cons.r == cons.w`. -/
theorem read_eq_write_iff : s.r = s.w ↔ us = [] := by
  rw [← length_eq_zero_iff, ← h.toNat_write]
  constructor
  · intro heq
    rw [heq, BitVec.sub_self]
    rfl
  · intro hzero
    have hsub : s.w - s.r = 0 := BitVec.eq_of_toNat_eq hzero
    exact (BitVec.sub_eq_iff_eq_add.1 hsub).symm ▸ (BitVec.zero_add s.r).symm

/-- `cons.e == cons.w`. -/
theorem edit_eq_write_iff : s.e = s.w ↔ s.line.pending = [] := by
  have hcmp := h.ring.stop_eq_iff inputBuf_lt
    ((Nat.le_add_right us.length s.line.pending.length).trans h.length_le)
  rw [h.write, hcmp, length_append, ← length_eq_zero_iff]
  omega

end

end Rep

theorem killLine_eq {buf : ℕ → Byte} {r w e : UInt} {turns : ℕ}
    (h : Ring.Holds INPUT_BUF buf r e (us ++ ps)) (hw : w = r + BitVec.ofNat 32 us.length)
    (hplain : newline ∉ ps) (hturns : ps.length ≤ turns) : killLine buf w turns e = w := by
  induction ps using reverseRecOn generalizing e turns with
  | nil =>
    have he : e = w := by
      rw [hw, h.stop, append_nil]
    cases turns with
    | zero => exact he
    | succ turns => rw [killLine, if_neg fun hne => hne.1 he, he]
  | append_singleton ps x ih =>
    rw [length_append, length_singleton] at hturns
    obtain ⟨m, rfl⟩ : ∃ m, turns = m + 1 := ⟨turns - 1, by omega⟩
    rw [← append_assoc] at h
    have hle := h.length_le
    rw [length_append, length_append, length_singleton] at hle
    have hne : e ≠ w := by
      rw [hw, Ne, h.stop_eq_iff inputBuf_lt (by omega), length_append, length_append,
        length_singleton]
      omega
    have hx : x ≠ newline := by
      rintro rfl
      exact hplain (by simp)
    rw [killLine, if_pos ⟨hne, by rw [h.last inputBuf_dvd]; exact hx⟩]
    exact ih h.dropLast (fun hmem => hplain (mem_append_left _ hmem)) (by omega)

section

omit [DecidableEq T]

theorem Rep.store (h : s.Rep us) (hlt : us.length + s.line.pending.length < INPUT_BUF) (c : Byte) :
    Ring.Holds INPUT_BUF (update s.buf (s.e.toNat % INPUT_BUF) c) s.r (s.e + 1)
      (us ++ (s.line.pending ++ [c])) := by
  have hpush := h.ring.push inputBuf_dvd (by rw [length_append]; exact hlt) c
  rwa [append_assoc] at hpush

theorem Rep.kill (h : s.Rep us) :
    ({ s with
      e := killLine s.buf s.w (s.e - s.w).toNat s.e
      line := { s.line with pending := [] } } : Console T).Rep us := by
  have hfuel : s.line.pending.length ≤ (s.e - s.w).toNat := by
    have hle := h.length_le
    have hlt := inputBuf_lt
    rw [h.edit_eq, add_comm, BitVec.add_sub_cancel, BitVec.toNat_ofNat,
      Nat.mod_eq_of_lt (by omega)]
  have hkill := killLine_eq h.ring h.write h.plain hfuel
  refine ⟨?_, h.write, h.committed, not_mem_nil, h.delivered⟩
  simp only [hkill, append_nil]
  rw [h.write]
  exact h.ring.left

theorem Rep.backspace (h : s.Rep us) : ({ (if s.e ≠ s.w then { s with e := s.e - 1 } else s) with
      line := { s.line with pending := s.line.pending.dropLast } } : Console T).Rep us := by
  rcases eq_nil_or_concat s.line.pending with hnil | ⟨ps, c, hconcat⟩
  · rw [if_neg (not_not.2 (h.edit_eq_write_iff.2 hnil)), hnil]
    refine ⟨?_, h.write, h.committed, not_mem_nil, h.delivered⟩
    have hring := h.ring
    rwa [hnil] at hring
  · have hne : s.e ≠ s.w := by
      rw [Ne, h.edit_eq_write_iff, hconcat]
      simp
    rw [if_pos hne, hconcat, concat_eq_append, dropLast_concat]
    refine ⟨?_, h.write, h.committed, fun hmem => h.plain ?_, h.delivered⟩
    · have hring := h.ring
      rw [hconcat, concat_eq_append, ← append_assoc] at hring
      exact hring.dropLast
    · rw [hconcat, concat_eq_append]
      exact mem_append_left _ hmem

/-- `cons.e - cons.r < INPUT_BUF`. -/
theorem Rep.room_iff (h : s.Rep us) :
    s.e - s.r < BitVec.ofNat 32 INPUT_BUF ↔
      us.length + s.line.pending.length < INPUT_BUF := by
  rw [BitVec.lt_def, h.toNat_edit]
  rfl

theorem Rep.typed (h : s.Rep us) (hroom : us.length + s.line.pending.length < INPUT_BUF)
    (c : Byte) (pos : T → Pos) :
    ∃ us', us <+: us' ∧
      (if c = newline ∨ c = ctrlD ∨ s.e + 1 = s.r + BitVec.ofNat 32 INPUT_BUF then
        { s with
          buf := update s.buf (s.e.toNat % INPUT_BUF) c
          e := s.e + 1
          w := s.e + 1
          pos := pos
          line := ⟨s.line.committed ++ (s.line.pending ++ [c]), []⟩ }
      else
        { s with
          buf := update s.buf (s.e.toNat % INPUT_BUF) c
          e := s.e + 1
          line := { s.line with pending := s.line.pending ++ [c] } } : Console T).Rep us' := by
  have hstore := h.store hroom c
  split_ifs with hcommit
  · refine ⟨us ++ (s.line.pending ++ [c]), prefix_append .., ?_⟩
    refine ⟨?_, hstore.stop, ?_, not_mem_nil, h.delivered⟩
    · rw [append_nil]
      exact hstore
    · simp only [h.committed, append_assoc]
  · refine ⟨us, prefix_rfl, hstore, h.write, h.committed, ?_, h.delivered⟩
    simp only [mem_append, mem_singleton, not_or]
    exact ⟨h.plain, fun heq => hcommit (.inl heq.symm)⟩

/-- `consoleintr` does what the line editor does; the committed bytes stay. -/
theorem Rep.consoleintr (h : s.Rep us) (c : Byte) :
    ∃ us', us <+: us' ∧ (s.consoleintr c).Rep us' := by
  unfold Console.consoleintr
  rw [h.unread_eq]
  unfold edit Line.input
  by_cases hP : c = ctrlP
  · simp only [if_pos hP]
    exact ⟨us, prefix_rfl, h⟩
  by_cases hU : c = ctrlU
  · simp only [if_neg hP, if_pos hU]
    exact ⟨us, prefix_rfl, h.kill⟩
  by_cases hH : c = ctrlH ∨ c = delete
  · simp only [if_neg hP, if_neg hU, if_pos hH]
    exact ⟨us, prefix_rfl, h.backspace⟩
  by_cases hroom : c ≠ 0 ∧ us.length + s.line.pending.length < INPUT_BUF
  · have hroom' : c ≠ 0 ∧ s.e - s.r < BitVec.ofNat 32 INPUT_BUF := ⟨hroom.1, h.room_iff.2 hroom.2⟩
    have hfull : s.e + 1 = s.r + BitVec.ofNat 32 INPUT_BUF ↔
        us.length + (s.line.pending ++ [translate c]).length = INPUT_BUF := by
      rw [(h.store hroom.2 (translate c)).stop_eq_iff inputBuf_lt le_rfl, length_append]
    simp only [if_neg hP, if_neg hU, if_neg hH, if_pos hroom, if_pos hroom']
    obtain ⟨us', hus, hrep⟩ := h.typed hroom.2 (translate c) fun t => (s.pos t).wake
    refine ⟨us', hus, ?_⟩
    by_cases hcommit : translate c = newline ∨ translate c = ctrlD ∨
        s.e + 1 = s.r + BitVec.ofNat 32 INPUT_BUF
    · rw [if_pos hcommit] at hrep
      simp only [if_pos hcommit, ← hfull]
      exact hrep
    · rw [if_neg hcommit] at hrep
      simp only [if_neg hcommit, ← hfull]
      exact hrep
  · have hroom' : ¬ (c ≠ 0 ∧ s.e - s.r < BitVec.ofNat 32 INPUT_BUF) :=
      fun hyes => hroom ⟨hyes.1, h.room_iff.1 hyes.2⟩
    simp only [if_neg hP, if_neg hU, if_neg hH, if_neg hroom, if_neg hroom']
    exact ⟨us, prefix_rfl, h⟩

end

/-- `consoleread` takes the first committed byte. -/
theorem Rep.take (h : s.Rep (c :: us)) (t : T) (n target : ℤ) :
    (c = ctrlD → n < target →
      s.take t n target true = s.leave t (target - n)) ∧
    (c = ctrlD → ¬ n < target →
      (s.take t n target true).Rep us ∧ (s.take t n target true).consumed = s.consumed ++ [c] ∧
      (s.take t n target true).pos t = .idle ∧
      (s.take t n target true).reads t = s.reads t ++ [(s.got t, target - n)]) ∧
    (c ≠ ctrlD → (s.take t n target true).Rep us) := by
  have hc : s.buf (s.r.toNat % INPUT_BUF) = c := h.ring.first
  have hring : Ring.Holds INPUT_BUF s.buf (s.r + 1) s.e (us ++ s.line.pending) :=
    Ring.Holds.pop h.ring inputBuf_dvd
  have hwrite : s.w = s.r + 1 + BitVec.ofNat 32 us.length := by
    have hone : BitVec.ofNat 32 (us.length + 1) = 1 + BitVec.ofNat 32 us.length := by
      rw [Nat.add_comm]
      exact BitVec.ofNat_add 1 us.length
    rw [h.write, length_cons, hone, BitVec.add_assoc]
  have hcommitted : s.line.committed = (s.consumed ++ [c]) ++ us := by
    rw [h.committed, append_assoc, singleton_append]
  unfold Console.take
  simp only [hc]
  refine ⟨fun hD hlt => ?_, fun hD hlt => ?_, fun hD => ?_⟩
  · rw [if_pos hD, if_pos hlt, BitVec.add_sub_cancel]
  · simp only [if_pos hD, if_neg hlt]
    refine ⟨⟨hring, hwrite, hcommitted, h.plain, ?_⟩, rfl, ?_, ?_⟩
    · show s.delivered.map Prod.snd = (s.consumed ++ [c]).filter _
      rw [filter_append, h.delivered, hD]
      simp
    · exact update_self ..
    · exact update_self ..
  · have hdelivered : (s.delivered ++ [(t, c)]).map Prod.snd =
        (s.consumed ++ [c]).filter (· ≠ ctrlD) := by
      rw [map_append, filter_append, h.delivered]
      simp [hD]
    simp only [if_neg hD, if_true]
    split_ifs
    · exact ⟨hring, hwrite, hcommitted, h.plain, hdelivered⟩
    · exact ⟨hring, hwrite, hcommitted, h.plain, hdelivered⟩

omit [DecidableEq T] in
/-- The committed bytes that are not yet taken: those from `r` to `w`. -/
def unread (s : Console T) : List Byte :=
  Segment.table (s.w - s.r).toNat fun k => s.buf ((s.r.toNat + k) % INPUT_BUF)

omit [DecidableEq T] in
theorem Rep.unread (h : s.Rep us) : s.unread = us := by
  refine ext_getElem ?_ fun k hk hk' => ?_
  · rw [Console.unread, Segment.length_table, h.toNat_write]
  · have hlt : k < (us ++ s.line.pending).length := by
      rw [length_append]
      omega
    simp only [Console.unread, Segment.getElem_table]
    rw [h.ring.cell k hlt, getElem_append_left hk']

/-! ### Runs -/

omit [DecidableEq T] in
/-- The copies to the destination succeed. -/
def CopiesOut (s : Console T) : Act T → Prop
  | .go t copyout => ∀ n target, s.pos t = .reading n target → copyout = true
  | _ => True

theorem Rep.acquire {t : T} {p : Pos} (h : s.Rep us) (hs : s.acquire t p = some s') :
    s'.Rep us := by
  unfold Console.acquire at hs
  split_ifs at hs
  cases hs
  exact ⟨h.ring, h.write, h.committed, h.plain, h.delivered⟩

theorem Rep.readStep {t : T} {n target : ℤ} (h : s.Rep us) :
    ∃ us', (s.readStep t n target true).Rep us' := by
  unfold Console.readStep
  split_ifs with hn hempty hkilled
  · exact ⟨us, h.ring, h.write, h.committed, h.plain, h.delivered⟩
  · exact ⟨us, h.ring, h.write, h.committed, h.plain, h.delivered⟩
  · obtain ⟨c, us', rfl⟩ := exists_cons_of_ne_nil
      fun hnil => hempty (h.read_eq_write_iff.2 hnil)
    obtain ⟨hback, heof, hbyte⟩ := h.take t n target
    by_cases hD : c = ctrlD
    · by_cases hlt : n < target
      · rw [hback hD hlt]
        exact ⟨c :: us', h.ring, h.write, h.committed, h.plain, h.delivered⟩
      · exact ⟨us', (heof hD hlt).1⟩
    · exact ⟨us', hbyte hD⟩
  · exact ⟨us, h.ring, h.write, h.committed, h.plain, h.delivered⟩

theorem Rep.step {a : Act T} (h : s.Rep us) (hG : s.CopiesOut a) (hs : s.step a = some s') :
    ∃ us', s'.Rep us' := by
  cases a with
  | consoleintr c =>
    simp only [Console.step] at hs
    split_ifs at hs
    cases hs
    obtain ⟨us', -, hrep⟩ := h.consoleintr c
    exact ⟨us', hrep⟩
  | consoleread t n | rouse t =>
    simp only [Console.step] at hs
    split_ifs at hs
    cases hs
    exact ⟨us, h.ring, h.write, h.committed, h.plain, h.delivered⟩
  | go t copyout =>
    simp only [Console.step, Console.go] at hs
    split at hs
    · exact ⟨us, h.acquire hs⟩
    · next n target hp =>
      cases hs
      rw [hG n target hp]
      exact h.readStep
    · exact ⟨us, h.acquire hs⟩
    · cases hs
  | kill t =>
    cases hs
    exact ⟨us, h.ring, h.write, h.committed, h.plain, h.delivered⟩

/-! ### What the calls store and return -/

omit [DecidableEq T] in
/-- The bytes that the call has stored, by its local variables. -/
def Pos.count : Pos → ℤ
  | .idle | .call _ => 0
  | .reading n target | .asleep n target | .woken n target => target - n

/-- The bytes stored for a thread are those of its calls, one after the other; a call that has
returned has returned their number, or -1. -/
structure Stored (s : Console T) : Prop where
  bytes : ∀ t, (s.delivered.filter (·.1 = t)).map Prod.snd =
    ((s.reads t).map Prod.fst).flatten ++ s.got t
  count : ∀ t, (s.pos t).count = (s.got t).length
  result : ∀ t, ∀ r ∈ s.reads t, r.2 = r.1.length ∨ r.2 = -1

namespace Stored

omit [DecidableEq T] in
theorem count_wake (p : Pos) : p.wake.count = p.count := by
  cases p <;> rfl

/-- A step that stores nothing and does not return. -/
theorem congr (h : s.Stored) (hdelivered : s'.delivered = s.delivered) (hgot : s'.got = s.got)
    (hreads : s'.reads = s.reads) (hcount : ∀ t, (s'.pos t).count = (s.pos t).count) :
    s'.Stored := by
  refine ⟨fun t => ?_, fun t => ?_, fun t => ?_⟩
  · rw [hdelivered, hreads, hgot]
    exact h.bytes t
  · rw [hcount, hgot]
    exact h.count t
  · rw [hreads]
    exact h.result t

variable {t : T}

theorem count_goto {p : Pos} (hp : p.count = (s.pos t).count) (u : T) :
    (update s.pos t p u).count = (s.pos u).count := by
  by_cases hu : u = t
  · subst hu
    rw [update_self, hp]
  · rw [update_of_ne hu]

theorem leave (h : s.Stored) {v : ℤ} (hv : v = (s.got t).length ∨ v = -1) :
    (s.leave t v).Stored := by
  refine ⟨fun u => ?_, fun u => ?_, fun u => ?_⟩
  all_goals
    simp only [Console.leave, Console.goto]
    by_cases hu : u = t
  · subst hu
    simp [h.bytes u]
  · simp only [update_of_ne hu]
    exact h.bytes u
  · subst hu
    simp [Pos.count]
  · simp only [update_of_ne hu]
    exact h.count u
  · subst hu
    simp only [update_self, mem_append, mem_singleton]
    rintro r (hr | rfl)
    · exact h.result u r hr
    · exact hv
  · simp only [update_of_ne hu]
    exact h.result u

theorem leave_goto (p : Pos) (v : ℤ) : (s.goto t p).leave t v = s.leave t v := by
  simp only [Console.leave, Console.goto, update_idem]

/-- A byte is stored, while the thread is in the loop. -/
theorem store (h : s.Stored) {n target : ℤ} (hp : s.pos t = .reading n target) (c : Byte)
    (r : UInt) (consumed : List Byte) :
    let s' : Console T := { s with
      r := r, consumed := consumed, delivered := s.delivered ++ [(t, c)]
      got := update s.got t (s.got t ++ [c]) }
    (s'.goto t (.reading (n - 1) target)).Stored ∧ target - (n - 1) = (s'.got t).length := by
  have hcount := h.count t
  rw [hp, Pos.count] at hcount
  refine ⟨⟨fun u => ?_, fun u => ?_, h.result⟩, ?_⟩
  · by_cases hu : u = t
    · subst hu
      simp [Console.goto, h.bytes u]
    · simp [Console.goto, h.bytes u, hu, Ne.symm hu]
  · by_cases hu : u = t
    · subst hu
      simp only [Console.goto, update_self, Pos.count, length_append, length_singleton]
      omega
    · simp only [Console.goto, update_of_ne hu]
      exact h.count u
  · simp only [update_self, length_append, length_singleton]
    omega

theorem take (h : s.Stored) {n target : ℤ} (hp : s.pos t = .reading n target) :
    (s.take t n target true).Stored := by
  have hcount := h.count t
  rw [hp, Pos.count] at hcount
  unfold Console.take
  simp only [if_true]
  split_ifs
  · refine leave ?_ (.inl hcount)
    exact h.congr rfl rfl rfl fun _ => rfl
  · refine leave ?_ (.inl hcount)
    exact h.congr rfl rfl rfl fun _ => rfl
  · obtain ⟨hstored, hlen⟩ := h.store hp _ _ _
    rw [← leave_goto]
    exact hstored.leave (.inl hlen)
  · exact (h.store hp _ _ _).1

theorem acquire (h : s.Stored) {p : Pos} (hp : p.count = (s.pos t).count)
    (hs : s.acquire t p = some s') : s'.Stored := by
  unfold Console.acquire at hs
  split_ifs at hs
  cases hs
  exact h.congr rfl rfl rfl (count_goto hp)

theorem readStep (h : s.Stored) {n target : ℤ} (hp : s.pos t = .reading n target) :
    (s.readStep t n target true).Stored := by
  unfold Console.readStep
  split_ifs
  · exact h.leave (.inr rfl)
  · exact h.congr rfl rfl rfl (count_goto (by rw [hp]; rfl))
  · exact h.take hp
  · refine h.leave (.inl ?_)
    rw [← h.count, hp]
    rfl

theorem step {a : Act T} (h : s.Stored) (hG : s.CopiesOut a) (hs : s.step a = some s') :
    s'.Stored := by
  cases a with
  | consoleintr c =>
    simp only [Console.step] at hs
    split_ifs at hs
    cases hs
    refine h.congr ?_ ?_ ?_ fun t => ?_ <;> unfold Console.consoleintr edit <;> simp only <;>
      split_ifs <;> first | rfl | exact count_wake _
  | consoleread t n =>
    simp only [Console.step] at hs
    split_ifs at hs with hidle
    cases hs
    exact h.congr rfl rfl rfl (count_goto (by rw [hidle]; rfl))
  | rouse t =>
    simp only [Console.step] at hs
    split_ifs at hs
    cases hs
    exact h.congr rfl rfl rfl (count_goto (count_wake _))
  | go t copyout =>
    simp only [Console.step, Console.go] at hs
    split at hs
    · next n hp => exact h.acquire (by rw [hp]; exact sub_self n) hs
    · next n target hp =>
      cases hs
      rw [hG n target hp]
      exact h.readStep hp
    · next n target hp => exact h.acquire (by rw [hp]; rfl) hs
    · cases hs
  | kill t =>
    cases hs
    exact h.congr rfl rfl rfl fun _ => rfl

end Stored

end

end Console
end Xv6
