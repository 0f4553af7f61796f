import Xv6.Proc.Struct

/-!
# Signals of one process (`kernel/proc.c`)

`sigprocmask`, `sigaction`, `sigret`, the three kernel handlers, `handle_pendding_sinals` and
`userhandler`, on the process `p` they run in.

`p->lock` is released and taken again inside `handle_pendding_sinals`; `gaps` lists, for each such
moment in order, the bits that `kill` sets then.  The freeze loop goes on while the process is
frozen; a list that runs out inside the loop is a process that is still looping.

The loop over the 32 signals returns after the first one that it acts on.  `dispatch` is the
decision for one signal, `scan` the loop, `perform` the action.
-/

namespace Xv6

open List Function Option Word

/-- Default signal handling. -/
def SIG_DFL : Word := 0

/-- Ignore the signal. -/
def SIG_IGN : Word := 1

def SIGKILL : Fin 32 := 9

def SIGSTOP : Fin 32 := 17

def SIGCONT : Fin 32 := 19

/-- `(uint)1 << i`. -/
def sigBit (i : Fin 32) : UInt := 1#32 <<< i.val

/-- `(set & 1 << i) != 0`. -/
def isSet (set : UInt) (i : Fin 32) : Bool := set &&& sigBit i != 0

theorem isSet_eq_getLsbD (set : UInt) (i : Fin 32) : isSet set i = set.getLsbD i.val := by
  have h : sigBit i = BitVec.twoPow 32 i.val := rfl
  rw [isSet, h, BitVec.and_twoPow]
  have hne : BitVec.twoPow 32 i.val ≠ 0 := by
    intro h0
    have := congrArg (fun v => v.getLsbD i.val) h0
    simp at this
  cases hb : set.getLsbD i.val with
  | true => exact bne_iff_ne.2 hne
  | false => rfl

@[simp] theorem isSet_zero (i : Fin 32) : isSet 0#32 i = false := by simp [isSet_eq_getLsbD]

@[simp] theorem isSet_or (a b : UInt) (i : Fin 32) :
    isSet (a ||| b) i = (isSet a i || isSet b i) := by simp [isSet_eq_getLsbD]

@[simp] theorem isSet_sigBit (i k : Fin 32) : isSet (sigBit k) i = decide (i = k) := by
  have h : sigBit k = BitVec.twoPow 32 k.val := rfl
  rw [isSet_eq_getLsbD, h, BitVec.getLsbD_twoPow]
  simp [Fin.ext_iff, eq_comm]

theorem eq_zero_of_isSet {a : UInt} (h : ∀ i, isSet a i = false) : a = 0 := by
  refine BitVec.eq_of_getLsbD_eq fun k hk => ?_
  have := h ⟨k, hk⟩
  rw [isSet_eq_getLsbD] at this
  simpa using this

/-- Taking one signal off leaves the others. -/
@[simp] theorem isSet_clear (a : UInt) (i k : Fin 32) :
    isSet (a &&& ~~~sigBit k) i = (isSet a i && decide (i ≠ k)) := by
  have h := isSet_sigBit i k
  rw [isSet_eq_getLsbD] at h
  rw [isSet_eq_getLsbD, isSet_eq_getLsbD, BitVec.getLsbD_and, BitVec.getLsbD_not, h]
  simp

/-- A handler value that names a kernel action: `(void*) SIGKILL` and so on. -/
def sigHandler (i : Fin 32) : Word := BitVec.ofNat 64 i.val

namespace Proc

/-- Signals sent by `kill`. -/
def arrive (p : Proc) (bits : UInt) : Proc :=
  { p with penddingSignals := p.penddingSignals ||| bits }

/-- `p->pendding_signals &= ~((uint)1 << i)`. -/
def clearSignal (p : Proc) (i : Fin 32) : Proc :=
  { p with penddingSignals := p.penddingSignals &&& ~~~sigBit i }

/-- `sigprocmask`: the old mask is returned. -/
def sigprocmask (p : Proc) (sigmask : UInt) : UInt × Proc :=
  (p.signalMask, { p with signalMask := sigmask })

/-- `sigKillHandler`: every thread slot is marked, whatever its state. -/
def sigKillHandler (p : Proc) : Proc :=
  { p with
    killed := 1
    state := if p.state = .sleeping then .runnable else p.state
    threads := fun t =>
      { p.threads t with
        killed := 1
        state := if (p.threads t).state = .sleeping then .runnable else (p.threads t).state } }

/-- `sigStopHandler`. -/
def sigStopHandler (p : Proc) : Proc := { p with frozen := 1 }

/-- `sigContHandler`. -/
def sigContHandler (p : Proc) : Proc := { p with frozen := 0 }

end Proc

/-- `struct sigaction` as bytes; the last four are padding. -/
def sigactionBytes (handler : Word) (sigmask : UInt) (pad : List Byte) : List Byte :=
  bytes handler ++ (bytes (sigmask.setWidth 64)).take 4 ++ pad

/-- `sizeof(struct sigaction)`. -/
def sigactionSize : ℕ := 16

/-- `sigaction`, called with user addresses (0 for a null pointer).  `junk` is what the local
`Kact` holds before it is filled; the results of `copyout` and `copyin` are not looked at, and
an unsigned `sigmask` is never negative. -/
def sigaction (p : Proc) (signum : ℤ) (act oldact : Word) (junk : List Byte) :
    Option (ℤ × Proc) :=
  if h : signum < 0 ∨ 31 < signum ∨ signum = 9 ∨ signum = 17 then some (-1, p)
  else do
    have hlt : signum.toNat < 32 := by omega
    let i : Fin 32 := ⟨signum.toNat, hlt⟩
    let m ← p.pagetable
    let old := sigactionBytes (p.signalHandlers i) (p.signalHandlersMask i) (junk.drop 12)
    let m := if oldact = 0 then m else (copyout m oldact old).1
    let kact := if oldact = 0 then junk else old
    if act = 0 then some (0, { p with pagetable := some m })
    else
      let got := (copyin m act sigactionSize).1
      let kact := got ++ kact.drop got.length
      some (0, { p with
        pagetable := some m
        signalHandlers := update p.signalHandlers i (ofBytes kact)
        signalHandlersMask := update p.signalHandlersMask i
          ((ofBytes (kact.drop 8)).setWidth 32) })

variable {p q : Proc}

/-- `sigaction` changes the page table and the two handler tables. -/
theorem sigaction_eq {signum : ℤ} {act oldact : Word} {junk : List Byte} {v : ℤ}
    (h : sigaction p signum act oldact junk = some (v, q)) :
    q = { p with
      pagetable := q.pagetable
      signalHandlers := q.signalHandlers, signalHandlersMask := q.signalHandlersMask } := by
  unfold sigaction at h
  split at h
  · cases h; rfl
  · obtain ⟨m, -, hq⟩ := bind_eq_some_iff.1 h
    dsimp only at hq
    by_cases hact : act = 0
    · rw [if_pos hact] at hq
      cases hq
      rfl
    · rw [if_neg hact] at hq
      cases hq
      rfl

/-- `sigaction` leaves the entries of the other signals, and refuses `SIGKILL` and `SIGSTOP`. -/
theorem sigaction_others {signum : ℤ} {act oldact : Word} {junk : List Byte} {v : ℤ}
    (h : sigaction p signum act oldact junk = some (v, q)) {j : Fin 32}
    (hj : signum ≠ j.val ∨ j = SIGKILL ∨ j = SIGSTOP) :
    q.signalHandlers j = p.signalHandlers j ∧ q.signalHandlersMask j = p.signalHandlersMask j := by
  unfold sigaction at h
  split at h
  · cases h
    exact ⟨rfl, rfl⟩
  · next hsig =>
    obtain ⟨m, -, hq⟩ := bind_eq_some_iff.1 h
    dsimp only at hq
    by_cases hact : act = 0
    · rw [if_pos hact] at hq
      cases hq
      exact ⟨rfl, rfl⟩
    · rw [if_neg hact] at hq
      cases hq
      have hne : j ≠ ⟨signum.toNat, by omega⟩ := by
        rintro rfl
        rcases hj with hj | hj | hj
        · exact hj (by simp only; omega)
        · have := congrArg Fin.val hj
          simp only [SIGKILL] at this
          omega
        · have := congrArg Fin.val hj
          simp only [SIGSTOP] at this
          omega
      exact ⟨update_of_ne hne .., update_of_ne hne ..⟩

/-- `sigret`; `none` if a frame pointer is null. -/
def sigret (p : Proc) (t : ThreadId) : Option Proc := do
  let _ ← (p.threads t).trapframe
  let backup ← (p.threads t).userTrapFrameBackup
  some { p.setFrame t backup with
    signalMask := p.signalMaskBackup
    signalHandlingFlag := 0 }

/-- `userhandler(i)`.  `stub` is the code between `startCalcSize` and `endFunc`. -/
def userhandler (stub : List Byte) (p : Proc) (t : ThreadId) (i : Fin 32) : Option Proc := do
  let f ← (p.threads t).trapframe
  let backup ← (p.threads t).userTrapFrameBackup
  let m ← p.pagetable
  let f := { f with sp := f.sp - BitVec.ofNat 64 trapframeSize }
  let m := (copyout m backup.sp f.bytes).1
  let f := { f with epc := p.signalHandlers i }
  let f := { f with sp := f.sp - BitVec.ofNat 64 stub.length }
  let m := (copyout m f.sp stub).1
  let f := { f with a0 := BitVec.ofNat 64 i.val, ra := f.sp }
  some { (p.setFrame t f).clearSignal i with
    signalMaskBackup := p.signalMask
    signalMask := p.signalHandlersMask i
    signalHandlingFlag := 1
    pagetable := some m }

/-! ### `handle_pendding_sinals` -/

/-- What the loop over the signals does with one of them. -/
inductive Action
  | kill
  | stop
  | cont
  | ignore
  | deliver
  deriving DecidableEq, Repr

/-- The body of the loop: what is done with signal `i`, if anything. -/
def dispatch (p : Proc) (i : Fin 32) : Option Action :=
  if isSet p.penddingSignals i ∧ p.signalHandlingFlag = 0 then
    if i = SIGKILL then some .kill
    else if i = SIGSTOP then some .stop
    else if !isSet p.signalMask i then
      let h := p.signalHandlers i
      if h = SIG_IGN then some .ignore
      else if h = sigHandler SIGSTOP then some .stop
      else if h = sigHandler SIGCONT then some .cont
      else if h = sigHandler SIGKILL ∨ h = SIG_DFL then some .kill
      else some .deliver
    else none
  else none

/-- The loop over the signals in `is`. -/
def scanFrom (p : Proc) : List (Fin 32) → Option (Fin 32 × Action)
  | [] => none
  | i :: is =>
    match dispatch p i with
    | some a => some (i, a)
    | none => scanFrom p is

/-- The loop over all signals. -/
def scan (p : Proc) : Option (Fin 32 × Action) := scanFrom p (finRange 32)

/-- Carry out an action; the stop and continue handlers run with the lock released, while
`gap` arrives. -/
def perform (p : Proc) (gap : UInt) (i : Fin 32) : Action → Proc
  | .kill => p.sigKillHandler.clearSignal i
  | .stop => (p.arrive gap).sigStopHandler.clearSignal i
  | .cont => (p.arrive gap).sigContHandler.clearSignal i
  | .ignore => p.clearSignal i
  | .deliver => p

/-- One turn of the freeze loop of a frozen process: yield, or take a pending `SIGCONT`. -/
def freezeTurn (p : Proc) (gap : UInt) : Proc :=
  if isSet p.penddingSignals SIGCONT then (p.arrive gap).sigContHandler.clearSignal SIGCONT
  else p.arrive gap

/-- The freeze loop: the process and the remaining gaps afterwards, or `none` while it is
still looping. -/
def freezeLoop : List UInt → Proc → Option (List UInt × Proc)
  | gaps, p =>
    if p.frozen = 1 then
      match gaps with
      | [] => none
      | gap :: gaps => freezeLoop gaps (freezeTurn p gap)
    else some (gaps, p)

/-- How `handle_pendding_sinals` ends. -/
inductive Handled
  | fault -- A null frame pointer
  | looping
  | done (ret : Option (Fin 32)) (p : Proc) -- The returned signal (`none` for -1) and the process

/-- `*(t->user_trap_frame_backup) = *(t->trapframe)`. -/
def saveFrame (p : Proc) (t : ThreadId) : Option Proc := do
  let f ← (p.threads t).trapframe
  let _ ← (p.threads t).userTrapFrameBackup
  some (p.setThread t { p.threads t with userTrapFrameBackup := some f })

/-- `handle_pendding_sinals`. -/
def handlePenddingSinals (gaps : List UInt) (p : Proc) (t : ThreadId) : Handled :=
  match saveFrame p t with
  | none => .fault
  | some p =>
    match freezeLoop gaps p with
    | none => .looping
    | some (gaps, p) =>
      match scan p with
      | none => .done none p
      | some (i, .deliver) => .done (some i) p
      | some (i, a) => .done none (perform p gaps.headI i a)

theorem saveFrame_eq {t : ThreadId} {f : Trapframe} (hf : (p.threads t).trapframe = some f)
    (hb : (p.threads t).userTrapFrameBackup.isSome) :
    saveFrame p t = some (p.setThread t { p.threads t with userTrapFrameBackup := some f }) := by
  obtain ⟨b, hb⟩ := isSome_iff_exists.1 hb
  simp [saveFrame, hf, hb]

/-! ### What the loops do -/

theorem scanFrom_eq_none {is : List (Fin 32)} :
    scanFrom p is = none ↔ ∀ j ∈ is, dispatch p j = none := by
  induction is with
  | nil => simp [scanFrom]
  | cons i is ih => cases h : dispatch p i <;> simp [scanFrom, h, ih]

theorem scan_eq_none : scan p = none ↔ ∀ j, dispatch p j = none := by
  simp [scan, scanFrom_eq_none]

variable {i : Fin 32} {a : Action}

/-- The loop stops at a signal that is acted on, and passes over the ones before it. -/
theorem scanFrom_eq_some {is : List (Fin 32)} (hsorted : is.Pairwise (· < ·))
    (h : scanFrom p is = some (i, a)) :
    i ∈ is ∧ dispatch p i = some a ∧ ∀ j ∈ is, j < i → dispatch p j = none := by
  induction is with
  | nil => simp [scanFrom] at h
  | cons k is ih =>
    obtain ⟨hk, htail⟩ := pairwise_cons.1 hsorted
    cases hd : dispatch p k with
    | some b =>
      simp only [scanFrom, hd, some.injEq, Prod.mk.injEq] at h
      obtain ⟨rfl, rfl⟩ := h
      refine ⟨mem_cons_self, hd, fun j hj hlt => ?_⟩
      rcases mem_cons.1 hj with rfl | hj
      · exact absurd hlt (lt_irrefl _)
      · exact absurd hlt (hk j hj).asymm
    | none =>
      simp only [scanFrom, hd] at h
      obtain ⟨hi, ha, hbefore⟩ := ih htail h
      refine ⟨mem_cons_of_mem _ hi, ha, fun j hj hlt => ?_⟩
      rcases mem_cons.1 hj with rfl | hj
      · exact hd
      · exact hbefore j hj hlt

theorem scan_eq_some (h : scan p = some (i, a)) :
    dispatch p i = some a ∧ ∀ j < i, dispatch p j = none := by
  obtain ⟨-, ha, hbefore⟩ := scanFrom_eq_some (pairwise_lt_finRange 32) h
  exact ⟨ha, fun j => hbefore j (mem_finRange j)⟩

theorem scan_congr (h : ∀ j, dispatch p j = dispatch q j) : scan p = scan q := by
  unfold scan
  induction finRange 32 with
  | nil => rfl
  | cons i is ih => simp only [scanFrom, h i, ih]

theorem scan_of_dispatch (hi : dispatch p i = some a)
    (hbefore : ∀ j < i, dispatch p j = none) : scan p = some (i, a) := by
  cases h : scan p with
  | none => simp [scan_eq_none.1 h i] at hi
  | some kb =>
    obtain ⟨k, b⟩ := kb
    obtain ⟨hk, hkbefore⟩ := scan_eq_some h
    rcases lt_trichotomy k i with hlt | rfl | hlt
    · simp [hbefore k hlt] at hk
    · simp [hk] at hi
      simp [hi]
    · simp [hkbefore i hlt] at hi

/-- The freeze loop changes the pending set and `frozen`, and ends with `frozen` not 1. -/
theorem freezeLoop_spec {gaps rest : List UInt} (h : freezeLoop gaps p = some (rest, q)) :
    q.frozen ≠ 1 ∧
      q = { p with penddingSignals := q.penddingSignals, frozen := q.frozen } := by
  induction gaps generalizing p with
  | nil =>
    unfold freezeLoop at h
    split_ifs at h with hf
    cases h
    exact ⟨hf, rfl⟩
  | cons gap gaps ih =>
    unfold freezeLoop at h
    split_ifs at h with hf
    · obtain ⟨hq, heq⟩ := ih h
      refine ⟨hq, heq.trans ?_⟩
      unfold freezeTurn
      split_ifs <;> rfl
    · cases h
      exact ⟨hf, rfl⟩

/-- A process that is not frozen passes the freeze loop as it is. -/
theorem freezeLoop_of_ne {gaps : List UInt} (h : p.frozen ≠ 1) :
    freezeLoop gaps p = some (gaps, p) := by
  unfold freezeLoop
  exact if_neg h

end Xv6
