import Xv6.Dev.Console
import Xv6.Pipe.Model
import Xv6.Proc.Struct

/-!
# A killed thread in a blocking system call

`exec` marks the other threads of its process with `t->killed`, makes the sleepers runnable and
waits until all of them are gone.  A woken thread goes on in the loop that it slept in.  Seven loops
can sleep; they look at `p->killed`, at `t->killed` or at nothing.  Here is each of them from the
return of `sleep` to the next `sleep` or to its end, with the lock held all the way.  The loops of
pipes and of the console are those of `Xv6.Pipe` and `Xv6.Console`, with one thread that takes its
steps.
-/

namespace Xv6.Killed

/-- `p->killed` and `t->killed`. -/
structure Flags where
  proc : Bool
  thread : Bool

/-- What the loops look at. -/
structure World where
  ticks : UInt
  pipe : Pipe Unit Unit
  console : Console Unit
  children : List (ℤ × ProcState) -- The children of the process, with their pids
  /-- The states of the threads of the process with the id that is to be joined. -/
  joined : List ProcState
  unlocked : Bool -- `b->unlocked` of the semaphore
  copyin : ℕ → Option Byte -- What `copyin` finds for byte `i` of a call
  copyout : ℕ → Bool -- Whether the copy of byte `i` of a call succeeds

/-- The system call that a thread sleeps in, with its local variables. -/
inductive Waiting
  | sysSleep (n : ℤ) (ticks0 : UInt)
  | piperead (n : ℤ)
  | pipewrite (n : ℤ) (i : ℕ)
  | wait
  | kthreadJoin
  | bsemDown
  | consoleread (target n : ℤ)

/-- What the thread does next: it calls `sleep`, or the system call returns. -/
inductive Next
  | sleeps
  | returns (v : ℤ)
  deriving DecidableEq

/-- The bytes that a call on the pipe has copied. -/
def copied : Pipe.Pos → ℕ
  | .writing _ i | .copying _ i => i
  | _ => 0

/-- The steps of the thread in a call on the pipe, until it sleeps or the call returns. -/
def runPipe (w : World) : ℕ → Pipe Unit Unit → Option Next
  | 0, _ => none
  | turns + 1, s =>
    match s.pos () with
    | .idle => some (.returns (s.ret ()))
    | .readSleep _ | .writeSleep _ _ => some .sleeps
    | p => (s.go id () (w.copyin (copied p)) (w.copyout (copied p))).bind (runPipe w turns)

/-- The steps of the thread in `consoleread`. -/
def runConsole (w : World) : ℕ → Console Unit → Option Next
  | 0, _ => none
  | turns + 1, s =>
    match s.pos () with
    | .idle => (s.reads ()).getLast?.map fun r => .returns r.2
    | .asleep _ _ => some .sleeps
    | .reading n target => (s.go () (w.copyout (target - n).toNat)).bind (runConsole w turns)
    | .call _ | .woken _ _ => none

/-- The thread from the return of `sleep` on.  A call that has `n` bytes to go makes at most `n`
turns before its last one. -/
def resume (f : Flags) (w : World) : Waiting → Option Next
  | .sysSleep n ticks0 =>
    -- `ticks - ticks0 < n` compares unsigned numbers
    some (if w.ticks - ticks0 < BitVec.ofInt 32 n then if f.proc then .returns (-1) else .sleeps
      else .returns 0)
  | .piperead n =>
    runPipe w (n.toNat + 3)
      { w.pipe with killed := fun _ => f.proc, pos := fun _ => .waiting n }
  | .pipewrite n i =>
    runPipe w ((n - i).toNat + 2)
      { w.pipe with killed := fun _ => f.proc, pos := fun _ => .writing n i }
  | .wait =>
    some (match w.children.find? fun np => np.2 = .zombie with
      | some np => .returns (if w.copyout 0 then np.1 else -1)
      | none => if w.children = [] ∨ f.proc then .returns (-1) else .sleeps)
  | .kthreadJoin =>
    some (if .zombie ∈ w.joined then .returns (if w.copyout 0 then 0 else -1)
      else if w.joined = [] ∨ f.thread then .returns (-1)
      else .sleeps)
  | .bsemDown => some (if w.unlocked then .returns 0 else .sleeps)
  | .consoleread target n =>
    runConsole w (n.toNat + 2)
      { w.console with killed := fun _ => f.proc || f.thread, pos := fun _ => .reading n target }

inductive End
  | exit
  | kthreadExit
  deriving DecidableEq

/-- The tests of `usertrap` after the system call. -/
def usertrap (f : Flags) : Option End :=
  if f.proc then some .exit else if f.thread then some .kthreadExit else none

/-- The bytes that fit into the pipe. -/
def room (s : Pipe Unit Unit) : ℕ := (s.nread + BitVec.ofNat 32 PIPESIZE - s.nwrite).toNat

/-- The loop looks at a flag that is set, or what it waits for has come, or a copy fails before it
has to wait. -/
def Notices (f : Flags) (w : World) : Waiting → Prop
  | .sysSleep n ticks0 => f.proc ∨ ¬ w.ticks - ticks0 < BitVec.ofInt 32 n
  | .piperead _ => f.proc ∨ w.pipe.nread ≠ w.pipe.nwrite ∨ !w.pipe.writeopen
  | .pipewrite n i => f.proc ∨ !w.pipe.readopen ∨ (n - i).toNat ≤ room w.pipe ∨
      ∃ k < room w.pipe, w.copyin (i + k) = none
  | .wait => f.proc ∨ (∃ np ∈ w.children, np.2 = .zombie) ∨ w.children = []
  | .bsemDown => w.unlocked
  | .kthreadJoin | .consoleread _ _ => True

variable {f : Flags} {w : World} {s : Pipe Unit Unit} {n : ℤ} {turns i : ℕ}

/-! ### Pipes -/

theorem room_eq_zero : room s = 0 ↔ s.nwrite = s.nread + BitVec.ofNat 32 PIPESIZE := by
  rw [room, show (0 : ℕ) = (0#32).toNat from rfl, BitVec.toNat_inj]
  exact sub_eq_zero.trans eq_comm

theorem room_succ {s' : Pipe Unit Unit} (hread : s'.nread = s.nread)
    (hwrite : s'.nwrite = s.nwrite + 1) (h : room s ≠ 0) : room s = room s' + 1 := by
  unfold room at h ⊢
  rw [hread, hwrite, ← sub_sub]
  bv_omega

theorem runPipe_leave (s : Pipe Unit Unit) (v : ℤ) (hturns : 0 < turns) :
    runPipe w turns (s.leave () v) = some (.returns v) := by
  obtain ⟨turns, rfl⟩ := Nat.exists_eq_succ_of_ne_zero hturns.ne'
  rfl

theorem runPipe_copying (turns : ℕ) (hp : s.pos () = .copying n i)
    (hturns : (n - i).toNat + 1 < turns) :
    ∃ v, runPipe w turns s = some (.returns v) := by
  induction turns generalizing s i with
  | zero => omega
  | succ turns ih =>
    have hgo : runPipe w (turns + 1) s = runPipe w turns (s.copyStep () n i (w.copyout i)) := by
      simp only [runPipe, hp, Pipe.go, copied, Option.bind_some]
    rw [hgo, Pipe.copyStep]
    split_ifs with hmore hout
    · exact ih rfl (by omega)
    · exact ⟨_, runPipe_leave _ _ (by omega)⟩
    · exact ⟨_, runPipe_leave _ _ (by omega)⟩

/-- `pipewrite` sleeps when the pipe is full and there are bytes left. -/
theorem runPipe_writing (turns : ℕ) (hp : s.pos () = .writing n i)
    (hturns : (n - i).toNat + 1 < turns) :
    ∃ x, runPipe w turns s = some x ∧ (x = .sleeps ↔ s.killed () = false ∧ s.readopen = true ∧
      room s < (n - i).toNat ∧ ∀ k < room s, w.copyin (i + k) ≠ none) := by
  induction turns generalizing s i with
  | zero => omega
  | succ turns ih =>
    have hgo : runPipe w (turns + 1) s = runPipe w turns (s.writeStep id () n i (w.copyin i)) := by
      simp only [runPipe, hp, Pipe.go, copied, Option.bind_some]
    rw [hgo]
    unfold Pipe.writeStep
    split_ifs with hmore hquit hfull
    · refine ⟨_, runPipe_leave _ _ (by omega), iff_of_false nofun fun hno => ?_⟩
      rcases hquit with hclosed | hkilled
      · exact absurd hno.2.1 (by simp [hclosed])
      · exact absurd hno.1 (by simpa using hkilled)
    · obtain ⟨turns, rfl⟩ : ∃ k, turns = k + 1 := ⟨turns - 1, by omega⟩
      refine ⟨.sleeps, rfl, iff_of_true rfl ?_⟩
      rw [not_or, Bool.not_eq_false, Bool.not_eq_true] at hquit
      rw [room_eq_zero.2 hfull]
      exact ⟨hquit.2, hquit.1, by omega, fun k hk => absurd hk (Nat.not_lt_zero k)⟩
    · have hroom : room s ≠ 0 := fun h0 => hfull (room_eq_zero.1 h0)
      cases hcopy : w.copyin i with
      | none =>
        -- the copy that fails is the first
        refine ⟨_, runPipe_leave _ _ (by omega), iff_of_false nofun fun hno => ?_⟩
        exact hno.2.2.2 0 (Nat.pos_of_ne_zero hroom) hcopy
      | some ch =>
        dsimp only
        generalize hs' : Pipe.goto _ () (.writing n (i + 1)) = s'
        obtain ⟨hread, hwrite, hkilled, hopen⟩ : s'.nread = s.nread ∧ s'.nwrite = s.nwrite + 1 ∧
            s'.killed = s.killed ∧ s'.readopen = s.readopen := by
          rw [← hs']
          exact ⟨rfl, rfl, rfl, rfl⟩
        obtain ⟨x, hx, hiff⟩ := ih (s := s') (i := i + 1) (by rw [← hs']; rfl) (by omega)
        refine ⟨x, hx, hiff.trans ?_⟩
        rw [room_succ hread hwrite hroom, hkilled, hopen,
          show (n - i).toNat = (n - (i + 1 : ℕ)).toNat + 1 by omega, Nat.add_lt_add_iff_right]
        refine and_congr_right fun _ => and_congr_right fun _ => and_congr_right fun _ => ?_
        rw [Nat.forall_lt_succ_left]
        refine ⟨fun hall => ⟨fun h => Option.some_ne_none ch (hcopy.symm.trans h), fun k hk => ?_⟩,
          fun hall k hk => ?_⟩
        · rw [Nat.add_comm k, ← Nat.add_assoc]
          exact hall k hk
        · rw [Nat.add_assoc, Nat.add_comm 1]
          exact hall.2 k hk
    · refine ⟨_, runPipe_leave _ _ (by omega), iff_of_false nofun fun hno => ?_⟩
      have := hno.2.2.1
      omega

/-! ### The console -/

theorem runConsole_leave (c : Console Unit) (v : ℤ) (hturns : 0 < turns) :
    runConsole w turns (c.leave () v) = some (.returns v) := by
  obtain ⟨turns, rfl⟩ := Nat.exists_eq_succ_of_ne_zero hturns.ne'
  simp [runConsole, Console.leave, Console.goto]

/-- A reader of the console does not sleep once its thread is marked. -/
theorem runConsole_returns {c : Console Unit} {target : ℤ} (turns : ℕ)
    (hkilled : c.killed () = true) (hp : c.pos () = .reading n target)
    (hturns : n.toNat + 1 < turns) :
    ∃ v, runConsole w turns c = some (.returns v) := by
  induction turns generalizing c n with
  | zero => omega
  | succ turns ih =>
    have hgo : runConsole w (turns + 1) c =
        runConsole w turns (c.readStep () n target (w.copyout (target - n).toNat)) := by
      simp only [runConsole, hp, Console.go, Option.bind_some]
    have hleave : ∀ c v, ∃ u, runConsole w turns (Console.leave c () v) = some (.returns u) :=
      fun c v => ⟨v, runConsole_leave c v (by omega)⟩
    rw [hgo, Console.readStep, Console.take]
    split_ifs
    · exact hleave _ _
    · exact hleave _ _
    · exact hleave _ _
    · exact hleave _ _
    · exact ih hkilled rfl (by omega)
    · exact hleave _ _
    · exact hleave _ _

/-! ### All loops -/

theorem returns_iff {x : Next} : (∃ v, x = .returns v) ↔ x ≠ .sleeps := by
  cases x <;> simp

/-- **When a killed thread does not sleep again:** where its loop notices, and only there, the
system call returns; `usertrap` then ends the thread. -/
theorem killed_leaves_iff (hkilled : f.thread = true) (b : Waiting) :
    (∃ x, resume f w b = some x ∧ ((∃ v, x = .returns v) ↔ Notices f w b)) ∧
      ∃ e, usertrap f = some e := by
  constructor
  · cases b with
    | sysSleep n ticks0 =>
      refine ⟨_, rfl, ?_⟩
      rw [returns_iff, Notices]
      split_ifs with hlate hproc <;> simp_all
    | piperead n =>
      have hgo : resume f w (.piperead n) = runPipe w (n.toNat + 2) (Pipe.waitStep id
          { w.pipe with killed := fun _ => f.proc, pos := fun _ => .waiting n } () n) := rfl
      rw [hgo, Pipe.waitStep, Notices]
      split_ifs with hempty hproc
      · exact ⟨_, runPipe_leave _ _ (by omega), iff_of_true ⟨_, rfl⟩ (.inl hproc)⟩
      · refine ⟨.sleeps, rfl, iff_of_false nofun ?_⟩
        simp_all
      · obtain ⟨v, hv⟩ := runPipe_copying (w := w) (i := 0) (n.toNat + 2)
          (s := Pipe.goto { w.pipe with killed := fun _ => f.proc, pos := fun _ => .waiting n } ()
            (.copying n 0)) rfl (by omega)
        refine ⟨_, hv, iff_of_true ⟨v, rfl⟩ (.inr ?_)⟩
        have hleft := not_and_or.1 hempty
        simp_all
    | pipewrite n i =>
      obtain ⟨x, hx, hiff⟩ := runPipe_writing (w := w) ((n - i).toNat + 2)
        (s := { w.pipe with killed := fun _ => f.proc, pos := fun _ => .writing n i }) rfl
        (by omega)
      refine ⟨x, hx, ?_⟩
      rw [returns_iff, Notices, ne_eq, hiff]
      simp only [not_and_or, Bool.not_eq_false, Bool.not_eq_true, Bool.not_eq_true', not_lt,
        not_forall, exists_prop, not_not, ne_eq]
      exact Iff.rfl
    | wait =>
      refine ⟨_, rfl, ?_⟩
      rw [returns_iff, Notices]
      cases hz : w.children.find? fun np => np.2 = .zombie with
      | some np =>
        have hnp := List.find?_some hz
        simp only [ne_eq, reduceCtorEq, not_false_eq_true, true_iff]
        exact .inr (.inl ⟨np, List.mem_of_find?_eq_some hz, of_decide_eq_true hnp⟩)
      | none =>
        have hno : ¬ ∃ np ∈ w.children, np.2 = .zombie := fun ⟨np, hmem, hstate⟩ => by
          simpa [hstate] using List.find?_eq_none.1 hz np hmem
        simp only [hno, false_or]
        split_ifs with hquit
        · simpa using hquit.symm
        · simpa [or_comm] using hquit
    | kthreadJoin =>
      refine ⟨_, rfl, ?_⟩
      rw [returns_iff, Notices, if_pos (show w.joined = [] ∨ _ from .inr hkilled)]
      split_ifs <;> simp
    | bsemDown =>
      refine ⟨_, rfl, ?_⟩
      rw [returns_iff, Notices]
      split_ifs with hunlocked <;> simp [hunlocked]
    | consoleread target n =>
      obtain ⟨v, hv⟩ := runConsole_returns (w := w) (c := { w.console with
        killed := fun _ => f.proc || f.thread, pos := fun _ => .reading n target }) (n.toNat + 2)
        (by simp [hkilled]) rfl (by omega)
      exact ⟨_, hv, iff_true_intro ⟨v, rfl⟩⟩
  · unfold usertrap
    rw [if_pos hkilled]
    split_ifs <;> exact ⟨_, rfl⟩

/-- Nothing has happened that a loop waits for: an empty pipe, a child that runs, a locked
semaphore, no input. -/
def quiet : World where
  ticks := 10
  pipe := Pipe.start 0
  console := Console.start 0
  children := [(2, .running)]
  joined := [.running]
  unlocked := false
  copyin := fun _ => some 0
  copyout := fun _ => true

/-- A thread that `exec` has marked leaves `kthread_join` and is ended. -/
theorem killed_leaves_join :
    (∃ v, resume ⟨false, true⟩ quiet .kthreadJoin = some (.returns v)) ∧
      ∃ e, usertrap ⟨false, true⟩ = some e := by
  obtain ⟨⟨x, hx, hiff⟩, hend⟩ :=
    killed_leaves_iff (f := ⟨false, true⟩) (w := quiet) rfl .kthreadJoin
  obtain ⟨v, rfl⟩ := hiff.2 trivial
  exact ⟨⟨v, hx⟩, hend⟩

/-- A thread that `exec` has marked sleeps again in five of the loops. -/
theorem killed_sleeps : resume ⟨false, true⟩ quiet (.sysSleep 100 0) = some .sleeps ∧
    resume ⟨false, true⟩ quiet (.piperead 1) = some .sleeps ∧
    resume ⟨false, true⟩ { quiet with pipe := { Pipe.start 0 with nwrite := 512 } }
      (.pipewrite 1 0) = some .sleeps ∧
    resume ⟨false, true⟩ quiet .wait = some .sleeps ∧
    resume ⟨false, true⟩ quiet .bsemDown = some .sleeps := by
  decide

end Xv6.Killed
