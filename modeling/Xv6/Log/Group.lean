import Xv6.Log.Redo
import Xv6.Lib.Run
import Mathlib.Tactic.Ring

/-!
# Group commit (`begin_op`, `log_write`, `end_op` of `kernel/log.c`)

Any number of processes run file-system operations.  A step is one critical section of
`log.lock`, one turn of a loop of `commit`, which runs without the lock, or one of its other
statements.  A process that sleeps on `&log` tests again after a `wakeup(&log)`.

The state carries two ghost components: the list of blocks each operation has logged (in
`Pc.op`), and the blocks logged by the operations that ended since the previous commit
(`ended`).  `committed` records, for each transaction, the header that `write_head` put on
disk and the value of `ended` at that moment.
-/

namespace Xv6.Log

open Function Transition Finset

/-- The panics of `log.c`. -/
inductive Panic
  | tooBig -- `panic("too big a transaction")` in `log_write`
  | outsideTrans -- `panic("log_write outside of trans")` in `log_write`
  | logCommitting -- `panic("log.committing")` in `end_op`
  deriving DecidableEq, Repr

/-- Where a process is with respect to the log. -/
inductive Pc
  | idle -- Not in a file-system operation
  | begin -- At the test of the loop in `begin_op`
  | asleep -- In `sleep(&log, &log.lock)` of `begin_op`
  | op (logged : List BlockNo) -- Between `begin_op` and `end_op`, having logged the listed blocks
  | commit -- At the start of `commit`
  | writeLog (tail : ℕ) -- In the loop of `write_log`
  | writeHead -- Before the first `write_head` of `commit`
  | install (tail : ℕ) -- In the loop of `install_trans`
  | clear -- Before `log.lh.n = 0`
  | eraseHead -- Before the second `write_head` of `commit`
  | finish -- Back in `end_op`, after `commit`
  deriving DecidableEq, Repr

/-- Between `begin_op` and `end_op`. -/
def Pc.InOp : Pc → Prop
  | .op _ => True
  | _ => False

/-- Between setting and clearing `log.committing` in `end_op`. -/
def Pc.InCommit : Pc → Prop
  | .commit | .writeLog _ | .writeHead | .install _ | .clear | .eraseHead | .finish => True
  | _ => False

/-- A transaction on disk: the header written, and the blocks that should be in it. -/
structure Transaction where
  header : List BlockNo
  logged : List BlockNo
  deriving DecidableEq, Repr

/-- `struct log` and the processes using it. -/
structure Group (P : Type) where
  outstanding : ℤ
  committing : Bool
  lh : List BlockNo
  pc : P → Pc
  panic : Option Panic
  ended : List BlockNo
  committed : List Transaction

/-- The steps of process `p`. -/
inductive Act (P : Type)
  | beginOp (p : P)
  | tryBegin (p : P)
  | logWrite (p : P) (b : BlockNo)
  | endOp (p : P)
  | commitStep (p : P)

variable {P : Type} [DecidableEq P]

namespace Group

/-- No operation, an empty log. -/
def init : Group P := ⟨0, false, [], fun _ => .idle, none, [], []⟩

/-- Move process `p`. -/
def goto (s : Group P) (p : P) (pc : Pc) : Group P := { s with pc := update s.pc p pc }

/-- `wakeup(&log)`. -/
def wakeup (s : Group P) : Group P :=
  { s with pc := fun p => if s.pc p = .asleep then .begin else s.pc p }

/-- One turn of the loop in `begin_op`. -/
def beginOp (s : Group P) (p : P) : Group P :=
  if s.committing then s.goto p .asleep
  else if (s.lh.length : ℤ) + (s.outstanding + 1) * MAXOPBLOCKS > LOGSIZE then s.goto p .asleep
  else ({ s with outstanding := s.outstanding + 1 }).goto p (.op [])

/-- `log_write`, by an operation that has logged `l` so far; a block that is already in the
header is absorbed. -/
def logWrite (size : ℤ) (s : Group P) (p : P) (l : List BlockNo) (b : BlockNo) : Group P :=
  if LOGSIZE ≤ s.lh.length ∨ size - 1 ≤ s.lh.length then { s with panic := some .tooBig }
  else if s.outstanding < 1 then { s with panic := some .outsideTrans }
  else ({ s with lh := if b ∈ s.lh then s.lh else s.lh ++ [b] }).goto p (.op (l ++ [b]))

/-- The first critical section of `end_op`, by an operation that has logged `l`. -/
def endOp (s : Group P) (p : P) (l : List BlockNo) : Group P :=
  let s := { s with outstanding := s.outstanding - 1, ended := s.ended ++ l }
  if s.committing then { s with panic := some .logCommitting }
  else if s.outstanding = 0 then ({ s with committing := true }).goto p .commit
  else s.wakeup.goto p .idle

/-- The steps of `commit`, and the second critical section of `end_op`. -/
def commitStep (s : Group P) (p : P) : Option (Group P) :=
  match s.pc p with
  | .commit => some (s.goto p (if 0 < s.lh.length then .writeLog 0 else .finish))
  | .writeLog tail =>
    some (s.goto p (if tail < s.lh.length then .writeLog (tail + 1) else .writeHead))
  | .writeHead =>
    some (({ s with committed := ⟨s.lh, s.ended⟩ :: s.committed, ended := [] }).goto p (.install 0))
  | .install tail => some (s.goto p (if tail < s.lh.length then .install (tail + 1) else .clear))
  | .clear => some (({ s with lh := [] }).goto p .eraseHead)
  | .eraseHead => some (s.goto p .finish)
  | .finish => some (({ s with committing := false }).wakeup.goto p .idle)
  | _ => none

/-- One step of the system; after a panic nothing runs. -/
def step (size : ℤ) (s : Group P) (a : Act P) : Option (Group P) :=
  if s.panic.isSome then none else
  match a with
  | .beginOp p => if s.pc p = .idle then some (s.goto p .begin) else none
  | .tryBegin p => if s.pc p = .begin then some (s.beginOp p) else none
  | .logWrite p b =>
    match s.pc p with
    | .op l => some (s.logWrite size p l b)
    | _ => none
  | .endOp p =>
    match s.pc p with
    | .op l => some (s.endOp p l)
    | _ => none
  | .commitStep p => s.commitStep p

end Group

/-! ### The invariant -/

/-- What the invariant needs to know of a process. -/
inductive Kind
  | outside
  | op (logged : List BlockNo)
  | commit
  | install
  deriving DecidableEq

/-- Between setting and clearing `log.committing`. -/
def Kind.Commits (k : Kind) : Prop := k = .commit ∨ k = .install

/-- The kind of a program point. -/
def Pc.kind : Pc → Kind
  | .idle | .begin | .asleep => .outside
  | .op l => .op l
  | .install _ | .clear => .install
  | .commit | .writeLog _ | .writeHead | .eraseHead | .finish => .commit

theorem Pc.inOp_iff (pc : Pc) : pc.InOp ↔ ∃ l, pc.kind = .op l := by
  cases pc <;> simp [InOp, kind]

theorem Pc.inCommit_iff (pc : Pc) : pc.InCommit ↔ pc.kind.Commits := by
  cases pc <;> simp [InCommit, kind, Kind.Commits]

/-- Some operation in progress has logged `b`. -/
def Logged (κ : P → Kind) (b : BlockNo) : Prop := ∃ p l, κ p = .op l ∧ b ∈ l

/-- Some operation in progress other than that of `p` has logged `b`. -/
def LoggedElse (κ : P → Kind) (p : P) (b : BlockNo) : Prop := ∃ q l, q ≠ p ∧ κ q = .op l ∧ b ∈ l

omit [DecidableEq P] in
theorem logged_iff (κ : P → Kind) (p : P) (b : BlockNo) :
    Logged κ b ↔ (∃ l, κ p = .op l ∧ b ∈ l) ∨ LoggedElse κ p b := by
  constructor
  · rintro ⟨q, l, hq, hb⟩
    by_cases hqp : q = p
    · subst hqp; exact Or.inl ⟨l, hq, hb⟩
    · exact Or.inr ⟨q, l, hqp, hq, hb⟩
  · rintro (⟨l, hp, hb⟩ | ⟨q, l, _, hq, hb⟩)
    · exact ⟨p, l, hp, hb⟩
    · exact ⟨q, l, hq, hb⟩

theorem logged_update (κ : P → Kind) (p : P) (k : Kind) (b : BlockNo) :
    Logged (update κ p k) b ↔ (∃ l, k = .op l ∧ b ∈ l) ∨ LoggedElse κ p b := by
  rw [logged_iff _ p, update_self]
  refine or_congr_right ⟨?_, ?_⟩ <;> rintro ⟨q, l, hqp, hq, hb⟩ <;> refine ⟨q, l, hqp, ?_, hb⟩
  · rwa [update_of_ne hqp] at hq
  · rwa [update_of_ne hqp]

/-- The invariant, over `log.outstanding`, `log.committing`, the header in memory, the blocks
of the operations that ended, and the kinds of the processes. -/
structure Core (o : ℤ) (c : Bool) (lh ended : List BlockNo) (κ : P → Kind) : Prop where
  /-- `log.outstanding` counts the operations. -/
  count : ∃ S : Finset P, (∀ p, p ∈ S ↔ ∃ l, κ p = .op l) ∧ (S.card : ℤ) = o
  /-- `log.committing` is set exactly while a process is committing. -/
  committing : c = true ↔ ∃ p, (κ p).Commits
  unique : ∀ p q, (κ p).Commits → (κ q).Commits → p = q -- At most one process is
  quiet : c = true → ∀ p l, κ p ≠ .op l -- No operation runs during a commit
  /-- Up to the commit point the header lists what has been logged. -/
  blocks : (∀ p, κ p ≠ .install) → ∀ b, b ∈ lh ↔ b ∈ ended ∨ Logged κ b
  /-- From then until the header is cleared nothing else has been logged. -/
  installed : (∃ p, κ p = .install) → ended = []

namespace Core

variable {o : ℤ} {c : Bool} {lh ended l : List BlockNo} {κ : P → Kind} {p : P}

omit [DecidableEq P] in
theorem committing_of_op (h : Core o c lh ended κ) (hp : κ p = .op l) : c = false := by
  by_contra hc
  exact h.quiet (by simpa using hc) p l hp

omit [DecidableEq P] in
theorem ne_install (h : Core o false lh ended κ) (q : P) : κ q ≠ .install := by
  intro hq
  exact absurd (h.committing.2 ⟨q, Or.inr hq⟩) (by simp)

/-- `begin_op` returns. -/
theorem enter (h : Core o false lh ended κ) (hp : κ p = .outside) :
    Core (o + 1) false lh ended (update κ p (.op [])) := by
  have hni := h.ne_install
  constructor
  · obtain ⟨S, hS, rfl⟩ := h.count
    have hpS : p ∉ S := by rw [hS]; simp [hp]
    refine ⟨insert p S, fun q => ?_, by rw [card_insert_of_notMem hpS]; push_cast; rfl⟩
    rw [mem_insert, hS, update_apply]
    split_ifs with hq <;> simp [hq]
  · have := h.committing
    grind [Kind.Commits, update_apply]
  · have := h.unique
    grind [Kind.Commits, update_apply]
  · simp
  · intro _ b
    rw [h.blocks hni b, logged_update, logged_iff κ p]
    simp [hp]
  · grind [update_apply]

section

variable (h : Core o c lh ended κ)

include h

/-- `log_write` by an operation. -/
theorem log (hp : κ p = .op l) (b : BlockNo) :
    Core o c (if b ∈ lh then lh else lh ++ [b]) ended (update κ p (.op (l ++ [b]))) := by
  have hc := h.committing_of_op hp
  subst hc
  have hni := h.ne_install
  constructor
  · obtain ⟨S, hS, rfl⟩ := h.count
    refine ⟨S, fun q => ?_, rfl⟩
    rw [hS, update_apply]
    split_ifs with hq
    · subst hq; simp [hp]
    · rfl
  · have := h.committing
    grind [Kind.Commits, update_apply]
  · have := h.unique
    grind [Kind.Commits, update_apply]
  · simp
  · intro _ a
    have ha := h.blocks hni a
    have hb := h.blocks hni b
    rw [logged_iff κ p] at ha
    rw [logged_update]
    grind
  · grind [update_apply]

/-- A process that is in no operation stays out of the count. -/
theorem count_keep (hp : ∀ l, κ p ≠ .op l) {k : Kind} (hk : ∀ l, k ≠ .op l) :
    ∃ S : Finset P, (∀ q, q ∈ S ↔ ∃ l, update κ p k q = .op l) ∧ (S.card : ℤ) = o := by
  obtain ⟨S, hS, rfl⟩ := h.count
  refine ⟨S, fun q => ?_, rfl⟩
  rw [hS, update_apply]
  split_ifs with hq
  · subst hq; simp [hp, hk]
  · rfl

theorem count_erase (hp : κ p = .op l) {k : Kind} (hk : ∀ l, k ≠ .op l) :
    ∃ S : Finset P, (∀ q, q ∈ S ↔ ∃ l, update κ p k q = .op l) ∧ (S.card : ℤ) = o - 1 := by
  obtain ⟨S, hS, rfl⟩ := h.count
  have hpS : p ∈ S := (hS p).2 ⟨l, hp⟩
  refine ⟨S.erase p, fun q => ?_, ?_⟩
  · rw [mem_erase, hS, update_apply]
    split_ifs with hq <;> simp [hq, hk]
  · have := card_erase_add_one hpS
    omega

/-- `end_op` by an operation that is not the last one. -/
theorem leave (hp : κ p = .op l) : Core (o - 1) c lh (ended ++ l) (update κ p .outside) := by
  have hc := h.committing_of_op hp
  subst hc
  have hni := h.ne_install
  refine ⟨h.count_erase hp (by simp), ?_, ?_, by simp, ?_, ?_⟩
  · have := h.committing
    grind [Kind.Commits, update_apply]
  · have := h.unique
    grind [Kind.Commits, update_apply]
  · intro _ b
    rw [h.blocks hni b, logged_update, logged_iff κ p, hp]
    simp [or_assoc]
  · grind [update_apply]

/-- `end_op` by the last operation: it starts the commit. -/
theorem start (hp : κ p = .op l) (ho : o - 1 = 0) :
    Core (o - 1) true lh (ended ++ l) (update κ p .commit) := by
  have hc := h.committing_of_op hp
  subst hc
  have hni := h.ne_install
  have hcount := h.count_erase hp (k := .commit) (by simp)
  have hnone : ∀ q l, update κ p .commit q ≠ .op l := by
    obtain ⟨S, hS, hcard⟩ := hcount
    rw [ho, Nat.cast_eq_zero, card_eq_zero] at hcard
    subst hcard
    intro q l hq
    exact absurd ((hS q).2 ⟨l, hq⟩) (notMem_empty q)
  have hcom := h.committing
  refine ⟨hcount, ?_, ?_, fun _ => hnone, ?_, ?_⟩
  · exact ⟨fun _ => ⟨p, by simp [Kind.Commits]⟩, fun _ => rfl⟩
  · grind [Kind.Commits, update_apply]
  · intro _ b
    rw [h.blocks hni b, logged_update, logged_iff κ p, hp]
    simp [or_assoc]
  · grind [update_apply]

omit [DecidableEq P] in
/-- The commit point: the header written is exactly what the ended operations logged. -/
theorem header (hp : κ p = .commit) (b : BlockNo) : b ∈ lh ↔ b ∈ ended := by
  have hc := h.committing.2 ⟨p, Or.inl hp⟩
  have hni : ∀ q, κ q ≠ .install := by
    intro q hq
    have := h.unique p q (Or.inl hp) (Or.inr hq)
    subst this
    rw [hp] at hq
    cases hq
  have hnone : ¬ Logged κ b := fun ⟨q, l, hq, _⟩ => h.quiet hc q l hq
  rw [h.blocks hni b, or_iff_left hnone]

theorem record (hp : κ p = .commit) : Core o c lh [] (update κ p .install) := by
  have hc := h.committing.2 ⟨p, Or.inl hp⟩
  subst hc
  have hq := h.quiet rfl
  have hu := h.unique
  refine ⟨?_, ?_, ?_, ?_, ?_, fun _ => rfl⟩
  · exact h.count_keep (by simp [hp]) (by simp)
  · exact ⟨fun _ => ⟨p, by simp [Kind.Commits]⟩, fun _ => rfl⟩
  · grind [Kind.Commits, update_apply]
  · grind [update_apply]
  · intro hni
    exact absurd (update_self p Kind.install κ) (hni p)

/-- `log.lh.n = 0`. -/
theorem clear (hp : κ p = .install) : Core o c [] ended (update κ p .commit) := by
  have hc := h.committing.2 ⟨p, Or.inr hp⟩
  subst hc
  have hq := h.quiet rfl
  have hu := h.unique
  have he := h.installed ⟨p, hp⟩
  subst he
  refine ⟨?_, ?_, ?_, ?_, ?_, fun _ => rfl⟩
  · exact h.count_keep (by simp [hp]) (by simp)
  · exact ⟨fun _ => ⟨p, by simp [Kind.Commits]⟩, fun _ => rfl⟩
  · grind [Kind.Commits, update_apply]
  · grind [update_apply]
  · intro _ b
    rw [logged_update]
    simp only [List.not_mem_nil, reduceCtorEq, false_and, exists_false, false_or, false_iff]
    exact fun ⟨q, l, _, hql, _⟩ => hq q l hql

/-- `log.committing = 0`. -/
theorem finish (hp : κ p = .commit) : Core o false lh ended (update κ p .outside) := by
  have hc := h.committing.2 ⟨p, Or.inl hp⟩
  subst hc
  have hq := h.quiet rfl
  have hu := h.unique
  have hb := h.header hp
  refine ⟨?_, ?_, ?_, by simp, ?_, ?_⟩
  · exact h.count_keep (by simp [hp]) (by simp)
  · grind [Kind.Commits, update_apply]
  · grind [Kind.Commits, update_apply]
  · intro _ b
    rw [hb b, logged_update]
    refine (or_iff_left ?_).symm
    rintro (⟨l, hl, _⟩ | ⟨q, l, _, hql, _⟩)
    · cases hl
    · exact hq q l hql
  · grind [Kind.Commits, update_apply]

end

end Core

namespace Group

/-- The kinds of all processes. -/
def kind (s : Group P) : P → Kind := fun p => (s.pc p).kind

@[simp] theorem kind_goto (s : Group P) (p : P) (pc : Pc) :
    (s.goto p pc).kind = update s.kind p pc.kind := by
  funext q
  by_cases hq : q = p
  · subst hq; simp [kind, goto]
  · simp [kind, goto, update_of_ne hq]

omit [DecidableEq P] in
@[simp] theorem kind_wakeup (s : Group P) : s.wakeup.kind = s.kind := by
  funext q
  simp only [kind, wakeup]
  split_ifs with h
  · rw [h]; rfl
  · rfl

/-- The invariant of the group commit. -/
structure Inv (s : Group P) : Prop where
  core : Core s.outstanding s.committing s.lh s.ended s.kind
  recorded : ∀ t ∈ s.committed, ∀ b, b ∈ t.header ↔ b ∈ t.logged
  noPanic : s.panic ≠ some .logCommitting

variable {s s' : Group P} {p : P}

omit [DecidableEq P] in
theorem inv_init : Inv (init : Group P) where
  core :=
    { count := ⟨∅, by simp [kind, init, Pc.kind], by simp [init]⟩
      committing := by simp [kind, init, Pc.kind, Kind.Commits]
      unique := by simp [kind, init, Pc.kind, Kind.Commits]
      quiet := by simp [init]
      blocks := by simp [kind, init, Pc.kind, Logged]
      installed := by simp [kind, init, Pc.kind] }
  recorded := by simp [init]
  noPanic := by simp [init]

theorem Inv.goto (h : Inv s) {pc : Pc} (hk : s.kind p = pc.kind) : Inv (s.goto p pc) := by
  refine ⟨?_, h.recorded, h.noPanic⟩
  rw [kind_goto, ← hk, update_eq_self]
  exact h.core

theorem inv_beginOp (h : Inv s) (hp : s.kind p = .outside) : Inv (s.beginOp p) := by
  unfold beginOp
  split_ifs with hc hfull
  · exact h.goto hp
  · exact h.goto hp
  · refine ⟨?_, h.recorded, h.noPanic⟩
    have hcore := h.core
    rw [Bool.not_eq_true] at hc
    rw [hc] at hcore
    have := hcore.enter hp
    rw [← hc] at this
    rw [kind_goto]
    exact this

theorem inv_logWrite (size : ℤ) (h : Inv s) {l : List BlockNo} (hp : s.kind p = .op l)
    (b : BlockNo) : Inv (s.logWrite size p l b) := by
  unfold logWrite
  by_cases hbig : LOGSIZE ≤ s.lh.length ∨ size - 1 ≤ s.lh.length
  · rw [if_pos hbig]
    exact ⟨h.core, h.recorded, by simp⟩
  · rw [if_neg hbig]
    by_cases hout : s.outstanding < 1
    · rw [if_pos hout]
      exact ⟨h.core, h.recorded, by simp⟩
    · rw [if_neg hout]
      refine ⟨?_, h.recorded, h.noPanic⟩
      rw [kind_goto]
      exact h.core.log hp b

/-- `end_op` never reaches its panic: an operation is outstanding, so nobody is committing. -/
theorem inv_endOp (h : Inv s) {l : List BlockNo} (hp : s.kind p = .op l) : Inv (s.endOp p l) := by
  have hc := h.core.committing_of_op hp
  unfold endOp
  simp only [hc, Bool.false_eq_true, if_false]
  split_ifs with ho
  · refine ⟨?_, h.recorded, h.noPanic⟩
    rw [kind_goto]
    exact h.core.start hp ho
  · refine ⟨?_, h.recorded, h.noPanic⟩
    have := h.core.leave hp
    rw [hc] at this
    rw [kind_goto, kind_wakeup]
    exact this

theorem inv_commitStep (h : Inv s) (hs : s.commitStep p = some s') : Inv s' := by
  unfold commitStep at hs
  cases hpc : s.pc p with
  | commit | writeLog tail | install tail =>
    rw [hpc] at hs
    cases hs
    exact h.goto (by split_ifs <;> simp [kind, hpc, Pc.kind])
  | writeHead =>
    rw [hpc] at hs
    cases hs
    have hk : s.kind p = .commit := by simp [kind, hpc, Pc.kind]
    refine ⟨?_, ?_, h.noPanic⟩
    · rw [kind_goto]
      exact h.core.record hk
    · intro t ht
      rcases List.mem_cons.1 ht with rfl | ht
      · exact h.core.header hk
      · exact h.recorded t ht
  | clear =>
    rw [hpc] at hs
    cases hs
    refine ⟨?_, h.recorded, h.noPanic⟩
    rw [kind_goto]
    exact h.core.clear (by simp [kind, hpc, Pc.kind])
  | eraseHead =>
    rw [hpc] at hs
    cases hs
    exact h.goto (by simp [kind, hpc, Pc.kind])
  | finish =>
    rw [hpc] at hs
    cases hs
    refine ⟨?_, h.recorded, h.noPanic⟩
    rw [kind_goto, kind_wakeup]
    exact h.core.finish (by simp [kind, hpc, Pc.kind])
  | idle | begin | asleep | op l => simp [hpc] at hs

theorem inv_step (size : ℤ) (a : Act P) (h : Inv s) (hs : step size s a = some s') : Inv s' := by
  unfold step at hs
  split_ifs at hs
  cases a with
  | beginOp q =>
    simp only at hs
    split_ifs at hs with hq
    cases hs
    exact h.goto (by simp [kind, hq, Pc.kind])
  | tryBegin q =>
    simp only at hs
    split_ifs at hs with hq
    cases hs
    exact inv_beginOp h (by simp [kind, hq, Pc.kind])
  | logWrite q b =>
    simp only at hs
    split at hs
    · rename_i l hq
      cases hs
      exact inv_logWrite size h (by simp [kind, hq, Pc.kind]) b
    · cases hs
  | endOp q =>
    simp only at hs
    split at hs
    · rename_i l hq
      cases hs
      exact inv_endOp h (by simp [kind, hq, Pc.kind])
    · cases hs
  | commitStep q => exact inv_commitStep h hs

/-- `begin_op` returns only in a turn of its loop that finds `log.committing` clear. -/
theorem committing_of_tryBegin {size : ℤ} (hs : step size s (.tryBegin p) = some s')
    (hp : (s'.pc p).InOp) : s.committing = false := by
  unfold step at hs
  simp only at hs
  split_ifs at hs
  cases hs
  by_contra hc
  rw [Bool.not_eq_false] at hc
  simp [beginOp, hc, goto, Pc.InOp] at hp

/-- **Group commit isolation.** In every state any number of processes can reach:
while one of them commits, none is between `begin_op` and `end_op`; no `begin_op` returns
while `log.committing` is set; `end_op` has not reached its panic; and every transaction put
on disk lists exactly the blocks logged by the operations that ended since the previous
one. -/
theorem group_commit_isolation {size : ℤ} {tr : List (Act P)}
    (h : Reach (step size) Always init tr s) :
    (∀ p, (s.pc p).InCommit → ∀ q, ¬ (s.pc q).InOp) ∧
      (∀ p s', step size s (.tryBegin p) = some s' → (s'.pc p).InOp → s.committing = false) ∧
      (s.committing = true → ∀ q, ¬ (s.pc q).InOp) ∧
      s.panic ≠ some .logCommitting ∧
      ∀ t ∈ s.committed, ∀ b, b ∈ t.header ↔ b ∈ t.logged := by
  have hinv : Inv s := h.state_invariant inv_init fun s a s' hi _ hs => inv_step size a hi hs
  have hquiet : s.committing = true → ∀ q, ¬ (s.pc q).InOp := by
    intro hc q hq
    obtain ⟨l, hl⟩ := (Pc.inOp_iff _).1 hq
    exact hinv.core.quiet hc q l hl
  refine ⟨fun p hp => ?_, fun p s' => committing_of_tryBegin, hquiet, hinv.noPanic,
    hinv.recorded⟩
  exact hquiet (hinv.core.committing.2 ⟨p, (Pc.inCommit_iff _).1 hp⟩)

/-- Two overlapping operations that log three blocks between them, and the commit of both. -/
def twoOps : List (Act Bool) :=
  [.beginOp true, .tryBegin true, .logWrite true 40, .beginOp false, .tryBegin false,
    .logWrite false 50, .endOp true, .logWrite false 40, .logWrite false 60, .endOp false,
    .commitStep false, .commitStep false, .commitStep false, .commitStep false,
    .commitStep false, .commitStep false]

theorem group_commit_isolation_twoOps :
    ∃ s : Group Bool, run (step 30) init twoOps = some s ∧
      s.committed = [⟨[40, 50, 60], [40, 50, 40, 60]⟩] ∧
      ∀ t ∈ s.committed, ∀ b, b ∈ t.header ↔ b ∈ t.logged := by
  obtain ⟨s, hs, hc⟩ : ∃ s ∈ run (step 30) init twoOps,
      s.committed = [⟨[40, 50, 60], [40, 50, 40, 60]⟩] := by decide
  have hreach := reach_always hs
  exact ⟨s, hs, hc, (group_commit_isolation hreach).2.2.2.2⟩

end Group

end Xv6.Log
