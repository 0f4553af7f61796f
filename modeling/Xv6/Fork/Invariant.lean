import Xv6.Fork.Slots

/-!
# The process table between the steps of `fork`, `exit` and `wait`

A slot that a call of `fork` has claimed is `USED` and belongs to this call until it is released;
a slot that a failed call has freed stays free until the call is over.  A thread in one of the
functions belongs to a process that is not a zombie, or it has just marked it.

A step changes one slot and moves one thread; what has to be known of the slot before and after is
said once, in `Change`.
-/

namespace Xv6.Fork

open Function
open Vm (npages)

variable {k k' : Kernel} {n : ProcId → ℕ} {x y : Tid} {q r : ProcId}

namespace Pos

/-- The slot that a call of `fork` has claimed and works on. -/
def claim : Pos → Option ProcId
  | .frame q | .table q | .thread q | .copy q _ _ | .undo q _ | .made q _ | .adopt q _
  | .adopted q _ | .start q _ => some q
  | _ => none

/-- The slot that a failed call of `fork` has freed. -/
def freed : Pos → Option ProcId
  | .drop q _ | .again q => some q
  | _ => none

/-- The slot of a call of `fork` that has not yet succeeded. -/
def attempt : Pos → Option ProcId
  | .frame q | .table q | .thread q | .copy q _ _ | .undo q _ | .drop q _ | .again q => some q
  | _ => none

/-- How often the call has released the lock of this slot. -/
def releases : Pos → ℕ
  | .again _ => 1
  | _ => 0

/-- The thread executes, and has not marked its process as a zombie. -/
def live : Pos → Bool
  | .exited | .gone | .dead => false
  | _ => true

/-- The thread has marked its process as a zombie. -/
def leaving : Pos → Bool
  | .exited | .gone => true
  | _ => false

end Pos

/-- Thread `t` is set up, the other thread slots are free. -/
def Slot.One (p : Slot) (t : ThreadId) : Prop :=
  (p.threads t).state = .used ∧ ∀ u, u ≠ t → p.threads u = .free

/-- How far the claimed slot has been set up, with `n` pages of user memory. -/
def Pos.Stage : Pos → Slot → ℕ → Prop
  | .frame _, p, n => p.trapframe = none ∧ p.pagetable = none ∧ (∀ t, p.threads t = .free) ∧
      p.sz = 0 ∧ n = npages p.sz
  | .table _, p, n => p.trapframe.isSome ∧ p.pagetable = none ∧ (∀ t, p.threads t = .free) ∧
      p.sz = 0 ∧ n = npages p.sz
  | .thread _, p, n => p.pagetable.isSome ∧ (∀ t, p.threads t = .free) ∧ p.sz = 0 ∧ n = npages p.sz
  | .copy _ t i, p, n => p.pagetable.isSome ∧ p.One t ∧ p.sz = 0 ∧ n = i
  | .undo _ _, p, n => (∀ t, (p.threads t).state = .unused ∨ (p.threads t).state = .used) ∧
      n = npages p.sz
  | .made _ t, p, n | .adopt _ t, p, n | .adopted _ t, p, n | .start _ t, p, n =>
      p.pagetable.isSome ∧ p.One t ∧ n = npages p.sz
  | _, _, _ => True

/-- The locks are held as the positions say. -/
def Kernel.Locks (k : Kernel) : Prop :=
  Spinlock.Consistent k.lock fun x l => l ∈ (k.pos x).locks x.1

/-- What the call of `fork` of thread `x` has noted about slot `q`. -/
structure Noted (k : Kernel) (x : Tid) (q : ProcId) : Prop where
  slot : (k.call x).slot = some q
  releases : (k.call x).releases = (k.pos x).releases
  pages : {b | b ∈ (k.call x).pages} = (k.slot q).pages k.mem

/-- A slot, as far as its state tells. -/
structure StateOk (p : Slot) (n : ℕ) : Prop where
  unused : p.state = .unused → p = .free
  used : p.state = .used → ∀ t, (p.threads t).state = .unused ∨ (p.threads t).state = .used
  runnable : p.state = .runnable → p.pagetable.isSome
  zombie : p.state = .zombie → ∀ t, (p.threads t).state = .unused ∨ (p.threads t).state = .zombie
  count : p.state ≠ .used → n = npages p.sz

/-- What the position of a thread says about the slots. -/
structure PosOk (k : Kernel) (n : ProcId → ℕ) (x : Tid) : Prop where
  live : (k.pos x).live = true → (k.slot x.1).state = .runnable ∧
    ((k.thread x).state = .runnable ∨ (k.thread x).state = .running)
  leaving : (k.pos x).leaving = true → (k.slot x.1).state = .zombie
  claim : ∀ q, (k.pos x).claim = some q → (k.slot q).state = .used ∧
    (k.pos x).Stage (k.slot q) (n q)
  freed : ∀ q, (k.pos x).freed = some q → (k.slot q).state = .unused
  copied : ∀ q t i, k.pos x = .copy q t i → i ≤ npages (k.slot x.1).sz
  noted : ∀ q, (k.pos x).attempt = some q → Noted k x q

structure Inv (k : Kernel) (n : ProcId → ℕ) : Prop where
  mem : MemOk k.mem k.slot n
  locks : k.Locks
  state : ∀ q, StateOk (k.slot q) (n q)
  pos : ∀ x, PosOk k n x
  unique : ∀ x y q, (k.pos x).claim = some q → (k.pos y).claim = some q → x = y
  solo : ∀ q t u, k.pos (q, t) ≠ .dead → k.pos (q, u) ≠ .dead → t = u

namespace Inv

/-- A thread whose process is in a state that no executing thread has does not execute. -/
theorem dead_of_state (h : Inv k n) (h1 : (k.slot x.1).state ≠ .runnable)
    (h2 : (k.slot x.1).state ≠ .zombie) : k.pos x = .dead := by
  have hlive : ¬ (k.pos x).live = true := fun hl => h1 ((h.pos x).live hl).1
  have hleaving : ¬ (k.pos x).leaving = true := fun hl => h2 ((h.pos x).leaving hl)
  cases hp : k.pos x <;> simp_all [Pos.live, Pos.leaving]

theorem attempt_cases {p : Pos} (h : p.attempt = some q) : p.claim = some q ∨ p.freed = some q := by
  cases p <;> simp_all [Pos.attempt, Pos.claim, Pos.freed]

end Inv

/-- Thread `y` has nothing to do with slot `q`, which becomes `p`. -/
structure Apart (k : Kernel) (q : ProcId) (p : Slot) (y : Tid) : Prop where
  claim : (k.pos y).claim ≠ some q
  freed : (k.pos y).freed ≠ some q
  own : y.1 = q → k.pos y ≠ .dead → p.state = (k.slot q).state ∧
    p.threads y.2 = (k.slot q).threads y.2 ∧ p.sz = (k.slot q).sz

/-- Thread `x` moves, and slot `q` becomes `p`, with `c` pages of user memory. -/
structure Change (k k' : Kernel) (n : ProcId → ℕ) (x : Tid) (q : ProcId) (p : Slot) (c : ℕ) :
    Prop where
  work : Works k.mem k'.mem (k.slot q) p c
  slot : k'.slot = update k.slot q p
  locks : k'.Locks
  state : StateOk p c
  pos : ∀ y, y ≠ x → k'.pos y = k.pos y
  call : ∀ y, y ≠ x → k'.call y = k.call y
  other : ∀ y, y ≠ x → k'.mem = k.mem ∧ p = k.slot q ∧ c = n q ∨ Apart k q p y
  self : PosOk k' (update n q c) x
  /-- A new claim is one of a slot that nobody has claimed. -/
  fresh : ∀ r, (k'.pos x).claim = some r → (k.pos x).claim = some r ∨ (k.slot r).state ≠ .used
  exec : k'.pos x ≠ .dead → k.pos x ≠ .dead

namespace Change

variable {p : Slot} {c : ℕ}

section

variable (h : Change k k' n x q p c)

include h

theorem slot_of_ne (hr : r ≠ q) : k'.slot r = k.slot r := by
  rw [h.slot, update_of_ne hr]

theorem slot_self : k'.slot q = p := by
  rw [h.slot, update_self]

theorem own_of_ne (hi : Inv k n) (hr : r ≠ q) : (k'.slot r).own k'.mem = (k.slot r).own k.mem := by
  rw [h.slot_of_ne hr]
  exact ((hi.mem.work q h.work).2 r hr).1

/-- A slot that another thread has claimed or freed stays the same, with its pages. -/
theorem target_keep (hi : Inv k n) (hy : y ≠ x)
    (hr : (k.pos y).claim = some r ∨ (k.pos y).freed = some r) :
    k'.slot r = k.slot r ∧ update n q c r = n r ∧
      (k'.slot r).pages k'.mem = (k.slot r).pages k.mem := by
  by_cases hq : r = q
  · subst hq
    rcases h.other y hy with ⟨hm, hp, hc⟩ | hapart
    · rw [h.slot_self, hp, hc, hm, update_self]
      exact ⟨rfl, rfl, rfl⟩
    · exact (hr.elim hapart.claim hapart.freed).elim
  · refine ⟨h.slot_of_ne hq, update_of_ne hq .., ?_⟩
    unfold Slot.pages
    rw [h.own_of_ne hi hq]

/-- So does what matters of the process of another thread. -/
theorem own_keep (hy : y ≠ x) (hpos : k.pos y ≠ .dead) :
    (k'.slot y.1).state = (k.slot y.1).state ∧ k'.thread y = k.thread y ∧
      (k'.slot y.1).sz = (k.slot y.1).sz := by
  unfold Kernel.thread
  by_cases hq : y.1 = q
  · rw [hq, h.slot_self]
    rcases h.other y hy with ⟨-, hp, -⟩ | hapart
    · rw [hp]
      exact ⟨rfl, rfl, rfl⟩
    · exact hapart.own hq hpos
  · rw [h.slot_of_ne hq]
    exact ⟨rfl, rfl, rfl⟩

theorem posOk (hi : Inv k n) (hy : y ≠ x) : PosOk k' (update n q c) y := by
  have hpos := hi.pos y
  have heq := h.pos y hy
  constructor
  · intro hl
    rw [heq] at hl
    obtain ⟨hst, hth, -⟩ := h.own_keep hy (fun hd => by rw [hd] at hl; cases hl)
    rw [hst, hth]
    exact hpos.live hl
  · intro hl
    rw [heq] at hl
    rw [(h.own_keep hy (fun hd => by rw [hd] at hl; cases hl)).1]
    exact hpos.leaving hl
  · intro r hr
    rw [heq] at hr ⊢
    obtain ⟨hslot, hn, -⟩ := h.target_keep hi hy (.inl hr)
    rw [hslot, hn]
    exact hpos.claim r hr
  · intro r hr
    rw [heq] at hr
    rw [(h.target_keep hi hy (.inr hr)).1]
    exact hpos.freed r hr
  · intro r t i hc
    rw [heq] at hc
    rw [(h.own_keep hy (fun hd => by rw [hd] at hc; cases hc)).2.2]
    exact hpos.copied r t i hc
  · intro r hr
    rw [heq] at hr
    have hn := hpos.noted r hr
    obtain ⟨-, -, hpages⟩ := h.target_keep hi hy (Inv.attempt_cases hr)
    constructor
    · rw [h.call y hy]
      exact hn.slot
    · rw [h.call y hy, heq]
      exact hn.releases
    · rw [h.call y hy, hpages]
      exact hn.pages

/-- **The invariant is kept.** -/
theorem inv (hi : Inv k n) : Inv k' (update n q c) := by
  have hpos : ∀ y, PosOk k' (update n q c) y := by
    intro y
    by_cases hy : y = x
    · subst hy
      exact h.self
    · exact h.posOk hi hy
  have hclaim : ∀ y r, y ≠ x → (k'.pos y).claim = some r → (k'.pos x).claim = some r → False := by
    intro y r hy hyr hxr
    rw [h.pos y hy] at hyr
    rcases h.fresh r hxr with hxr | hused
    · exact hy (hi.unique y x r hyr hxr)
    · exact hused ((hi.pos y).claim r hyr).1
  have hexec : ∀ y, k'.pos y ≠ .dead → k.pos y ≠ .dead := by
    intro y hy
    by_cases hyx : y = x
    · subst hyx
      exact h.exec hy
    · rwa [← h.pos y hyx]
  refine ⟨?_, h.locks, fun r => ?_, hpos, fun y z r hy hz => ?_,
    fun r t u ht hu => hi.solo r t u (hexec _ ht) (hexec _ hu)⟩
  · rw [h.slot]
    exact (hi.mem.work q h.work).1
  · by_cases hr : r = q
    · rw [hr, h.slot_self, update_self]
      exact h.state
    · rw [h.slot_of_ne hr, update_of_ne hr]
      exact hi.state r
  · by_cases hyx : y = x <;> by_cases hzx : z = x
    · rw [hyx, hzx]
    · exact (hclaim z r hzx hz (hyx ▸ hy)).elim
    · exact (hclaim y r hyx hy (hzx ▸ hz)).elim
    · rw [h.pos y hyx] at hy
      rw [h.pos z hzx] at hz
      exact hi.unique y z r hy hz

end

end Change

/-! ### Locks -/

section

variable {p : Pos} {l : Lk}

/-- Thread `x` moves to a position with the same locks. -/
theorem Kernel.Locks.same (h : k.Locks) (hlock : k'.lock = k.lock)
    (hpos : k'.pos = update k.pos x p) (hp : p.locks x.1 = (k.pos x).locks x.1) : k'.Locks := by
  unfold Kernel.Locks
  rw [hlock]
  refine h.congr fun y l => ?_
  rw [hpos]
  by_cases hy : y = x
  · rw [hy, update_self, hp]
  · rw [update_of_ne hy]

theorem Kernel.Locks.acquire (h : k.Locks) (hlock : Spinlock.acquire k.lock x l = some k'.lock)
    (hpos : k'.pos = update k.pos x p) (hp : p.locks x.1 = l :: (k.pos x).locks x.1) :
    k'.Locks := by
  refine Spinlock.Consistent.acquire h hlock (fun l' => ?_) fun y hy l' => ?_
  · rw [hpos, update_self, hp, List.mem_cons]
  · rw [hpos, update_of_ne hy]

theorem Kernel.Locks.release (h : k.Locks) (hlock : Spinlock.release k.lock x l = some k'.lock)
    (hpos : k'.pos = update k.pos x p)
    (hp : ∀ l', l' ∈ p.locks x.1 ↔ l' ≠ l ∧ l' ∈ (k.pos x).locks x.1) : k'.Locks := by
  refine Spinlock.Consistent.release h hlock (fun l' => ?_) fun y hy l' => ?_
  · rw [hpos, update_self, hp]
  · rw [hpos, update_of_ne hy]

end

end Xv6.Fork
