import Xv6.Lib.Run
import Xv6.Lib.Spinlock
import Xv6.Proc.Struct

/-!
# Binary semaphores (`bsem_alloc`, `bsem_free`, `bsem_down`, `bsem_up` of `kernel/proc.c`)

Any number of threads call the four functions on the table `bsems`.  A step is one statement, or one
lock operation with the statements around it that touch only the caller's data; `sleep` and `wakeup`
are the kernel's, with `bsem_lock` and the lock of each process.  `kill` may wake a thread at any
time.

The ghost component `events` lists what has happened to the table, the last event first.
-/

namespace Xv6.Sem

open Function Transition

/-- An index of `bsems`. -/
abbrev BsemId := Fin MAX_BSEM

instance : NeZero MAX_BSEM := ⟨by decide⟩

/-- `struct bsem`. -/
structure Bsem where
  state : Bool
  bid : ℤ
  unlocked : Bool
  deriving DecidableEq, Repr

abbrev Bsems := BsemId → Bsem

/-- The table before the first call. -/
def Bsems.zero : Bsems := fun _ => ⟨false, 0, false⟩

/-- What `bsem_alloc` stores in the entry it takes. -/
def Bsems.take (tbl : Bsems) (b : BsemId) : Bsems := update tbl b ⟨true, b.val, true⟩

/-- What `bsem_free` stores. -/
def Bsems.free (tbl : Bsems) (b : BsemId) : Bsems :=
  update tbl b { tbl b with state := false }

/-- `b->unlocked = v`. -/
def Bsems.setUnlocked (tbl : Bsems) (b : BsemId) (v : Bool) : Bsems :=
  update tbl b { tbl b with unlocked := v }

theorem Bsems.bid_take (tbl : Bsems) (b c : BsemId) :
    (tbl.take b c).bid = (tbl c).bid ∨ (tbl.take b c).bid = c.val := by
  by_cases hc : c = b
  · subst hc; exact .inr (by simp [take])
  · exact .inl (by simp [take, update_of_ne hc])

theorem Bsems.bid_free (tbl : Bsems) (b c : BsemId) : (tbl.free b c).bid = (tbl c).bid := by
  by_cases hc : c = b
  · subst hc; simp [free]
  · simp [free, update_of_ne hc]

theorem Bsems.bid_setUnlocked (tbl : Bsems) (b c : BsemId) (v : Bool) :
    (tbl.setUnlocked b v c).bid = (tbl c).bid := by
  by_cases hc : c = b
  · subst hc; simp [setUnlocked]
  · simp [setUnlocked, update_of_ne hc]

/-- What has happened to the table. -/
inductive Event
  | alloc (b : BsemId)
  | allocFailed -- `bsem_alloc` has found no free entry
  | free (b : BsemId)
  | down (b : BsemId)
  | up (b : BsemId)
  deriving DecidableEq, Repr

inductive Lk
  | bsem
  | proc (q : ProcId)
  deriving DecidableEq, Repr

/-- Where a thread is. -/
inductive Pc
  | user
  | scan (k : ℕ) -- `bsem_alloc`: the loop, at entry `k`
  | take (b : BsemId) -- `bsem_alloc`: entry `b` is free
  | taken (b : BsemId) -- `bsem_alloc`: `release(&bsem_lock)`, with entry `b` taken
  | allocRet (b : BsemId) -- `bsem_alloc`: `return b->bid`
  | free (b : BsemId) -- `bsem_free`: `b->state = 0`
  | test (b : BsemId) -- `bsem_down`: the test of the loop
  | closing (b : BsemId) -- `bsem_down`: `b->unlocked = 0`
  | sleep0 (b : BsemId) -- `sleep`: `acquire(&p->lock)`
  | sleep1 (b : BsemId) -- `sleep`: `release(lk)`
  | sleep2 (b : BsemId) -- `sleep`: `t->chan = chan; t->state = SLEEPING`
  | slept (b : BsemId) -- `sleep`: switched to the scheduler, which releases `p->lock`
  | asleep (b : BsemId) -- `sleep`: switched out
  | woken (b : BsemId) -- `sleep`: `release(&p->lock)` after waking up
  | reacquire (b : BsemId) -- `sleep`: `acquire(lk)`
  | opening (b : BsemId) -- `bsem_up`: `b->unlocked = 1`
  /-- `wakeup`: `acquire(&p->lock)` of the first slot of the list; then `release(&bsem_lock)`. -/
  | wake (b : BsemId) (qs : List ProcId)
  | waking (b : BsemId) (q : ProcId) (qs : List ProcId) -- `wakeup`: `release(&p->lock)` of slot `q`
  | unlock -- `release(&bsem_lock)`, at the end of the call
  deriving DecidableEq, Repr

/-- The locks a thread of process `p` holds at a position. -/
def Pc.locks (p : ProcId) : Pc → List Lk
  | .user | .allocRet _ | .asleep _ | .reacquire _ => []
  | .sleep1 _ => [.proc p, .bsem]
  | .sleep2 _ | .slept _ | .woken _ => [.proc p]
  | .waking _ q _ => [.proc q, .bsem]
  | _ => [.bsem]

/-- The four functions. -/
inductive Call
  | alloc
  | free (b : BsemId)
  | down (b : BsemId)
  | up (b : BsemId)
  deriving DecidableEq, Repr

/-- Where a call goes on after `acquire(&bsem_lock)`. -/
def Call.start : Call → Pc
  | .alloc => .scan 0
  | .free b => .free b
  | .down b => .test b
  | .up b => .opening b

structure Sys (T : Type) where
  bsems : Bsems
  lock : Lk → Option T
  state : T → ProcState
  chan : T → Option BsemId
  pc : T → Pc
  events : List Event

inductive Act (T : Type)
  | call (t : T) (c : Call)
  | go (t : T)
  | kill (q : ProcId)

namespace Sys

variable {T : Type} [DecidableEq T]

/-- No semaphore, and all threads outside the four functions. -/
def init : Sys T := ⟨.zero, fun _ => none, fun _ => .running, fun _ => none, fun _ => .user, []⟩

def goto (s : Sys T) (t : T) (p : Pc) : Sys T := { s with pc := update s.pc t p }

def acquire (s : Sys T) (t : T) (l : Lk) : Option (Sys T) := do
  let lock ← Spinlock.acquire s.lock t l
  some { s with lock := lock }

def release (s : Sys T) (t : T) (l : Lk) : Option (Sys T) := do
  let lock ← Spinlock.release s.lock t l
  some { s with lock := lock }

/-- The table changes, and the event is recorded. -/
def write (s : Sys T) (tbl : Bsems) (e : Event) : Sys T :=
  { s with bsems := tbl, events := e :: s.events }

variable (proc : T → ProcId)

/-- The turn of `wakeup` for the threads of slot `q`, called by thread `u`. -/
def wakeSlot (s : Sys T) (u : T) (q : ProcId) (b : BsemId) : Sys T :=
  { s with state := fun t =>
      if proc t = q ∧ t ≠ u ∧ s.state t = .sleeping ∧ s.chan t = some b then .runnable
      else s.state t }

/-- The threads of slot `q` that `kill` finds sleeping. -/
def killSlot (s : Sys T) (q : ProcId) : Sys T :=
  { s with state := fun t => if proc t = q ∧ s.state t = .sleeping then .runnable else s.state t }

/-- The next step of thread `t` inside one of the functions. -/
def goStep (s : Sys T) (t : T) : Option (Sys T) :=
  match s.pc t with
  | .user => none
  | .scan k =>
    if h : k < MAX_BSEM then
      some (s.goto t (if (s.bsems ⟨k, h⟩).state then .scan (k + 1) else .take ⟨k, h⟩))
    else some ((s.write s.bsems .allocFailed).goto t .unlock)
  | .take b => some ((s.write (s.bsems.take b) (.alloc b)).goto t (.taken b))
  | .taken b => (s.release t .bsem).map (·.goto t (.allocRet b))
  | .allocRet _ => some (s.goto t .user)
  | .free b => some ((s.write (s.bsems.free b) (.free b)).goto t .unlock)
  | .test b => some (s.goto t (if (s.bsems b).unlocked then .closing b else .sleep0 b))
  | .closing b => some ((s.write (s.bsems.setUnlocked b false) (.down b)).goto t .unlock)
  | .sleep0 b => (s.acquire t (.proc (proc t))).map (·.goto t (.sleep1 b))
  | .sleep1 b => (s.release t .bsem).map (·.goto t (.sleep2 b))
  | .sleep2 b =>
    some ({ s with
      chan := update s.chan t (some b)
      state := update s.state t .sleeping }.goto t (.slept b))
  | .slept b => (s.release t (.proc (proc t))).map (·.goto t (.asleep b))
  | .asleep b =>
    if s.state t = .runnable then
      (s.acquire t (.proc (proc t))).map fun s =>
        { s with
          chan := update s.chan t none
          state := update s.state t .running }.goto t (.woken b)
    else none
  | .woken b => (s.release t (.proc (proc t))).map (·.goto t (.reacquire b))
  | .reacquire b => (s.acquire t .bsem).map (·.goto t (.test b))
  | .opening b =>
    some ((s.write (s.bsems.setUnlocked b true) (.up b)).goto t (.wake b (List.finRange NPROC)))
  | .wake b (q :: qs) =>
    (s.acquire t (.proc q)).map fun s => (s.wakeSlot proc t q b).goto t (.waking b q qs)
  | .wake _ [] => (s.release t .bsem).map (·.goto t .user)
  | .waking b q qs => (s.release t (.proc q)).map (·.goto t (.wake b qs))
  | .unlock => (s.release t .bsem).map (·.goto t .user)

/-- One step of the system. -/
def step (s : Sys T) : Act T → Option (Sys T)
  | .call t c =>
    if s.pc t = .user then (s.acquire t .bsem).map (·.goto t c.start) else none
  | .go t => s.goStep proc t
  | .kill q => if (s.lock (.proc q)).isNone then some (s.killSlot proc q) else none

end Sys

/-! ### Histories -/

/-- Some event of the history has `P`, and none since has `Q`. -/
def Since (P Q : Event → Prop) (h : List Event) : Prop :=
  ∃ h₁ e h₂, h = h₁ ++ e :: h₂ ∧ P e ∧ ∀ a ∈ h₁, ¬ Q a

variable {e : Event}

theorem since_cons {P Q : Event → Prop} {h : List Event} :
    Since P Q (e :: h) ↔ P e ∨ ¬ Q e ∧ Since P Q h := by
  constructor
  · rintro ⟨h1, a, h2, heq, ha, hQ⟩
    cases h1 with
    | nil =>
      cases heq
      exact .inl ha
    | cons b h1 =>
      cases heq
      rw [List.forall_mem_cons] at hQ
      exact .inr ⟨hQ.1, h1, a, h2, rfl, ha, hQ.2⟩
  · rintro (he | ⟨he, h1, a, h2, rfl, ha, hQ⟩)
    · exact ⟨[], e, h, rfl, he, by simp⟩
    · exact ⟨e :: h1, a, h2, rfl, ha, List.forall_mem_cons.2 ⟨he, hQ⟩⟩

theorem Since.again {P Q : Event → Prop} {h1 h2 : List Event} (h : Since P Q (h1 ++ e :: h2))
    (hQ : Q e) (hP : ¬ P e) : ∃ a ∈ h1, P a := by
  induction h1 with
  | nil =>
    rcases since_cons.1 h with he | ⟨he, -⟩
    · exact absurd he hP
    · exact absurd hQ he
  | cons a h1 ih =>
    rcases since_cons.1 h with ha | ⟨-, h⟩
    · exact ⟨a, List.mem_cons_self, ha⟩
    · obtain ⟨b, hb, hPb⟩ := ih h
      exact ⟨b, List.mem_cons_of_mem a hb, hPb⟩

/-- `b` has been allocated, and not freed since. -/
def Allocated (b : BsemId) : List Event → Prop := Since (· = .alloc b) (· = .free b)

/-- `b` has been allocated or released, and not acquired since. -/
def Available (b : BsemId) : List Event → Prop :=
  Since (fun e => e = .alloc b ∨ e = .up b) (· = .down b)

/-- The event may follow the history. -/
def Event.Follows (h : List Event) : Event → Prop
  | .alloc b => ¬ Allocated b h
  | .allocFailed => ∀ b, Allocated b h
  | .down b => Available b h
  | _ => True

/-- Every event follows those before it. -/
def Valid : List Event → Prop
  | [] => True
  | e :: h => e.Follows h ∧ Valid h

/-- The table is what its history says. -/
structure Agrees (tbl : Bsems) (h : List Event) : Prop where
  state : ∀ b, (tbl b).state = true ↔ Allocated b h
  unlocked : ∀ b, (tbl b).unlocked = true ↔ Available b h
  valid : Valid h

namespace Agrees

variable {tbl : Bsems} {h : List Event} {b : BsemId}

theorem zero : Agrees .zero [] := by
  have hnone : ∀ P Q, ¬ Since P Q [] := by
    rintro P Q ⟨h1, e, h2, heq, -⟩
    simp at heq
  exact ⟨fun b => by simp [Bsems.zero, Allocated, hnone],
    fun b => by simp [Bsems.zero, Available, hnone], trivial⟩

/-- The event says how the table changes. -/
theorem cons {tbl' : Bsems} (hA : Agrees tbl h) (he : e.Follows h)
    (hstate : ∀ c, (tbl' c).state = true ↔ e = .alloc c ∨ ¬ e = .free c ∧ (tbl c).state = true)
    (hunlocked : ∀ c, (tbl' c).unlocked = true ↔
      (e = .alloc c ∨ e = .up c) ∨ ¬ e = .down c ∧ (tbl c).unlocked = true) :
    Agrees tbl' (e :: h) where
  state c := by
    rw [hstate, hA.state, Allocated, since_cons]
  unlocked c := by
    rw [hunlocked, hA.unlocked, Available, since_cons]
  valid := ⟨he, hA.valid⟩

theorem take (hA : Agrees tbl h) (hb : (tbl b).state = false) :
    Agrees (tbl.take b) (.alloc b :: h) := by
  refine hA.cons (fun ha => ?_) (fun c => ?_) (fun c => ?_)
  · rw [← hA.state, hb] at ha
    cases ha
  · unfold Bsems.take
    grind [update_apply]
  · unfold Bsems.take
    grind [update_apply]

theorem free (hA : Agrees tbl h) : Agrees (tbl.free b) (.free b :: h) := by
  refine hA.cons trivial (fun c => ?_) (fun c => ?_) <;> unfold Bsems.free <;>
    grind [update_apply]

theorem down (hA : Agrees tbl h) (hb : (tbl b).unlocked = true) :
    Agrees (tbl.setUnlocked b false) (.down b :: h) := by
  refine hA.cons ((hA.unlocked b).1 hb) (fun c => ?_) (fun c => ?_) <;>
    unfold Bsems.setUnlocked <;> grind [update_apply]

theorem up (hA : Agrees tbl h) : Agrees (tbl.setUnlocked b true) (.up b :: h) := by
  refine hA.cons trivial (fun c => ?_) (fun c => ?_) <;>
    unfold Bsems.setUnlocked <;> grind [update_apply]

theorem failed (hA : Agrees tbl h) (hfull : ∀ b, (tbl b).state = true) :
    Agrees tbl (.allocFailed :: h) :=
  hA.cons (fun c => (hA.state c).1 (hfull c)) (by simp) (by simp)

end Agrees

/-! ### What a thread knows under `bsem_lock` -/

/-- What a thread at a position has read from the table and relies on. -/
def Pc.Knows (tbl : Bsems) : Pc → Prop
  | .scan k => ∀ b : BsemId, b.val < k → (tbl b).state = true
  | .take b => (tbl b).state = false
  | .taken b | .allocRet b => (tbl b).bid = b.val
  | .closing b => (tbl b).unlocked = true
  | .sleep0 b | .sleep1 b => (tbl b).unlocked = false
  | _ => True

variable {p : Pc}

/-- The `bid` of an entry is its index once it has been stored. -/
theorem Pc.Knows.of_bid {tbl tbl' : Bsems} {q : ProcId} (h : p.Knows tbl) (hp : .bsem ∉ p.locks q)
    (hbid : ∀ b, (tbl' b).bid = (tbl b).bid ∨ (tbl' b).bid = b.val) : p.Knows tbl' := by
  cases p with
  | allocRet b =>
    rcases hbid b with hb | hb
    · exact hb.trans h
    · exact hb
  | user | sleep2 b | slept b | asleep b | woken b | reacquire b => trivial
  | _ => simp [Pc.locks] at hp

namespace Sys

variable {T : Type} [DecidableEq T] {proc : T → ProcId} {s s' : Sys T} {t : T}

variable (proc) in
/-- The locks are held as the positions say. -/
def Locks (s : Sys T) : Prop := Spinlock.Consistent s.lock fun t l => l ∈ (s.pc t).locks (proc t)

variable (proc) in
structure Inv (s : Sys T) : Prop where
  locks : s.Locks proc
  agrees : Agrees s.bsems s.events
  knows : ∀ t, (s.pc t).Knows s.bsems

omit [DecidableEq T] in
theorem inv_init : (init : Sys T).Inv proc where
  locks := by simp [Locks, Spinlock.Consistent, init, Pc.locks]
  agrees := Agrees.zero
  knows := fun _ => trivial

theorem Locks.move (h : s.Locks proc) (hlock : s'.lock = s.lock) (hpc : s'.pc = update s.pc t p)
    (hp : p.locks (proc t) = (s.pc t).locks (proc t)) : s'.Locks proc := by
  unfold Locks at h ⊢
  rw [hlock, hpc]
  refine h.congr fun c l => ?_
  by_cases hc : c = t
  · subst hc; rw [update_self, hp]
  · rw [update_of_ne hc]

variable {l : Lk}

theorem Locks.acquire (h : s.Locks proc) (ha : Spinlock.acquire s.lock t l = some s'.lock)
    (hpc : s'.pc = update s.pc t p)
    (hp : ∀ l', l' ∈ p.locks (proc t) ↔ l' = l ∨ l' ∈ (s.pc t).locks (proc t)) : s'.Locks proc := by
  refine Spinlock.Consistent.acquire h ha (fun l' => ?_) fun c hc l' => ?_
  · rw [hpc, update_self, hp]
  · rw [hpc, update_of_ne hc]

theorem Locks.release (h : s.Locks proc) (hr : Spinlock.release s.lock t l = some s'.lock)
    (hpc : s'.pc = update s.pc t p)
    (hp : ∀ l', l' ∈ p.locks (proc t) ↔ l' ≠ l ∧ l' ∈ (s.pc t).locks (proc t)) : s'.Locks proc := by
  refine Spinlock.Consistent.release h hr (fun l' => ?_) fun c hc l' => ?_
  · rw [hpc, update_self, hp]
  · rw [hpc, update_of_ne hc]

omit [DecidableEq T] in
theorem of_acquire {f : Sys T → Sys T} (hs : (s.acquire t l).map f = some s') :
    ∃ lock, Spinlock.acquire s.lock t l = some lock ∧ s' = f { s with lock := lock } := by
  obtain ⟨u, hu, rfl⟩ := Option.map_eq_some_iff.1 hs
  obtain ⟨lock, hlock, hu⟩ := Option.bind_eq_some_iff.1 hu
  cases hu
  exact ⟨lock, hlock, rfl⟩

theorem of_release {f : Sys T → Sys T} (hs : (s.release t l).map f = some s') :
    ∃ lock, Spinlock.release s.lock t l = some lock ∧ s' = f { s with lock := lock } := by
  obtain ⟨u, hu, rfl⟩ := Option.map_eq_some_iff.1 hs
  obtain ⟨lock, hlock, hu⟩ := Option.bind_eq_some_iff.1 hu
  cases hu
  exact ⟨lock, hlock, rfl⟩

/-- A thread that holds `bsem_lock` changes the table; what the others know is about their own
results only. -/
theorem Inv.write (h : s.Inv proc) (hpc : s'.pc = update s.pc t p) (hlock : s'.lock = s.lock)
    (hp : p.locks (proc t) = (s.pc t).locks (proc t)) (hheld : .bsem ∈ (s.pc t).locks (proc t))
    (hA : Agrees s'.bsems s'.events) (hk : p.Knows s'.bsems)
    (hbid : ∀ b, (s'.bsems b).bid = (s.bsems b).bid ∨ (s'.bsems b).bid = b.val) : s'.Inv proc := by
  refine ⟨h.locks.move hlock hpc hp, hA, fun u => ?_⟩
  by_cases hu : u = t
  · subst hu; rwa [hpc, update_self]
  · rw [hpc, update_of_ne hu]
    refine (h.knows u).of_bid (fun hl => hu ?_) hbid (q := proc u)
    exact h.locks.exclusive hl hheld

theorem Inv.keep (h : s.Inv proc) (hpc : s'.pc = update s.pc t p) (hlocks : s'.Locks proc)
    (htbl : s'.bsems = s.bsems) (hev : s'.events = s.events)
    (hk : p.Knows s.bsems) : s'.Inv proc := by
  refine ⟨hlocks, by rw [htbl, hev]; exact h.agrees, fun u => ?_⟩
  rw [hpc, htbl]
  by_cases hu : u = t
  · subst hu; rwa [update_self]
  · rw [update_of_ne hu]; exact h.knows u

theorem inv_goStep (h : s.Inv proc) (hs : s.goStep proc t = some s') : s'.Inv proc := by
  have hk := h.knows t
  unfold goStep at hs
  cases hpc : s.pc t <;> simp only [hpc] at hs hk
  case user => cases hs
  case scan k =>
    split_ifs at hs with hlt hst <;> cases hs
    · refine h.keep rfl (h.locks.move rfl rfl (by rw [hpc]; rfl)) rfl rfl fun b hb => ?_
      rcases Nat.lt_succ_iff_lt_or_eq.1 hb with hb | rfl
      · exact hk b hb
      · exact hst
    · exact h.keep rfl (h.locks.move rfl rfl (by rw [hpc]; rfl)) rfl rfl
        (Bool.eq_false_of_not_eq_true hst)
    · refine h.write rfl rfl (by rw [hpc]; rfl) (by simp [hpc, Pc.locks]) ?_ trivial fun b =>
        .inl rfl
      exact h.agrees.failed fun b => hk b (by omega)
  case take b =>
    cases hs
    refine h.write rfl rfl (by rw [hpc]; rfl) (by simp [hpc, Pc.locks]) (h.agrees.take hk) ?_ ?_
    · simp [Pc.Knows, goto, Sys.write, Bsems.take]
    · exact Bsems.bid_take s.bsems b
  case taken b =>
    obtain ⟨lock, hl, rfl⟩ := of_release hs
    refine h.keep rfl (h.locks.release hl rfl ?_) rfl rfl hk
    simp [hpc, Pc.locks]
  case allocRet b | sleep2 b =>
    cases hs
    exact h.keep rfl (h.locks.move rfl rfl (by rw [hpc]; rfl)) rfl rfl trivial
  case free b =>
    cases hs
    exact h.write rfl rfl (by rw [hpc]; rfl) (by simp [hpc, Pc.locks]) h.agrees.free trivial
      fun c => .inl (Bsems.bid_free s.bsems b c)
  case test b =>
    cases hs
    split_ifs with hb
    · exact h.keep rfl (h.locks.move rfl rfl (by rw [hpc]; rfl)) rfl rfl hb
    · exact h.keep rfl (h.locks.move rfl rfl (by rw [hpc]; rfl)) rfl rfl
        (Bool.eq_false_of_not_eq_true hb)
  case closing b =>
    cases hs
    exact h.write rfl rfl (by rw [hpc]; rfl) (by simp [hpc, Pc.locks]) (h.agrees.down hk) trivial
      fun c => .inl (Bsems.bid_setUnlocked s.bsems b c false)
  case sleep0 b =>
    obtain ⟨lock, hl, rfl⟩ := of_acquire hs
    refine h.keep rfl (h.locks.acquire hl rfl ?_) rfl rfl hk
    simp [hpc, Pc.locks]
  case sleep1 b =>
    obtain ⟨lock, hl, rfl⟩ := of_release hs
    refine h.keep rfl (h.locks.release hl rfl ?_) rfl rfl trivial
    intro l'
    simp only [hpc, Pc.locks, List.mem_cons, List.not_mem_nil, or_false]
    constructor
    · rintro rfl; simp
    · rintro ⟨hne, hl' | hl'⟩
      · exact hl'
      · exact absurd hl' hne
  case slept b | woken b | unlock =>
    obtain ⟨lock, hl, rfl⟩ := of_release hs
    refine h.keep rfl (h.locks.release hl rfl ?_) rfl rfl trivial
    simp [hpc, Pc.locks]
  case asleep b =>
    split_ifs at hs
    obtain ⟨lock, hl, rfl⟩ := of_acquire hs
    refine h.keep rfl (h.locks.acquire hl rfl ?_) rfl rfl trivial
    simp [hpc, Pc.locks]
  case reacquire b =>
    obtain ⟨lock, hl, rfl⟩ := of_acquire hs
    refine h.keep rfl (h.locks.acquire hl rfl ?_) rfl rfl trivial
    simp [hpc, Pc.locks]
  case opening b =>
    cases hs
    exact h.write rfl rfl (by rw [hpc]; rfl) (by simp [hpc, Pc.locks]) h.agrees.up trivial
      fun c => .inl (Bsems.bid_setUnlocked s.bsems b c true)
  case wake b qs =>
    cases qs with
    | nil =>
      simp only at hs
      obtain ⟨lock, hl, rfl⟩ := of_release hs
      refine h.keep rfl (h.locks.release hl rfl ?_) rfl rfl trivial
      simp [hpc, Pc.locks]
    | cons q qs =>
      simp only at hs
      obtain ⟨lock, hl, rfl⟩ := of_acquire hs
      refine h.keep rfl (h.locks.acquire hl rfl ?_) rfl rfl trivial
      simp [hpc, Pc.locks]
  case waking b q qs =>
    obtain ⟨lock, hl, rfl⟩ := of_release hs
    refine h.keep rfl (h.locks.release hl rfl ?_) rfl rfl trivial
    intro l'
    simp only [hpc, Pc.locks, List.mem_cons, List.not_mem_nil, or_false]
    constructor
    · rintro rfl; simp
    · rintro ⟨hne, hl' | hl'⟩
      · exact absurd hl' hne
      · exact hl'

theorem inv_step (h : s.Inv proc) (a : Act T) (hs : s.step proc a = some s') : s'.Inv proc := by
  cases a with
  | call t c =>
    simp only [step] at hs
    split_ifs at hs with hpc
    obtain ⟨lock, hl, rfl⟩ := of_acquire hs
    refine h.keep rfl (h.locks.acquire hl rfl ?_) rfl rfl ?_
    · cases c <;> simp [hpc, Pc.locks, Call.start]
    · cases c with
      | alloc => exact fun b hb => absurd hb (Nat.not_lt_zero _)
      | free b | down b | up b => trivial
  | go t => exact inv_goStep h hs
  | kill q =>
    simp only [step] at hs
    split_ifs at hs
    cases hs
    exact ⟨h.locks, h.agrees, h.knows⟩

/-- Two processes with one thread each. -/
def twoProcs : Bool → ProcId := fun t => if t then 0 else 1

/-- `bsem_alloc` of the first entry. -/
def runAlloc (t : Bool) : List (Act Bool) := .call t .alloc :: List.replicate 4 (.go t)

/-- `bsem_down` of the first entry while it is unlocked. -/
def runDown (t : Bool) : List (Act Bool) := .call t (.down 0) :: List.replicate 3 (.go t)

/-- `bsem_up` of the first entry. -/
def runUp (t : Bool) : List (Act Bool) :=
  .call t (.up 0) :: List.replicate (2 * NPROC + 2) (.go t)

end Sys

end Xv6.Sem
