import Xv6.Sem.Binary

/-!
# Counting semaphores (`user/Csemaphore.c`)

A counting semaphore is built from two binary ones: `s1` protects `value`, and `s2` is the gate,
unlocked when there is a permit to take.  The calls of `bsem_alloc`, `bsem_down` and `bsem_up` are
atomic here; every other statement of `csem_down` and `csem_up` is a step of its own, and any
number of threads execute them.  `value` is a C `int` and wraps around.

The ghost components count the increments and the completed calls.
-/

namespace Xv6.Sem

open Function Transition Option Bsems Pc

/-! ### Atomic binary semaphores -/

/-- `bsem_alloc`; `none` is `-1`. -/
def Bsems.alloc (tbl : Bsems) : Option BsemId × Bsems :=
  match (List.finRange MAX_BSEM).find? fun b => !(tbl b).state with
  | some b => (some b, tbl.take b)
  | none => (none, tbl)

/-- `bsem_down`, which does not return while the semaphore is locked. -/
def Bsems.down (tbl : Bsems) (b : BsemId) : Option Bsems :=
  if (tbl b).unlocked then some (tbl.setUnlocked b false) else none

/-- `bsem_up`. -/
def Bsems.up (tbl : Bsems) (b : BsemId) : Bsems := tbl.setUnlocked b true

@[simp] theorem unlocked_setUnlocked_self (tbl : Bsems) (b : BsemId) (v : Bool) :
    (tbl.setUnlocked b v b).unlocked = v := by
  simp [setUnlocked]

variable {b : BsemId}

theorem unlocked_setUnlocked_of_ne (tbl : Bsems) {c : BsemId} (h : c ≠ b) (v : Bool) :
    (tbl.setUnlocked b v c).unlocked = (tbl c).unlocked := by
  simp [setUnlocked, update_of_ne h]

variable {tbl tbl' : Bsems}

theorem alloc_eq_some (h : tbl.alloc = (some b, tbl')) :
    (tbl b).state = false ∧ tbl' = tbl.take b := by
  unfold alloc at h
  cases hf : (List.finRange MAX_BSEM).find? fun b => !(tbl b).state with
  | none => simp [hf] at h
  | some c =>
    simp only [hf, Prod.mk.injEq, some.injEq] at h
    obtain ⟨rfl, rfl⟩ := h
    have := List.find?_some hf
    exact ⟨by simpa using this, rfl⟩

/-! ### The counting semaphore -/

/-- `struct counting_semaphore`. -/
structure Csem where
  value : BitVec 32
  s1 : BsemId
  s2 : BsemId
  deriving DecidableEq, Repr

/-- `csem_alloc`, with the semaphore it fills in if it succeeds.  `none`: `bsem_down` is called
with `s2 = -1`, and reads outside the table. -/
def csemAlloc (tbl : Bsems) (initialValue : BitVec 32) : Option (Option Csem × Bsems) :=
  let (s1, tbl) := tbl.alloc
  let (s2, tbl) := tbl.alloc
  (if initialValue = 0 then s2.bind tbl.down else some tbl).map fun tbl =>
    match s1, s2 with
    | some s1, some s2 => (some ⟨initialValue, s1, s2⟩, tbl)
    | _, _ => (none, tbl)

namespace Counting

/-- The next statement of a thread. -/
inductive Pc
  | out
  | down1 -- `csem_down`: `bsem_down(sem->s2)`
  | down2 -- `csem_down`: `bsem_down(sem->s1)`
  | down3 -- `csem_down`: `sem->value--`
  | down4 -- `csem_down`: `if(sem->value > 0)`
  | down5 -- `csem_down`: `bsem_up(sem->s2)`
  | down6 -- `csem_down`: `bsem_up(sem->s1)`
  | up1 -- `csem_up`: `bsem_down(sem->s1)`
  | up2 -- `csem_up`: `sem->value++`
  | up3 -- `csem_up`: `if(sem->value == 1)`
  | up4 -- `csem_up`: `bsem_up(sem->s2)`
  | up5 -- `csem_up`: `bsem_up(sem->s1)`
  deriving DecidableEq, Repr

/-- The semaphore and the threads that use it. -/
structure Sys (T : Type) where
  bsems : Bsems
  sem : Csem
  pc : T → Pc
  incs : ℕ -- The increments of `csem_up`
  ups : ℕ -- The calls of `csem_up` that have returned
  downs : ℕ -- The calls of `csem_down` that have returned

inductive Act (T : Type)
  | csemDown (t : T)
  | csemUp (t : T)
  | go (t : T)

namespace Sys

variable {T : Type} [DecidableEq T]

/-- After `csem_alloc`. -/
def start (sem : Csem) (tbl : Bsems) : Sys T := ⟨tbl, sem, fun _ => .out, 0, 0, 0⟩

def goto (s : Sys T) (t : T) (p : Pc) : Sys T := { s with pc := update s.pc t p }

def setBsems (s : Sys T) (tbl : Bsems) : Sys T := { s with bsems := tbl }

def setValue (s : Sys T) (v : BitVec 32) : Sys T := { s with sem := { s.sem with value := v } }

/-- The next statement of thread `t`. -/
def goStep (s : Sys T) (t : T) : Option (Sys T) :=
  match s.pc t with
  | .out => none
  | .down1 => (s.bsems.down s.sem.s2).map fun b => (s.setBsems b).goto t .down2
  | .down2 => (s.bsems.down s.sem.s1).map fun b => (s.setBsems b).goto t .down3
  | .down3 => some ((s.setValue (s.sem.value - 1)).goto t .down4)
  | .down4 => some (s.goto t (if 0 < s.sem.value.toInt then .down5 else .down6))
  | .down5 => some ((s.setBsems (s.bsems.up s.sem.s2)).goto t .down6)
  | .down6 =>
    some ({ s.setBsems (s.bsems.up s.sem.s1) with downs := s.downs + 1 }.goto t .out)
  | .up1 => (s.bsems.down s.sem.s1).map fun b => (s.setBsems b).goto t .up2
  | .up2 => some ({ s.setValue (s.sem.value + 1) with incs := s.incs + 1 }.goto t .up3)
  | .up3 => some (s.goto t (if s.sem.value = 1 then .up4 else .up5))
  | .up4 => some ((s.setBsems (s.bsems.up s.sem.s2)).goto t .up5)
  | .up5 => some ({ s.setBsems (s.bsems.up s.sem.s1) with ups := s.ups + 1 }.goto t .out)

def step (s : Sys T) : Act T → Option (Sys T)
  | .csemDown t => if s.pc t = .out then some (s.goto t .down1) else none
  | .csemUp t => if s.pc t = .out then some (s.goto t .up1) else none
  | .go t => s.goStep t

/-- `sem->value++` does not overflow. -/
def Fits (s : Sys T) : Act T → Prop
  | .go t => s.pc t = .up2 → s.sem.value ≠ BitVec.intMax 32
  | _ => True

instance (s : Sys T) (a : Act T) : Decidable (s.Fits a) := by
  unfold Fits
  split <;> infer_instance

end Sys

/-! ### Who is where -/

/-- Between `bsem_down(s1)` and `bsem_up(s1)`. -/
def Pc.inside : Pc → Bool
  | .down3 | .down4 | .down5 | .down6 | .up2 | .up3 | .up4 | .up5 => true
  | _ => false

/-- Past the gate, with the permit not yet taken off `value`. -/
def Pc.passed : Pc → Bool
  | .down2 | .down3 => true
  | _ => false

/-- The permit that is at the gate, if `value` is positive. -/
def permit (v : BitVec 32) : ℕ := if 0 < v.toInt then 1 else 0

variable {v : BitVec 32}

theorem permit_of_pos (h : 0 < v.toInt) : permit v = 1 := if_pos h

theorem permit_of_nonpos (h : ¬ 0 < v.toInt) : permit v = 0 := if_neg h

theorem permit_le (v : BitVec 32) : permit v ≤ 1 := by
  unfold permit
  split_ifs <;> omega

/-- Going to open the gate. -/
def Pc.opens (v : BitVec 32) : Pc → ℕ
  | .down4 => permit v
  | .up3 => if v = 1 then 1 else 0
  | .down5 | .up4 => 1
  | _ => 0

/-- In `csem_down`, after the decrement. -/
def Pc.decremented : Pc → ℕ
  | .down4 | .down5 | .down6 => 1
  | _ => 0

/-- In `csem_up`, after the increment. -/
def Pc.incremented : Pc → ℕ
  | .up3 | .up4 | .up5 => 1
  | _ => 0

section

variable {T : Type}

/-- `i` is the only thread at a position with `f`, if there is one. -/
def Only (f : Pc → Bool) (pc : T → Pc) (i : Option T) : Prop := ∀ t, f (pc t) = true ↔ i = some t

variable [DecidableEq T] {f : Pc → Bool} {pc : T → Pc} {i : Option T} {t : T} {p : Pc}

theorem Only.keep (h : Only f pc i) (hp : f p = f (pc t)) : Only f (update pc t p) i := by
  intro u
  by_cases hu : u = t
  · subst hu; rw [update_self, hp]; exact h u
  · rw [update_of_ne hu]; exact h u

theorem Only.enter (h : Only f pc none) (hp : f p = true) : Only f (update pc t p) (some t) := by
  intro u
  by_cases hu : u = t
  · subst hu; simp [hp]
  · rw [update_of_ne hu, h u]
    simp [Ne.symm hu]

theorem Only.leave (h : Only f pc (some t)) (hp : f p = false) : Only f (update pc t p) none := by
  intro u
  by_cases hu : u = t
  · subst hu; simp [hp]
  · rw [update_of_ne hu, h u]
    simp [Ne.symm hu]

/-- What the only thread contributes does not change with the position of another one. -/
theorem elim_update (g : Pc → ℕ) (pc : T → Pc) (p : Pc) (hi : i ≠ some t) :
    i.elim 0 (fun u => g (update pc t p u)) = i.elim 0 fun u => g (pc u) := by
  cases i with
  | none => rfl
  | some u =>
    have hu : u ≠ t := fun h => hi (by rw [h])
    simp [update_of_ne hu]

end

theorem toInt_sub_one (h : 0 < v.toInt) : (v - 1).toInt = v.toInt - 1 := by
  have hno : ¬ BitVec.ssubOverflow v 1 := by
    have := v.toInt_lt
    simp only [BitVec.ssubOverflow, Bool.or_eq_true, decide_eq_true_eq, not_or]
    simp only [show (1 : BitVec 32).toInt = 1 from rfl]
    omega
  rw [BitVec.toInt_sub_of_not_ssubOverflow hno]
  rfl

theorem toInt_add_one (h : v ≠ BitVec.intMax 32) : (v + 1).toInt = v.toInt + 1 := by
  have hmax : v.toInt ≠ 2 ^ 31 - 1 := by
    intro hv
    exact h (BitVec.eq_of_toInt_eq (by rw [hv]; rfl))
  have hno : ¬ BitVec.saddOverflow v 1 := by
    have h1 := v.toInt_lt
    have h2 := v.le_toInt
    simp only [BitVec.saddOverflow, Bool.or_eq_true, decide_eq_true_eq, not_or]
    simp only [show (1 : BitVec 32).toInt = 1 from rfl]
    omega
  rw [BitVec.toInt_add_of_not_saddOverflow hno]
  rfl

/-! ### The invariant -/

namespace Sys

variable {T : Type} [DecidableEq T]

/-- The state as seen with the thread `i` that holds `s1` and the thread `g` that has passed the
gate, if there are such threads. -/
structure View (v₀ : ℤ) (s : Sys T) (i g : Option T) : Prop where
  distinct : s.sem.s1 ≠ s.sem.s2
  inside : Only Pc.inside s.pc i
  passed : Only Pc.passed s.pc g
  s1 : (s.bsems s.sem.s1).unlocked = i.isNone
  /-- If there are permits, then either the gate is unlocked, or one thread has passed it, or the
  thread that holds `s1` is going to unlock it; otherwise none of these. -/
  gate : (s.bsems s.sem.s2).unlocked.toNat + g.isSome.toNat +
    i.elim 0 (fun t => (s.pc t).opens s.sem.value) = permit s.sem.value
  nonneg : 0 ≤ s.sem.value.toInt
  balance : v₀ + s.incs =
    s.sem.value.toInt + s.downs + (i.elim 0 fun t => (s.pc t).decremented : ℕ)
  ups : s.incs = s.ups + i.elim 0 fun t => (s.pc t).incremented

variable {v₀ : ℤ} {s s' : Sys T} {i g : Option T} {t : T}

omit [DecidableEq T] in
theorem View.ne_inside (h : View v₀ s i g) (ht : (s.pc t).inside = false) : i ≠ some t := by
  intro hi
  rw [(h.inside t).2 hi] at ht
  cases ht

/-- A thread outside of `s1` moves, and nothing else changes. -/
theorem View.outside (h : View v₀ s i g) {p : Pc} (ht : (s.pc t).inside = false)
    (hp : p.inside = false) (hpass : p.passed = (s.pc t).passed) : View v₀ (s.goto t p) i g where
  distinct := h.distinct
  inside := h.inside.keep (hp.trans ht.symm)
  passed := h.passed.keep hpass
  s1 := h.s1
  gate := by
    have := elim_update (Pc.opens s.sem.value) s.pc p (h.ne_inside ht)
    simp only [goto, this]
    exact h.gate
  nonneg := h.nonneg
  balance := by
    have := elim_update Pc.decremented s.pc p (h.ne_inside ht)
    simp only [goto, this]
    exact h.balance
  ups := by
    have := elim_update Pc.incremented s.pc p (h.ne_inside ht)
    simp only [goto, this]
    exact h.ups

/-- `bsem_down(sem->s2)`: the thread takes the permit at the gate. -/
theorem View.pass (h : View v₀ s i g) (hpc : s.pc t = .down1)
    (hopen : (s.bsems s.sem.s2).unlocked = true) :
    View v₀ ((s.setBsems (s.bsems.setUnlocked s.sem.s2 false)).goto t .down2) i (some t) := by
  have hti : (s.pc t).inside = false := by rw [hpc]; rfl
  have hgate := h.gate
  have hle := permit_le s.sem.value
  rw [hopen, Bool.toNat_true] at hgate
  -- the permit is at the gate, so nobody has passed it
  have hg : g = none := by
    cases g with
    | none => rfl
    | some u =>
      rw [Option.isSome_some, Bool.toNat_true] at hgate
      omega
  subst hg
  rw [Option.isSome_none, Bool.toNat_false] at hgate
  refine ⟨h.distinct, h.inside.keep (by rw [hpc]; rfl), h.passed.enter rfl, ?_, ?_,
    h.nonneg, ?_, ?_⟩
  · exact (unlocked_setUnlocked_of_ne s.bsems h.distinct false).trans h.s1
  · have := elim_update (Pc.opens s.sem.value) s.pc .down2 (h.ne_inside hti)
    simp only [goto, setBsems, this, unlocked_setUnlocked_self, Option.isSome_some,
      Bool.toNat_true, Bool.toNat_false]
    omega
  · have := elim_update Pc.decremented s.pc .down2 (h.ne_inside hti)
    simp only [goto, setBsems, this]
    exact h.balance
  · have := elim_update Pc.incremented s.pc .down2 (h.ne_inside hti)
    simp only [goto, setBsems, this]
    exact h.ups

/-- `bsem_down(sem->s1)`. -/
theorem View.lock (h : View v₀ s i g) {p : Pc} (hp : p.inside = true)
    (hpass : p.passed = (s.pc t).passed) (hzero : p.opens s.sem.value = 0)
    (hdec : p.decremented = 0) (hinc : p.incremented = 0)
    (hopen : (s.bsems s.sem.s1).unlocked = true) :
    View v₀ ((s.setBsems (s.bsems.setUnlocked s.sem.s1 false)).goto t p) (some t) g := by
  have hi : i = none := by
    have := h.s1
    rw [hopen] at this
    cases i with
    | none => rfl
    | some u => cases this
  subst hi
  refine ⟨h.distinct, h.inside.enter hp, h.passed.keep hpass, ?_, ?_, h.nonneg, ?_, ?_⟩
  · exact unlocked_setUnlocked_self s.bsems s.sem.s1 false
  · have := h.gate
    simpa [goto, setBsems, hzero, unlocked_setUnlocked_of_ne _ h.distinct.symm] using this
  · simpa [goto, setBsems, hdec] using h.balance
  · simpa [goto, setBsems, hinc] using h.ups

/-- `bsem_up(sem->s2)`: the permit is put at the gate. -/
theorem View.unlockGate (h : View v₀ s (some t) g) {p : Pc} (hp : p.inside = true)
    (hold : (s.pc t).passed = false) (hpass : p.passed = false)
    (hone : (s.pc t).opens s.sem.value = 1) (hzero : p.opens s.sem.value = 0)
    (hdec : p.decremented = (s.pc t).decremented) (hinc : p.incremented = (s.pc t).incremented) :
    View v₀ ((s.setBsems (s.bsems.up s.sem.s2)).goto t p) (some t) g := by
  have hin : (s.pc t).inside = true := (h.inside t).2 rfl
  refine ⟨h.distinct, h.inside.keep (hp.trans hin.symm), h.passed.keep (hpass.trans hold.symm),
    ?_, ?_, h.nonneg, ?_, ?_⟩
  · exact (unlocked_setUnlocked_of_ne s.bsems h.distinct true).trans h.s1
  · have := h.gate
    have hle := permit_le s.sem.value
    simp only [elim_some, hone] at this
    simp only [goto, setBsems, up, unlocked_setUnlocked_self, elim_some,
      update_self, hzero, Bool.toNat_true]
    omega
  · simpa [goto, setBsems, hdec] using h.balance
  · simpa [goto, setBsems, hinc] using h.ups

/-- The test before: the thread is going to open the gate exactly if it takes the branch. -/
theorem View.branch (h : View v₀ s (some t) g) {p : Pc} (hp : p.inside = true)
    (hpass : p.passed = (s.pc t).passed) (hopens : p.opens s.sem.value = (s.pc t).opens s.sem.value)
    (hdec : p.decremented = (s.pc t).decremented)
    (hinc : p.incremented = (s.pc t).incremented) : View v₀ (s.goto t p) (some t) g := by
  have hin : (s.pc t).inside = true := (h.inside t).2 rfl
  refine ⟨h.distinct, h.inside.keep (hp.trans hin.symm), h.passed.keep hpass, h.s1, ?_, h.nonneg,
    ?_, ?_⟩
  · simpa [goto, hopens] using h.gate
  · simpa [goto, hdec] using h.balance
  · simpa [goto, hinc] using h.ups

/-- `sem->value--`, by the thread that has passed the gate. -/
theorem View.decrement (h : View v₀ s (some t) (some t)) (hpc : s.pc t = .down3) :
    View v₀ ((s.setValue (s.sem.value - 1)).goto t .down4) (some t) none := by
  have hgate := h.gate
  simp only [Option.isSome_some, Bool.toNat_true, Option.elim_some, hpc, Pc.opens] at hgate
  have hpos : 0 < s.sem.value.toInt := by
    by_contra hneg
    rw [permit_of_nonpos hneg] at hgate
    omega
  have hsub := toInt_sub_one hpos
  rw [permit_of_pos hpos] at hgate
  refine ⟨h.distinct, h.inside.keep (by rw [hpc]; rfl), h.passed.leave rfl, h.s1, ?_, ?_, ?_, ?_⟩
  · have hclosed : (s.bsems s.sem.s2).unlocked = false := by
      by_contra hopen
      rw [Bool.not_eq_false] at hopen
      rw [hopen, Bool.toNat_true] at hgate
      omega
    simp [goto, setValue, hclosed, Pc.opens]
  · simp only [goto, setValue, hsub]
    omega
  · have := h.balance
    simp only [Option.elim_some, hpc, Pc.decremented] at this
    simp only [goto, setValue, hsub, Option.elim_some, update_self, Pc.decremented]
    push_cast at this ⊢
    omega
  · have := h.ups
    simp only [Option.elim_some, hpc, Pc.incremented] at this
    simpa [goto, setValue, Pc.incremented] using this

/-- `sem->value++`. -/
theorem View.increment (h : View v₀ s (some t) g) (hpc : s.pc t = .up2)
    (hfits : s.sem.value ≠ BitVec.intMax 32) :
    View v₀ ({ s.setValue (s.sem.value + 1) with incs := s.incs + 1 }.goto t .up3) (some t) g := by
  have hadd := toInt_add_one hfits
  have hone : s.sem.value + 1 = 1 ↔ s.sem.value.toInt = 0 := by
    rw [← BitVec.toInt_inj, hadd]
    simp
  have hnonneg := h.nonneg
  refine ⟨h.distinct, h.inside.keep (by rw [hpc]; rfl), h.passed.keep (by rw [hpc]; rfl), h.s1,
    ?_, ?_, ?_, ?_⟩
  · have := h.gate
    simp only [Option.elim_some, hpc, Pc.opens] at this
    simp only [goto, setValue, Option.elim_some, update_self, Pc.opens, hone]
    rw [permit_of_pos (by rw [hadd]; omega)]
    by_cases hzero : s.sem.value.toInt = 0
    · rw [permit_of_nonpos (by omega)] at this
      rw [if_pos hzero]
      omega
    · rw [permit_of_pos (by omega)] at this
      rw [if_neg hzero]
      omega
  · simp only [goto, setValue, hadd]
    omega
  · have := h.balance
    simp only [Option.elim_some, hpc, Pc.decremented] at this
    simp only [goto, setValue, hadd, Option.elim_some, update_self, Pc.decremented]
    push_cast at this ⊢
    omega
  · have := h.ups
    simp only [Option.elim_some, hpc, Pc.incremented] at this
    simp only [goto, Option.elim_some, update_self, Pc.incremented, setValue]
    omega

/-- `bsem_up(sem->s1)`, and the call returns. -/
theorem View.unlock (h : View v₀ s (some t) g) (hpass : (s.pc t).passed = false)
    (hopens : (s.pc t).opens s.sem.value = 0) {u d : ℕ}
    (hu : u = s.ups + (s.pc t).incremented) (hd : d = s.downs + (s.pc t).decremented) :
    View v₀ ({ s.setBsems (s.bsems.up s.sem.s1) with ups := u, downs := d }.goto t .out)
      none g := by
  refine ⟨h.distinct, h.inside.leave rfl, h.passed.keep (by rw [hpass]; rfl), ?_, ?_, h.nonneg,
    ?_, ?_⟩
  · exact unlocked_setUnlocked_self s.bsems s.sem.s1 true
  · have := h.gate
    simp only [elim_some, hopens] at this
    simpa [goto, setBsems, up, unlocked_setUnlocked_of_ne _ h.distinct.symm] using this
  · have := h.balance
    simp only [elim_some] at this
    simp only [goto, setBsems, elim_none, hd]
    push_cast
    omega
  · have := h.ups
    simp only [elim_some] at this
    simp only [goto, setBsems, elim_none, hu]
    omega

/-- The invariant. -/
def Inv (v₀ : ℤ) (s : Sys T) : Prop := ∃ i g, View v₀ s i g

omit [DecidableEq T] in
theorem of_down {f : Bsems → Sys T} (hs : (s.bsems.down b).map f = some s') :
    (s.bsems b).unlocked = true ∧ s' = f (s.bsems.setUnlocked b false) := by
  obtain ⟨tbl, htbl, rfl⟩ := map_eq_some_iff.1 hs
  unfold down at htbl
  split_ifs at htbl with hb
  cases htbl
  exact ⟨hb, rfl⟩

theorem inv_goStep (h : Inv v₀ s) (hG : s.Fits (.go t)) (hs : s.goStep t = some s') :
    Inv v₀ s' := by
  obtain ⟨i, g, h⟩ := h
  -- a thread inside is the one that holds `s1`, and one past the gate is the one that passed it
  have hin : (s.pc t).inside = true → i = some t := (h.inside t).1
  have hpass : (s.pc t).passed = true → g = some t := (h.passed t).1
  unfold goStep at hs
  cases hpc : s.pc t <;> simp only [hpc] at hs
  case out => cases hs
  case down1 =>
    obtain ⟨hopen, rfl⟩ := of_down hs
    exact ⟨i, some t, h.pass hpc hopen⟩
  case down2 | up1 =>
    obtain ⟨hopen, rfl⟩ := of_down hs
    exact ⟨some t, g, h.lock rfl (by rw [hpc]; rfl) rfl rfl rfl hopen⟩
  case down3 =>
    cases hs
    obtain rfl := hin (by rw [hpc]; rfl)
    obtain rfl := hpass (by rw [hpc]; rfl)
    exact ⟨some t, none, h.decrement hpc⟩
  case down4 =>
    cases hs
    obtain rfl := hin (by rw [hpc]; rfl)
    refine ⟨some t, g, ?_⟩
    split_ifs with hpos
    · exact h.branch rfl (by rw [hpc]; rfl) (by rw [hpc]; exact (permit_of_pos hpos).symm)
        (by rw [hpc]; rfl) (by rw [hpc]; rfl)
    · exact h.branch rfl (by rw [hpc]; rfl) (by rw [hpc]; exact (permit_of_nonpos hpos).symm)
        (by rw [hpc]; rfl) (by rw [hpc]; rfl)
  case down5 | up4 =>
    cases hs
    obtain rfl := hin (by rw [hpc]; rfl)
    exact ⟨some t, g, h.unlockGate rfl (by rw [hpc]; rfl) rfl (by rw [hpc]; rfl) rfl
      (by rw [hpc]; rfl) (by rw [hpc]; rfl)⟩
  case down6 | up5 =>
    cases hs
    obtain rfl := hin (by rw [hpc]; rfl)
    exact ⟨none, g, h.unlock (by rw [hpc]; rfl) (by rw [hpc]; rfl) (by rw [hpc]; rfl)
      (by rw [hpc]; rfl)⟩
  case up2 =>
    cases hs
    obtain rfl := hin (by rw [hpc]; rfl)
    exact ⟨some t, g, h.increment hpc (hG hpc)⟩
  case up3 =>
    cases hs
    obtain rfl := hin (by rw [hpc]; rfl)
    refine ⟨some t, g, ?_⟩
    split_ifs with hone
    · exact h.branch rfl (by rw [hpc]; rfl) (by rw [hpc]; exact (if_pos hone).symm)
        (by rw [hpc]; rfl) (by rw [hpc]; rfl)
    · exact h.branch rfl (by rw [hpc]; rfl) (by rw [hpc]; exact (if_neg hone).symm)
        (by rw [hpc]; rfl) (by rw [hpc]; rfl)

theorem inv_step (h : Inv v₀ s) (a : Act T) (hG : s.Fits a) (hs : s.step a = some s') :
    Inv v₀ s' := by
  cases a with
  | csemDown t | csemUp t =>
    simp only [step] at hs
    split_ifs at hs with hpc
    cases hs
    obtain ⟨i, g, h⟩ := h
    exact ⟨i, g, h.outside (by rw [hpc]; rfl) rfl (by rw [hpc]; rfl)⟩
  | go t => exact inv_goStep h hG hs

variable {sem : Csem}

omit [DecidableEq T] in
/-- A successful `csem_alloc` has two different binary semaphores; the gate is unlocked unless the
initial value is zero. -/
theorem csemAlloc_eq_some (h : csemAlloc tbl v = some (some sem, tbl')) :
    sem.value = v ∧ sem.s1 ≠ sem.s2 ∧ (tbl' sem.s1).unlocked = true ∧
      (tbl' sem.s2).unlocked = !decide (v = 0) := by
  obtain ⟨⟨o1, tbl1⟩, h1⟩ : ∃ r, tbl.alloc = r := ⟨_, rfl⟩
  obtain ⟨⟨o2, tbl2⟩, h2⟩ : ∃ r, tbl1.alloc = r := ⟨_, rfl⟩
  simp only [csemAlloc, h1, h2] at h
  obtain ⟨tbl3, h3, h⟩ := map_eq_some_iff.1 h
  cases o1 with
  | none => simp at h
  | some s1 =>
    cases o2 with
    | none => simp at h
    | some s2 =>
      simp only [some.injEq, Prod.mk.injEq] at h
      obtain ⟨rfl, rfl⟩ := h
      obtain ⟨-, rfl⟩ := alloc_eq_some h1
      obtain ⟨hfree, rfl⟩ := alloc_eq_some h2
      have hne : s1 ≠ s2 := by
        rintro rfl
        simp [Bsems.take] at hfree
      refine ⟨rfl, hne, ?_⟩
      split_ifs at h3 with hv
      · simp only [bind_some, down] at h3
        split_ifs at h3
        cases h3
        refine ⟨?_, by simp [hv]⟩
        rw [unlocked_setUnlocked_of_ne _ hne]
        simp [Bsems.take, update_of_ne hne]
      · cases h3
        refine ⟨by simp [Bsems.take, update_of_ne hne], ?_⟩
        rw [decide_eq_false hv]
        simp [Bsems.take]

omit [DecidableEq T] in
theorem inv_start (hv : 0 ≤ v.toInt)
    (h : csemAlloc tbl v = some (some sem, tbl')) : Inv v.toInt (start sem tbl' : Sys T) := by
  obtain ⟨rfl, hne, h1, h2⟩ := csemAlloc_eq_some h
  refine ⟨none, none, hne, by simp [Only, start, Pc.inside], by simp [Only, start, Pc.passed], h1,
    ?_, hv, by simp [start], by simp [start]⟩
  show (tbl' sem.s2).unlocked.toNat + 0 + 0 = permit sem.value
  by_cases hzero : sem.value = 0
  · rw [h2, decide_eq_true hzero, hzero]
    rfl
  · have hpos : 0 < sem.value.toInt := by
      refine lt_of_le_of_ne hv fun h0 => hzero ?_
      exact BitVec.eq_of_toInt_eq h0.symm
    rw [h2, decide_eq_false hzero, permit_of_pos hpos]
    rfl

/-- **Counting semaphores.** After a successful `csem_alloc` with a value that is not negative, in
every run of any number of threads in which no increment overflows: `value` is never negative;
the calls of `csem_down` that have returned are at most the initial value and the increments; and
whenever no thread is inside, `s1` is unlocked, `value` is the initial value with the calls of
`csem_up` added and those of `csem_down` subtracted, and the gate is unlocked exactly if `value`
is positive. -/
theorem csem_counts (hv : 0 ≤ v.toInt) (halloc : csemAlloc tbl v = some (some sem, tbl'))
    {tr : List (Act T)} (h : Reach step Fits (start sem tbl') tr s) :
    0 ≤ s.sem.value.toInt ∧ (s.downs : ℤ) ≤ v.toInt + s.incs ∧
      ((∀ t, s.pc t = .out) →
        (s.bsems s.sem.s1).unlocked = true ∧ s.sem.value.toInt = v.toInt + s.ups - s.downs ∧
          ((s.bsems s.sem.s2).unlocked = true ↔ 0 < s.sem.value.toInt)) := by
  obtain ⟨i, g, hview⟩ : Inv v.toInt s :=
    h.state_invariant (inv_start hv halloc) fun s a s' hi hG hs => inv_step hi a hG hs
  have hbalance := hview.balance
  have hnonneg := hview.nonneg
  refine ⟨hnonneg, by omega, fun hout => ?_⟩
  have hi : i = none := by
    cases i with
    | none => rfl
    | some t =>
      have := (hview.inside t).2 rfl
      rw [hout t] at this
      cases this
  have hg : g = none := by
    cases g with
    | none => rfl
    | some t =>
      have := (hview.passed t).2 rfl
      rw [hout t] at this
      cases this
  subst hi hg
  have hups := hview.ups
  have hgate := hview.gate
  simp only [elim_none, isSome_none, Bool.toNat_false, add_zero] at hbalance hups hgate
  refine ⟨hview.s1, by push_cast at hbalance; omega, ?_⟩
  by_cases hpos : 0 < s.sem.value.toInt
  · rw [permit_of_pos hpos] at hgate
    simp only [hpos, iff_true]
    cases hb : (s.bsems s.sem.s2).unlocked with
    | true => rfl
    | false => simp [hb] at hgate
  · rw [permit_of_nonpos hpos] at hgate
    simp only [hpos, iff_false]
    intro hb
    simp [hb] at hgate

/-- Two threads: one passes the gate, the other adds a permit, and the first goes on. -/
def runBoth : List (Act Bool) :=
  [.csemDown true, .go true, .csemUp false, .go false, .go false, .go false, .go false, .go true,
    .go true, .go true, .go true, .go true]

/-- The semaphore that `csem_alloc` makes in an empty table. -/
def freshSem (v : BitVec 32) : Csem := ⟨v, 0, 1⟩

def freshTable : Bsems := (zero.take 0).take 1

theorem csem_counts_both :
    csemAlloc .zero 1 = some (some (freshSem 1), freshTable) ∧
      ∃ s, runWhen step Fits (start (freshSem 1) freshTable) runBoth = some s ∧
        (s.incs, s.ups, s.downs) = (1, 1, 1) ∧ 0 ≤ s.sem.value.toInt ∧
          (s.downs : ℤ) ≤ (1 : BitVec 32).toInt + s.incs := by
  have halloc : csemAlloc .zero 1 = some (some (freshSem 1), freshTable) := rfl
  obtain ⟨s, hs, he⟩ : ∃ s ∈ runWhen step Fits (start (freshSem 1) freshTable) runBoth,
      (s.incs, s.ups, s.downs) = (1, 1, 1) := by decide
  have := csem_counts (by decide) halloc (reach_of_runWhen hs)
  exact ⟨halloc, s, hs, he, this.1, this.2.1⟩

/-- One `csem_up` on a semaphore whose value is `INT_MAX`. -/
theorem csem_up_overflows :
    csemAlloc .zero (BitVec.intMax 32) = some (some (freshSem (BitVec.intMax 32)), freshTable) ∧
      ∃ tr s, Reach step Always
          (start (freshSem (BitVec.intMax 32)) freshTable : Sys Bool) tr s ∧
        s.sem.value.toInt < 0 := by
  refine ⟨rfl, ?_⟩
  obtain ⟨s, hs, he⟩ : ∃ s ∈ run step (start (freshSem (BitVec.intMax 32)) freshTable)
      [.csemUp true, .go true, .go true], s.sem.value.toInt = -2 ^ 31 := by decide
  exact ⟨_, s, reach_always hs, by rw [he]; decide⟩

end Sys

end Counting

end Xv6.Sem
