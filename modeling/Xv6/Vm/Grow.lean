import Xv6.Lib.Run
import Xv6.Vm.Space
import Mathlib.Order.Interval.Finset.Nat

/-!
# `sbrk` by the threads of a process (`kernel/vm.c`, `growproc` of `kernel/proc.c`)

`uvmalloc` and `uvmdealloc` on an address space, and `growproc` called by any number of threads of
one process: the read of `p->sz`, the update of the page table and the write of `p->sz` are three
steps.  The local `sz` of `growproc` is a `uint`, so the new size is computed modulo `2 ^ 32`.
-/

namespace Xv6.Vm

open Outcome Transition BitVec Finset

/-! ### `uvmalloc` and `uvmdealloc` -/

/-- An `int` handed over as a `uint64`. -/
def ofInt (n : ℕ) : ℕ := ((BitVec.ofNat 32 n).signExtend 64).toNat

/-- `uvmdealloc`: the size it returns, and the memory. -/
def uvmdealloc (m : Mem) (pagetable oldsz newsz : ℕ) : Except Panic (ℕ × Mem) :=
  if oldsz ≤ newsz then .ok (oldsz, m)
  else if npages newsz < npages oldsz then
    (uvmunmap m pagetable (npages newsz * PGSIZE) (ofInt (npages oldsz - npages newsz)) true).map
      fun m => (newsz, m)
  else .ok (newsz, m)

/-- The loop of `uvmalloc`, with the turns that are left; `oldsz` is page-aligned. -/
def allocLoop (pagetable oldsz newsz : ℕ) : ℕ → Mem → ℕ → Except Panic (ℕ × Mem)
  | 0, m, _ => .ok (newsz, m)
  | turns + 1, m, a =>
    match m.kalloc with
    | (none, m) => (uvmdealloc m pagetable a oldsz).map fun r => (0, r.2)
    | (some mem, m) =>
      (mappages (m.memset mem 0) pagetable a PGSIZE mem (PTE_W ||| PTE_X ||| PTE_R ||| PTE_U)).bind
        fun r =>
          if r.1 ≠ 0 then
            (r.2.kfree mem).bind fun m =>
              (uvmdealloc m pagetable a oldsz).map fun r => (0, r.2)
          else allocLoop pagetable oldsz newsz turns r.2 (a + PGSIZE)

/-- `uvmalloc`: the new size, or 0 if there is no memory. -/
def uvmalloc (m : Mem) (pagetable oldsz newsz : ℕ) : Except Panic (ℕ × Mem) :=
  if newsz < oldsz then .ok (oldsz, m)
  else
    let oldsz := npages oldsz * PGSIZE
    -- for a = oldsz, oldsz + PGSIZE, .. below newsz
    allocLoop pagetable oldsz newsz ((newsz + PGSIZE - 1 - oldsz) / PGSIZE) m oldsz

variable {m m' : Mem} {r n k v : ℕ}

theorem ofInt_of_lt (h : n < 2 ^ 31) : ofInt n = n := by
  have hmsb : (BitVec.ofNat 32 n).msb = false := by
    rw [msb_eq_false_iff_two_mul_lt, toNat_ofNat]
    omega
  rw [ofInt, signExtend_eq_setWidth_of_msb_false hmsb, toNat_setWidth,
    toNat_ofNat]
  omega

theorem npages_of_lt (h : n < 2 ^ 38) : npages n = (n + 4095) / 4096 := by
  have hPG : PGSIZE = 4096 := rfl
  rw [npages, hPG]
  omega

theorem npages_mul (h : v ≤ 2 ^ 26 - 2) : npages (v * PGSIZE) = v := by
  have hPG : PGSIZE = 4096 := rfl
  rw [npages_of_lt (by rw [hPG]; omega), hPG]
  omega

/-- The tree at `r` has been changed so that it has `n` pages of user memory; it is made of the same
pages and of free ones. -/
structure Resized (m m' : Mem) (r n : ℕ) : Prop where
  space : Space m' r n
  region_eq : region m' r = region m r
  within : Within m m' (region m r)

theorem Resized.refl (h : Space m r n) : Resized m m r n := ⟨h, rfl, .refl m _⟩

theorem Resized.trans {m'' : Mem} (h : Resized m m' r n) (h' : Resized m' m'' r k) :
    Resized m m'' r k :=
  ⟨h'.space, h'.region_eq.trans h.region_eq, h.within.trans (h.region_eq ▸ h'.within)⟩

/-- `uvmdealloc` leaves the pages of the new size. -/
theorem uvmdealloc_ok {oldsz : ℕ} (newsz : ℕ) (h : Space m r (npages oldsz))
    (hold : oldsz < 2 ^ 38) (hnew : newsz ≤ oldsz) :
    ∃ m', uvmdealloc m r oldsz newsz = .ok (newsz, m') ∧ Resized m m' r (npages newsz) := by
  unfold uvmdealloc
  by_cases heq : oldsz = newsz
  · subst heq
    rw [if_pos (le_refl _)]
    exact ⟨m, rfl, .refl h⟩
  rw [if_neg (by omega)]
  have hle : npages newsz ≤ npages oldsz := by
    rw [npages_of_lt hold, npages_of_lt (by omega)]
    omega
  by_cases hlt : npages newsz < npages oldsz
  · have hbound := h.bound
    obtain ⟨m', hm', hs, hreg, hw⟩ := h.shrink hle
    rw [if_pos hlt, ofInt_of_lt (by omega), hm']
    exact ⟨m', rfl, hs, hreg, hw⟩
  · have hn : npages newsz = npages oldsz := by omega
    rw [if_neg hlt, hn]
    exact ⟨m, rfl, .refl h⟩

/-- The pages that `uvmalloc` has mapped are unmapped again. -/
theorem dealloc_pages (h : Space m r v) (hk : k ≤ v) :
    ∃ m', uvmdealloc m r (v * PGSIZE) (k * PGSIZE) = .ok (k * PGSIZE, m') ∧ Resized m m' r k := by
  have hPG : PGSIZE = 4096 := rfl
  have hbound := h.bound
  have hspace : Space m r (npages (v * PGSIZE)) := by rwa [npages_mul hbound]
  obtain ⟨m', hm', hs⟩ := uvmdealloc_ok _ hspace (by rw [hPG]; omega)
    (Nat.mul_le_mul_right PGSIZE hk)
  rw [npages_mul (by omega)] at hs
  exact ⟨m', hm', hs⟩

/-- `KERNBASE`, as a page number. -/
def KERNBASE : ℕ := 0x80000000 / PGSIZE

/-- User memory has a page of its own for every page number. -/
theorem Space.le_pages (h : Space m r n) : n ≤ PHYSTOP - m.kend := by
  have hbound := h.bound
  have howned : ∀ v < n, ∃ p, tableOwn m r (pathOf (v * PGSIZE)) = some p := fun v hv => by
    obtain ⟨e, he, -⟩ := h.mapped v (.inl hv)
    refine ⟨e.ppn, ?_⟩
    rw [tableOwn_of_isUser ((isUser_iff (by omega)).2 (by omega)), pathOf, node_eq_entry]
    exact congrArg (Option.map Pte.ppn) he
  choose! page hpage using howned
  have hcard : (range n).card ≤ (Finset.Ico m.kend PHYSTOP).card := by
    refine card_le_card_of_injOn page (fun v hv => ?_) fun v hv v' hv' heq => ?_
    · have hv : v < n := by simpa using hv
      rw [coe_Ico, Set.mem_Ico]
      exact h.managed _ (.inr ⟨_, hpage v hv⟩)
    · have hv : v < n := by simpa using hv
      have hv' : v' < n := by simpa using hv'
      refine pathOf_inj (by omega) (by omega) ?_
      exact h.ok.sound.exclusive _ _ _ (hpage v hv) (heq ▸ hpage v' hv')
  rwa [card_range, Nat.card_Ico] at hcard

/-- There are far fewer pages of physical memory than of user addresses. -/
theorem Space.le_of_kend (h : Space m r n) (hkend : KERNBASE ≤ m.kend) : n ≤ 2 ^ 15 := by
  have hle := h.le_pages
  have hbase : KERNBASE = 0x80000 := by decide
  have hstop : PHYSTOP = 0x88000 := by decide
  omega

/-- The flags with which `uvmalloc` maps a page. -/
def userFlags : Flags := PTE_W ||| PTE_X ||| PTE_R ||| PTE_U

/-- The loop of `uvmalloc` maps the pages that are left, or unmaps those it has mapped.  It runs out
of memory before it runs out of user addresses. -/
theorem allocLoop_ok (newsz turns : ℕ) (h : Space m r v) (hk : k ≤ v) (hkend : KERNBASE ≤ m.kend) :
    ∃ m',
      (allocLoop r (k * PGSIZE) newsz turns m (v * PGSIZE) = .ok (newsz, m') ∧
          Resized m m' r (v + turns) ∧
          (∀ j, v ≤ j → j < v + turns →
            ∃ e, entry m' r (pathOf (j * PGSIZE)) = some e ∧ e.flags = userFlags ||| PTE_V) ∧
          (∀ j < v, entry m' r (pathOf (j * PGSIZE)) = entry m r (pathOf (j * PGSIZE))) ∨
        allocLoop r (k * PGSIZE) newsz turns m (v * PGSIZE) = .ok (0, m') ∧ Resized m m' r k) := by
  induction turns generalizing m v with
  | zero =>
    exact ⟨m, .inl ⟨rfl, .refl h, fun j hj hj' => absurd hj (by omega), fun _ _ => rfl⟩⟩
  | succ turns ih =>
    have hv := h.le_of_kend hkend
    rcases kalloc_cases m with ⟨-, hkalloc⟩ | ⟨mem, m1, hkalloc, ht⟩
    · -- no memory for the page
      obtain ⟨m', hm', hs⟩ := dealloc_pages h hk
      refine ⟨m', .inr ⟨?_, hs⟩⟩
      rw [allocLoop, hkalloc]
      simp only [hm', Except.map]
    · have ht : Taken m (m1.memset mem 0) mem := ht.update fun _ => Pte.fill 0
      obtain ⟨m2, hreg, hw, ⟨hmap, hs, -, hentry⟩ | ⟨m3, hmap, hfree, hs⟩⟩ := h.mapPage
        userFlags (by omega) ht (by decide)
      · have hstep : allocLoop r (k * PGSIZE) newsz (turns + 1) m (v * PGSIZE) =
            allocLoop r (k * PGSIZE) newsz turns m2 ((v + 1) * PGSIZE) := by
          rw [allocLoop, hkalloc, Nat.succ_mul]
          unfold userFlags at hmap
          simp only [hmap, ok_bind]
          rw [if_neg (by decide)]
        have hresized : Resized m m2 r (v + 1) := ⟨hs, hreg, hw⟩
        have hsum : v + 1 + turns = v + (turns + 1) := by omega
        obtain ⟨m', hloop⟩ := ih hs (by omega) (by rw [hw.kend]; exact hkend)
        rw [hstep, ← hsum]
        refine ⟨m', hloop.imp ?_ fun ⟨hloop, hs'⟩ => ⟨hloop, hresized.trans hs'⟩⟩
        rintro ⟨hloop, hs', hnew, hold⟩
        have hbound := hs'.space.bound
        refine ⟨hloop, hresized.trans hs', fun j hj hj' => ?_, fun j hj => ?_⟩
        · by_cases hjv : j = v
          · subst hjv
            rw [hold j (by omega), hentry _ rfl, if_pos rfl]
            exact ⟨_, rfl, rfl⟩
          · exact hnew j (by omega) hj'
        · rw [hold j (by omega), hentry _ rfl, if_neg]
          intro heq
          have := pathOf_inj (by omega) (by omega) heq
          omega
      · -- no memory for a page-table page
        obtain ⟨m', hm', hs'⟩ := dealloc_pages hs hk
        refine ⟨m', .inr ⟨?_, Resized.trans ⟨hs, hreg, hw⟩ hs'⟩⟩
        rw [allocLoop, hkalloc]
        unfold userFlags at hmap
        simp only [hmap, ok_bind]
        rw [if_pos (by decide), hfree, ok_bind, hm']
        rfl

/-- **`uvmalloc`** maps the pages of the new size, or leaves those of the old one. -/
theorem uvmalloc_ok {oldsz : ℕ} (newsz : ℕ) (h : Space m r (npages oldsz))
    (hnew : oldsz ≤ newsz) (hold : oldsz < 2 ^ 38) (hkend : KERNBASE ≤ m.kend) :
    ∃ m',
      (uvmalloc m r oldsz newsz = .ok (newsz, m') ∧ Resized m m' r (npages newsz) ∧
          newsz ≤ 2 ^ 27 ∧
          (∀ j, npages oldsz ≤ j → j < npages newsz →
            ∃ e, entry m' r (pathOf (j * PGSIZE)) = some e ∧ e.flags = userFlags ||| PTE_V) ∨
        uvmalloc m r oldsz newsz = .ok (0, m') ∧ Resized m m' r (npages oldsz)) := by
  have hPG : PGSIZE = 4096 := rfl
  have holdp : npages oldsz = (oldsz + 4095) / 4096 := npages_of_lt hold
  rw [uvmalloc, if_neg (by omega)]
  dsimp only
  obtain ⟨turns, hturns⟩ : ∃ turns, turns = (newsz + PGSIZE - 1 - npages oldsz * PGSIZE) / PGSIZE :=
    ⟨_, rfl⟩
  rw [← hturns]
  obtain ⟨m', ⟨hloop, hs, hflags, -⟩ | ⟨hloop, hs⟩⟩ := allocLoop_ok newsz turns h (le_refl _) hkend
  · -- there was memory for all pages, so that there are not many
    have hle := hs.space.le_of_kend (by rw [hs.within.kend]; exact hkend)
    rw [hPG] at hturns
    have hsmall : newsz ≤ 2 ^ 27 := by omega
    have hsum : npages oldsz + turns = npages newsz := by
      rw [npages_of_lt (show newsz < 2 ^ 38 by omega), holdp]
      rw [holdp] at hturns
      omega
    rw [hsum] at hs hflags
    exact ⟨m', .inl ⟨hloop, hs, hsmall, hflags⟩⟩
  · exact ⟨m', .inr ⟨hloop, hs⟩⟩

/-! ### `growproc` -/

/-- The update of the page table in `growproc(n)`, with the size `sz` that it has read: the size to
store, or `none` if `growproc` returns -1. -/
def growUpdate (m : Mem) (pagetable : ℕ) (sz n : UInt) : Except Panic (Option UInt × Mem) :=
  if 0 < n.toInt then
    (uvmalloc m pagetable sz.toNat (sz + n).toNat).map fun r =>
      let sz := BitVec.ofNat 32 r.1
      (if sz = 0 then none else some sz, r.2)
  else if n.toInt < 0 then
    (uvmdealloc m pagetable sz.toNat (sz + n).toNat).map fun r => (some (BitVec.ofNat 32 r.1), r.2)
  else .ok (some sz, m)

/-- The size of user memory is less than that of physical memory. -/
theorem Space.size_le {sz : ℕ} (h : Space m r (npages sz)) (hkend : KERNBASE ≤ m.kend)
    (hsz : sz < 2 ^ 38) : sz ≤ 2 ^ 27 := by
  have hle := h.le_of_kend hkend
  rw [npages_of_lt hsz] at hle
  omega

theorem toNat_add_toInt {sz n : UInt} (h0 : 0 ≤ (sz.toNat : ℤ) + n.toInt)
    (h1 : (sz.toNat : ℤ) + n.toInt < 2 ^ 32) : ((sz + n).toNat : ℤ) = sz.toNat + n.toInt := by
  have hsz := sz.isLt
  have hn := n.isLt
  rw [toInt_eq_toNat_cond] at h0 h1 ⊢
  rw [toNat_add]
  split_ifs at h0 h1 ⊢ <;> omega

/-- **The page-table update of `growproc`**: the new size and its pages, or no change. -/
theorem growUpdate_ok {sz n : UInt} (h : Space m r (npages sz.toNat)) (hkend : KERNBASE ≤ m.kend)
    (h0 : 0 ≤ (sz.toNat : ℤ) + n.toInt) :
    ∃ m',
      (growUpdate m r sz n = .ok (none, m') ∧ Resized m m' r (npages sz.toNat) ∨
        ∃ sz', growUpdate m r sz n = .ok (some sz', m') ∧
          (sz'.toNat : ℤ) = sz.toNat + n.toInt ∧ Resized m m' r (npages sz'.toNat)) := by
  have hsz := sz.isLt
  have hle := h.size_le hkend (by omega)
  have hn := toInt_lt (x := n)
  have hsum := toNat_add_toInt h0 (by omega)
  have hlt := (sz + n).isLt
  have hofNat : BitVec.ofNat 32 (sz + n).toNat = sz + n := ofNat_toNat _ _ |>.trans (setWidth_eq _)
  unfold growUpdate
  by_cases hpos : 0 < n.toInt
  · obtain ⟨m', hcase⟩ := uvmalloc_ok (sz + n).toNat h (by omega) (by omega) hkend
    refine ⟨m', ?_⟩
    rw [if_pos hpos]
    rcases hcase with ⟨heq, hs, -⟩ | ⟨heq, hs⟩
    · have hne : sz + n ≠ 0 := fun hz => by
        have hzero : (sz + n).toNat = 0 := by rw [hz]; rfl
        omega
      refine .inr ⟨sz + n, ?_, hsum, hs⟩
      rw [heq]
      simp only [Except.map, hofNat, if_neg hne]
    · refine .inl ⟨?_, hs⟩
      rw [heq]
      rfl
  · rw [if_neg hpos]
    by_cases hneg : n.toInt < 0
    · obtain ⟨m', heq, hs⟩ := uvmdealloc_ok (sz + n).toNat h (by omega) (by omega)
      refine ⟨m', .inr ⟨sz + n, ?_, hsum, hs⟩⟩
      rw [if_pos hneg, heq]
      simp only [Except.map, hofNat]
    · rw [if_neg hneg]
      exact ⟨m, .inr ⟨sz, rfl, by omega, .refl h⟩⟩

/-- Where a thread stands in `growproc(n)`. -/
inductive Growing
  | idle
  | called (n : UInt) -- Before the read of `p->sz`
  | read (n sz : UInt) -- It has read `sz`
  | store (n sz : UInt) -- It is about to store `sz`
  deriving DecidableEq, Repr

/-- A thread that has read `p->sz` and not yet returned. -/
def Growing.busy : Growing → Bool
  | .read _ _ => true
  | .store _ _ => true
  | _ => false

/-- A process with page table `pagetable`, and its threads. -/
structure Sbrk (T : Type) where
  pagetable : ℕ
  mem : Mem
  sz : ℕ
  pos : T → Growing
  total : ℤ -- The sum of the amounts of the calls that have returned 0
  panic : Option Panic

namespace Sbrk

variable {T : Type} [DecidableEq T]

inductive Act (T : Type)
  | growproc (t : T) (n : UInt)
  | go (t : T)

def goto (s : Sbrk T) (t : T) (c : Growing) : Sbrk T :=
  { s with pos := Function.update s.pos t c }

/-- One step; there is none after a panic. -/
def step (s : Sbrk T) : Act T → Option (Sbrk T)
  | .growproc t n => if s.panic = none ∧ s.pos t = .idle then some (s.goto t (.called n)) else none
  | .go t =>
    if s.panic ≠ none then none
    else
      match s.pos t with
      | .idle => none
      | .called n => some (s.goto t (.read n (BitVec.ofNat 32 s.sz)))
      | .read n sz =>
        match growUpdate s.mem s.pagetable sz n with
        | .error e => some { s with panic := some e }
        | .ok (none, m) => some { s.goto t .idle with mem := m }
        | .ok (some sz, m) => some { s.goto t (.store n sz) with mem := m }
      | .store n sz => some { s.goto t .idle with sz := sz.toNat, total := s.total + n.toInt }

/-- The condition on the steps: `growproc(n)` reads `p->sz` while no other call stands between its
read and its end, and `n` takes off no more than there is. -/
def OneByOne (s : Sbrk T) : Act T → Prop
  | .growproc _ _ => True
  | .go t =>
    match s.pos t with
    | .called n => (∀ u, (s.pos u).busy = false) ∧ 0 ≤ s.sz + n.toInt
    | _ => True

/-- At most one call is busy; the pages are those of `p->sz`, or of the size that the call is about
to store. -/
inductive Stage (s : Sbrk T) : Prop
  | quiet (hfree : ∀ u, (s.pos u).busy = false) (hspace : Space s.mem s.pagetable (npages s.sz))
  | read {t : T} {n z : UInt} (hat : s.pos t = .read n z)
      (hfree : ∀ u, u ≠ t → (s.pos u).busy = false)
      (hspace : Space s.mem s.pagetable (npages s.sz)) (hz : z.toNat = s.sz)
      (h0 : 0 ≤ s.sz + n.toInt)
  | store {t : T} {n z : UInt} (hat : s.pos t = .store n z)
      (hfree : ∀ u, u ≠ t → (s.pos u).busy = false)
      (hspace : Space s.mem s.pagetable (npages z.toNat)) (hz : (z.toNat : ℤ) = s.sz + n.toInt)

/-- The invariant of runs in which the calls come one by one, for a process that starts with size
`sz₀`. -/
structure Inv (sz₀ : ℕ) (s : Sbrk T) : Prop where
  panic : s.panic = none
  kend : KERNBASE ≤ s.mem.kend
  small : s.sz < 2 ^ 38
  sum : (s.sz : ℤ) = sz₀ + s.total
  stage : s.Stage

variable {sz₀ : ℕ} {s s' : Sbrk T} {t u : T} {n z : UInt}

theorem pos_goto (s : Sbrk T) (t u : T) (c : Growing) :
    (s.goto t c).pos u = if u = t then c else s.pos u := by
  simp [goto, Function.update_apply]

theorem busy_goto (s : Sbrk T) (t u : T) (c : Growing) :
    ((s.goto t c).pos u).busy = if u = t then c.busy else (s.pos u).busy := by
  rw [pos_goto]
  split_ifs <;> rfl

/-- A thread that enters `growproc` is not the busy one. -/
theorem Stage.call (h : s.Stage) (hidle : s.pos t = .idle) : (s.goto t (.called n)).Stage := by
  have hbusy : ∀ u, (s.pos u).busy = false → ((s.goto t (.called n)).pos u).busy = false :=
    fun u hu => by
      rw [busy_goto]
      split_ifs
      · rfl
      · exact hu
  cases h with
  | quiet hfree hspace => exact .quiet (fun u => hbusy u (hfree u)) hspace
  | @read x k z hat hfree hspace hz h0 =>
    have hne : x ≠ t := by
      rintro rfl
      rw [hidle] at hat
      cases hat
    exact .read (by rw [pos_goto, if_neg hne, hat]) (fun u hu => hbusy u (hfree u hu)) hspace hz h0
  | @store x k z hat hfree hspace hz =>
    have hne : x ≠ t := by
      rintro rfl
      rw [hidle] at hat
      cases hat
    exact .store (by rw [pos_goto, if_neg hne, hat]) (fun u hu => hbusy u (hfree u hu)) hspace hz

theorem others_free (hfree : ∀ u, u ≠ t → (s.pos u).busy = false) (c : Growing) :
    ∀ u, u ≠ t → ((s.goto t c).pos u).busy = false := fun u hu => by
  rw [busy_goto, if_neg hu]
  exact hfree u hu

theorem none_busy (hfree : ∀ u, u ≠ t → (s.pos u).busy = false) (u : T) :
    ((s.goto t .idle).pos u).busy = false := by
  by_cases hu : u = t
  · rw [busy_goto, if_pos hu]
    rfl
  · exact others_free hfree .idle u hu

theorem eq_of_busy (hfree : ∀ x, x ≠ u → (s.pos x).busy = false)
    (hbusy : (s.pos t).busy = true) : t = u := by
  by_contra hne
  rw [hfree t hne] at hbusy
  cases hbusy

namespace Inv

theorem call (h : Inv sz₀ s) (hidle : s.pos t = .idle) : Inv sz₀ (s.goto t (.called n)) :=
  ⟨h.panic, h.kend, h.small, h.sum, h.stage.call hidle⟩

/-- The read of `p->sz`, with no other call busy. -/
theorem readSize (h : Inv sz₀ s) (hfree : ∀ u, (s.pos u).busy = false)
    (h0 : 0 ≤ s.sz + n.toInt) : Inv sz₀ (s.goto t (.read n (BitVec.ofNat 32 s.sz))) := by
  refine ⟨h.panic, h.kend, h.small, h.sum, ?_⟩
  cases h.stage with
  | quiet _ hspace =>
    have hle := hspace.size_le h.kend h.small
    refine .read (by rw [pos_goto, if_pos rfl]) (others_free (fun u _ => hfree u) _) hspace ?_ h0
    rw [toNat_ofNat]
    exact Nat.mod_eq_of_lt (by omega)
  | @read x k z hat =>
    have hbusy := hfree x
    rw [hat] at hbusy
    cases hbusy
  | @store x k z hat =>
    have hbusy := hfree x
    rw [hat] at hbusy
    cases hbusy

theorem update (h : Inv sz₀ s) (hat : s.pos t = .read n z) (hs : s.step (.go t) = some s') :
    Inv sz₀ s' := by
  have hbusy : (s.pos t).busy = true := by rw [hat]; rfl
  simp only [step, h.panic, hat, ne_eq, not_true_eq_false, if_false] at hs
  cases h.stage with
  | quiet hfree =>
    rw [hfree t] at hbusy
    cases hbusy
  | @store x k z' hat' hfree =>
    obtain rfl := eq_of_busy hfree hbusy
    rw [hat] at hat'
    cases hat'
  | @read x k z' hat' hfree hspace hz h0 =>
    obtain rfl := eq_of_busy hfree hbusy
    rw [hat] at hat'
    cases hat'
    rw [← hz] at hspace h0
    obtain ⟨m', ⟨heq, hnew⟩ | ⟨sz', heq, hsum, hnew⟩⟩ := growUpdate_ok hspace h.kend h0
    · rw [heq] at hs
      cases hs
      refine ⟨h.panic, hnew.within.kend ▸ h.kend, h.small, h.sum, .quiet (none_busy hfree) ?_⟩
      rw [hz] at hnew
      exact hnew.space
    · rw [heq] at hs
      cases hs
      refine ⟨h.panic, hnew.within.kend ▸ h.kend, h.small, h.sum,
        .store (by rw [pos_goto, if_pos rfl]) (others_free hfree _) hnew.space ?_⟩
      rwa [hz] at hsum

/-- The write of `p->sz` by the one busy call. -/
theorem storeSize (h : Inv sz₀ s) (hat : s.pos t = .store n z) :
    Inv sz₀ { s.goto t .idle with sz := z.toNat, total := s.total + n.toInt } := by
  have hbusy : (s.pos t).busy = true := by rw [hat]; rfl
  have hsum := h.sum
  have hlt := z.isLt
  cases h.stage with
  | quiet hfree =>
    rw [hfree t] at hbusy
    cases hbusy
  | @read x k z' hat' hfree =>
    obtain rfl := eq_of_busy hfree hbusy
    rw [hat] at hat'
    cases hat'
  | @store x k z' hat' hfree hspace hz =>
    obtain rfl := eq_of_busy hfree hbusy
    rw [hat] at hat'
    cases hat'
    refine ⟨h.panic, h.kend, ?_, ?_, .quiet (none_busy hfree) hspace⟩
    · show z.toNat < 2 ^ 38
      omega
    · show (z.toNat : ℤ) = sz₀ + (s.total + n.toInt)
      omega

theorem step {a : Act T} (h : Inv sz₀ s) (hg : s.OneByOne a) (hs : s.step a = some s') :
    Inv sz₀ s' := by
  cases a with
  | growproc t n =>
    simp only [Sbrk.step] at hs
    split_ifs at hs with hidle
    cases hs
    exact h.call hidle.2
  | go t =>
    cases hat : s.pos t with
    | idle => simp [Sbrk.step, hat] at hs
    | called n =>
      simp only [Sbrk.step, h.panic, hat, ne_eq, not_true_eq_false, if_false] at hs
      cases hs
      simp only [OneByOne, hat] at hg
      exact h.readSize hg.1 hg.2
    | read n z => exact h.update hat hs
    | store n z =>
      simp only [Sbrk.step, h.panic, hat, ne_eq, not_true_eq_false, if_false] at hs
      cases hs
      exact h.storeSize hat

end Inv

/-- A process with its threads outside `growproc`. -/
def start (m : Mem) (pagetable sz : ℕ) : Sbrk T := ⟨pagetable, m, sz, fun _ => .idle, 0, none⟩

end Sbrk

/-- There is a mapping for page `v`. -/
def Mapped (m : Mem) (r v : ℕ) : Prop := ∃ e, entry m r (pathOf (v * PGSIZE)) = some e

/-- The user pages that are mapped are exactly the first `n`. -/
theorem Space.mapped_iff (h : Space m r n) {v : ℕ} (hv : v < 2 ^ 26 - 2) :
    Mapped m r v ↔ v < n := by
  constructor
  · rintro ⟨e, he⟩
    obtain ⟨v', hv', heq⟩ := h.only _ e rfl he
    have hbound := h.bound
    have hlt : v' < 2 ^ 27 := by rcases hv' with hv' | hv' | hv' <;> omega
    have hvv := pathOf_inj (by omega) hlt heq
    subst hvv
    rcases hv' with hv' | hv' | hv' <;> omega
  · intro hlt
    obtain ⟨e, he, -⟩ := h.mapped v (.inl hlt)
    exact ⟨e, he⟩

/-- **`growproc` by several threads**, in every run in which a call reads `p->sz` only while no
other call is busy, and takes off no more than there is: there is no panic; `p->sz` is the initial
size and the sum of the amounts of the calls that have returned 0; and while no call is busy the
user pages that are mapped are those of `[0, PGROUNDUP(p->sz))`. -/
theorem sbrk_one_by_one {T : Type} [DecidableEq T] {sz₀ : ℕ} (h : Space m r (npages sz₀))
    (hkend : KERNBASE ≤ m.kend) (hsz : sz₀ ≤ TRAPFRAME) {tr : List (Sbrk.Act T)} {s : Sbrk T}
    (hr : Reach Sbrk.step Sbrk.OneByOne (Sbrk.start m r sz₀) tr s) :
    s.panic = none ∧ (s.sz : ℤ) = sz₀ + s.total ∧
      ((∀ t, s.pos t = .idle) → ∀ v < 2 ^ 26 - 2,
        Mapped s.mem s.pagetable v ↔ v * PGSIZE < npages s.sz * PGSIZE) := by
  have hsmall : sz₀ < 2 ^ 38 := by
    have hframe : TRAPFRAME < 2 ^ 38 := by decide
    omega
  have hinv : Sbrk.Inv sz₀ s := by
    refine hr.state_invariant ⟨rfl, hkend, hsmall, ?_, .quiet (fun _ => rfl) h⟩
      fun s a s' hs hg hstep => hs.step hg hstep
    exact (add_zero _).symm
  refine ⟨hinv.panic, hinv.sum, fun hidle v hv => ?_⟩
  have hspace : Space s.mem s.pagetable (npages s.sz) := by
    cases hinv.stage with
    | quiet _ hspace => exact hspace
    | @read x _ _ hat =>
      rw [hidle x] at hat
      cases hat
    | @store x _ _ hat =>
      rw [hidle x] at hat
      cases hat
  have hPG : 0 < PGSIZE := by decide
  rw [hspace.mapped_iff hv, Nat.mul_lt_mul_right hPG]

/-- A memory with twenty free pages. -/
def twentyPages : Mem :=
  { kend := 0x80020, trampoline := 0x80007, free := (List.range 20).map (· + 0x80100)
    word := fun _ _ => .zero }

theorem space_twentyPages : ∃ r m, procPagetable twentyPages 0x80050 = .ok (some r, m) ∧
    Space m r 0 ∧ m.kend = 0x80020 := by
  have hall : ∀ x ∈ twentyPages.free, 0x80020 ≤ x ∧ x < PHYSTOP := by decide +kernel
  obtain ⟨m, hw, hcase⟩ := procPagetable_ok (m := twentyPages) 0x80050 (by decide +kernel) hall
  rcases hcase with ⟨hnone, -⟩ | ⟨r, hsome, hspace, -⟩
  · have hrun : (procPagetable twentyPages 0x80050).toOption.map (·.1.isSome) = some true := by
      decide +kernel
    rw [hnone] at hrun
    cases hrun
  · exact ⟨r, m, hsome, hspace, hw.kend⟩

/-- Thread `t` calls `growproc(n)` and comes back. -/
def whole (t : Bool) (n : UInt) : List (Sbrk.Act Bool) := [.growproc t n, .go t, .go t, .go t]

/-- Both threads call `growproc(n)`, and their steps alternate. -/
def together (n : UInt) : List (Sbrk.Act Bool) :=
  [.growproc false n, .growproc true n, .go false, .go true, .go false, .go true, .go false,
    .go true]

instance {T : Type} [Fintype T] (s : Sbrk T) (a : Sbrk.Act T) : Decidable (s.OneByOne a) := by
  unfold Sbrk.OneByOne
  cases a with
  | growproc t n => exact .isTrue trivial
  | go t =>
    dsimp only
    cases s.pos t <;> infer_instance

theorem sbrk_one_by_one_two : ∃ m r s, Space m r 0 ∧
    Reach Sbrk.step Sbrk.OneByOne (Sbrk.start m r 0)
      (whole false 10 ++ whole true 5000 ++ whole false (-4000)).reverse s ∧
    s.panic = none ∧ s.sz = 1010 ∧ s.total = 10 + 5000 - 4000 ∧
    ∀ v < 2 ^ 26 - 2, Mapped s.mem s.pagetable v ↔ v * PGSIZE < npages s.sz * PGSIZE := by
  obtain ⟨r, m, hm, hspace, hkend⟩ := space_twentyPages
  have hrun : ∃ q ∈ (procPagetable twentyPages 0x80050).toOption, ∃ r ∈ q.1,
      ∃ s ∈ runWhen Sbrk.step Sbrk.OneByOne (Sbrk.start q.2 r 0)
        (whole false 10 ++ whole true 5000 ++ whole false (-4000)),
      s.sz = 1010 ∧ s.total = 1010 ∧ ∀ t, s.pos t = .idle := by decide +kernel
  rw [hm] at hrun
  obtain ⟨_, ⟨⟩, _, ⟨⟩, s, hs, he⟩ := hrun
  have hreach := reach_of_runWhen hs
  have hspace₀ : Space m r (npages 0) := hspace
  obtain ⟨hpanic, -, hmapped⟩ := sbrk_one_by_one hspace₀ (by rw [hkend]; decide) (by decide) hreach
  exact ⟨m, r, s, hspace, hreach, hpanic, he.1, he.2.1, hmapped he.2.2⟩

/-- Two calls that have read the same size: the second one maps a page again, and panics; or, if no
page is needed, the store of the first one is lost.  And one call that takes off more than there is
returns 0 and changes nothing. -/
theorem sbrk_loses_update : ∃ m r s₁ s₂ s₃, Space m r 0 ∧
    Reach Sbrk.step Always (Sbrk.start m r 0)
      (whole false 4096 ++ (together 4096).take 6).reverse s₁ ∧ s₁.panic = some .remap ∧
    Reach Sbrk.step Always (Sbrk.start m r 0)
      (whole false 10 ++ together 10).reverse s₂ ∧ s₂.panic = none ∧ (∀ t, s₂.pos t = .idle) ∧
      s₂.sz = 20 ∧ s₂.total = 10 + 10 + 10 ∧
    Reach Sbrk.step Always (Sbrk.start m r 0)
      (whole false 10 ++ whole false (-100)).reverse s₃ ∧ (∀ t, s₃.pos t = .idle) ∧
      s₃.sz = 10 ∧ s₃.total = 10 - 100 := by
  obtain ⟨r, m, hm, hspace, -⟩ := space_twentyPages
  have hrun : ∃ q ∈ (procPagetable twentyPages 0x80050).toOption, ∃ r ∈ q.1,
      (∃ s ∈ run Sbrk.step (Sbrk.start q.2 r 0) (whole false 4096 ++ (together 4096).take 6),
        s.panic = some .remap) ∧
      (∃ s ∈ run Sbrk.step (Sbrk.start q.2 r 0) (whole false 10 ++ together 10),
        s.panic = none ∧ (∀ t, s.pos t = .idle) ∧ s.sz = 20 ∧ s.total = 30) ∧
      ∃ s ∈ run Sbrk.step (Sbrk.start q.2 r 0) (whole false 10 ++ whole false (-100)),
        (∀ t, s.pos t = .idle) ∧ s.sz = 10 ∧ s.total = -90 := by decide +kernel
  rw [hm] at hrun
  obtain ⟨_, ⟨⟩, _, ⟨⟩, ⟨s₁, hs₁, he₁⟩, ⟨s₂, hs₂, he₂⟩, s₃, hs₃, he₃⟩ := hrun
  exact ⟨m, r, s₁, s₂, s₃, hspace, reach_always hs₁, he₁,
    reach_always hs₂, he₂.1, he₂.2.1, he₂.2.2.1, he₂.2.2.2,
    reach_always hs₃, he₃.1, he₃.2.1, he₃.2.2⟩

end Xv6.Vm
