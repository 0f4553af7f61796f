import Xv6.Param
import Xv6.Vm.UserMem

/-!
# Physical pages and page tables (`kernel/kalloc.c`, `kernel/vm.c`)

The page allocator and the functions that build and take down user page tables.  A physical page
is known by its number, and holds 512 words; a word is read as a page-table entry, a page number
and ten flag bits.  The pages from `kend` to `PHYSTOP` are the allocator's.

Virtual addresses and sizes are natural numbers below `2 ^ 64`.
-/

namespace Xv6.Vm

open Function

/-- The flags of a page-table entry. -/
abbrev Flags := BitVec 10

def PTE_V : Flags := 1

def PTE_R : Flags := 2

def PTE_W : Flags := 4

def PTE_X : Flags := 8

def PTE_U : Flags := 16

/-- A word of memory, as a page-table entry. -/
structure Pte where
  ppn : ℕ
  flags : Flags
  deriving DecidableEq, Repr

namespace Pte

def zero : Pte := ⟨0, 0⟩

/-- The word whose bytes are all `b`. -/
def fill (b : ℕ) : Pte := ⟨b * 0x0101010101010101 / 1024, BitVec.ofNat 10 (b * 0x0101010101010101)⟩

/-- The entry that a word stands for. -/
def ofWord (w : Word) : Pte := ⟨w.toNat / 1024, BitVec.ofNat 10 w.toNat⟩

def valid (e : Pte) : Bool := e.flags &&& PTE_V ≠ 0

/-- The page that a valid entry names. -/
def next (e : Pte) : Option ℕ := if e.valid then some e.ppn else none

end Pte

/-- Index of a word in its page. -/
abbrev Idx := Fin 512

inductive Panic
  | kfree -- `panic("kfree")`
  | walk -- `panic("walk")`
  | remap -- `panic("remap")`
  | unmapNotAligned -- `panic("uvmunmap: not aligned")`
  | unmapWalk -- `panic("uvmunmap: walk")`
  | unmapNotMapped -- `panic("uvmunmap: not mapped")`
  | unmapNotLeaf -- `panic("uvmunmap: not a leaf")`
  | freewalkLeaf -- `panic("freewalk: leaf")`
  | freewalkStack -- `freewalk` calls itself too often
  | copyNoPte -- `panic("uvmcopy: pte should exist")`
  | copyNotPresent -- `panic("uvmcopy: page not present")`
  | clear -- `panic("uvmclear")`
  deriving DecidableEq, Repr

/-- Physical memory. -/
structure Mem where
  kend : ℕ -- The first page after the kernel
  trampoline : ℕ -- The page of `trampoline.S`
  free : List ℕ -- `kmem.freelist`
  word : ℕ → Idx → Pte

/-- `PHYSTOP`, as a page number. -/
def PHYSTOP : ℕ := (0x80000000 + 128 * 1024 * 1024) / PGSIZE

namespace Mem

/-- `*pte = e`, for entry `i` of page `p`. -/
def set (m : Mem) (p : ℕ) (i : Idx) (e : Pte) : Mem :=
  { m with word := update m.word p (update (m.word p) i e) }

/-- `memset` of a page. -/
def memset (m : Mem) (p : ℕ) (b : ℕ) : Mem :=
  { m with word := update m.word p fun _ => Pte.fill b }

/-- `memmove` of a page. -/
def memmove (m : Mem) (dst src : ℕ) : Mem :=
  { m with word := update m.word dst (m.word src) }

/-- `kalloc`. -/
def kalloc (m : Mem) : Option ℕ × Mem :=
  match m.free with
  | [] => (none, m)
  | p :: ps => (some p, { m with free := ps }.memset p 5)

/-- `kfree`. -/
def kfree (m : Mem) (p : ℕ) : Except Panic Mem :=
  if m.kend ≤ p ∧ p < PHYSTOP then .ok { m.memset p 1 with free := p :: m.free }
  else .error .kfree

end Mem

/-- `PX(level, va)`. -/
def px (level va : ℕ) : Idx := Fin.ofNat 512 (va / 2 ^ (12 + 9 * level))

/-- The loop of `walk`, with the indices that are left. -/
def walkFrom (alloc : Bool) : List Idx → Mem → ℕ → Option ℕ × Mem
  | [], m, p => (some p, m)
  | i :: is, m, p =>
    if (m.word p i).valid then walkFrom alloc is m (m.word p i).ppn
    else if alloc then
      match m.kalloc with
      | (none, m) => (none, m)
      | (some n, m) => walkFrom alloc is ((m.memset n 0).set p i ⟨n, PTE_V⟩) n
    else (none, m)

/-- `walk`: the page-table page with the entry of `va`, and the index of the entry. -/
def walk (m : Mem) (pagetable va : ℕ) (alloc : Bool) : Except Panic (Option (ℕ × Idx) × Mem) :=
  if MAXVA.toNat ≤ va then .error .walk
  else
    let r := walkFrom alloc [px 2 va, px 1 va] m pagetable
    .ok (r.1.map fun p => (p, px 0 va), r.2)

/-- The loop of `mappages`: `turns` pages from address `a` on, to the pages from `ppn` on. -/
def mapLoop (pagetable : ℕ) (perm : Flags) : ℕ → Mem → ℕ → ℕ → Except Panic (ℤ × Mem)
  | 0, m, _, _ => .ok (0, m)
  | turns + 1, m, a, ppn =>
    (walk m pagetable a true).bind fun r =>
      match r.1 with
      | none => .ok (-1, r.2)
      | some (p, k) =>
        if (r.2.word p k).valid then .error .remap
        else mapLoop pagetable perm turns (r.2.set p k ⟨ppn, perm ||| PTE_V⟩) (a + PGSIZE) (ppn + 1)

/-- `mappages`; `pa` is given by its page number. -/
def mappages (m : Mem) (pagetable va size ppn : ℕ) (perm : Flags) : Except Panic (ℤ × Mem) :=
  let a := va / PGSIZE
  let last := (va + size + 2 ^ 64 - 1) % 2 ^ 64 / PGSIZE
  -- until `a == last`
  mapLoop pagetable perm ((last + 2 ^ 52 - a) % 2 ^ 52 + 1) m (a * PGSIZE) ppn

/-- The loop of `uvmunmap`. -/
def unmapLoop (pagetable : ℕ) (doFree : Bool) : ℕ → Mem → ℕ → Except Panic Mem
  | 0, m, _ => .ok m
  | turns + 1, m, a =>
    (walk m pagetable a false).bind fun r =>
      match r.1 with
      | none => .error .unmapWalk
      | some (p, k) =>
        let e := m.word p k
        if !e.valid then .error .unmapNotMapped
        else if e.flags = PTE_V then .error .unmapNotLeaf
        else
          (if doFree then m.kfree e.ppn else .ok m).bind fun m =>
            unmapLoop pagetable doFree turns (m.set p k .zero) (a + PGSIZE)

/-- `uvmunmap`. -/
def uvmunmap (m : Mem) (pagetable va npages : ℕ) (doFree : Bool) : Except Panic Mem :=
  if va % PGSIZE ≠ 0 then .error .unmapNotAligned
  else unmapLoop pagetable doFree (((va + npages * PGSIZE) % 2 ^ 64 - va) / PGSIZE) m va

/-- `uvmcreate`. -/
def uvmcreate (m : Mem) : Option ℕ × Mem :=
  match m.kalloc with
  | (none, m) => (none, m)
  | (some p, m) => (some p, m.memset p 0)

/-- One turn of the loop of `freewalk`, for entry `i` of page `p`. -/
def freeEntry (freewalk : Mem → ℕ → Except Panic Mem) (p : ℕ) (m : Mem) (i : Idx) :
    Except Panic Mem :=
  let e := m.word p i
  if e.valid ∧ e.flags &&& (PTE_R ||| PTE_W ||| PTE_X) = 0 then
    (freewalk m e.ppn).map fun m => m.set p i .zero
  else if e.valid then .error .freewalkLeaf
  else .ok m

/-- `freewalk`, which may call itself `depth` times. -/
def freewalk : ℕ → Mem → ℕ → Except Panic Mem
  | 0, _, _ => .error .freewalkStack
  | depth + 1, m, p =>
    ((List.finRange 512).foldlM (freeEntry (freewalk depth) p) m).bind fun m => m.kfree p

/-- `PGROUNDUP(sz) / PGSIZE`. -/
def npages (sz : ℕ) : ℕ := (sz + PGSIZE - 1) % 2 ^ 64 / PGSIZE

/-- `uvmfree`. -/
def uvmfree (m : Mem) (pagetable sz : ℕ) : Except Panic Mem :=
  (if 0 < sz then uvmunmap m pagetable 0 (npages sz) true else .ok m).bind fun m =>
    freewalk 3 m pagetable

/-- One turn of `uvmcopy`, at address `i`: whether there was enough memory. -/
def copyPage (m : Mem) (old new i : ℕ) : Except Panic (Bool × Mem) :=
  (walk m old i false).bind fun r =>
    match r.1 with
    | none => .error .copyNoPte
    | some (p, k) =>
      let e := m.word p k
      if !e.valid then .error .copyNotPresent
      else
        match m.kalloc with
        | (none, m) => .ok (false, m)
        | (some mem, m) =>
          (mappages (m.memmove mem e.ppn) new i PGSIZE mem e.flags).bind fun r =>
            if r.1 ≠ 0 then (r.2.kfree mem).map fun m => (false, m) else .ok (true, r.2)

/-- `uvmclear`. -/
def uvmclear (m : Mem) (pagetable va : ℕ) : Except Panic Mem :=
  (walk m pagetable va false).bind fun r =>
    match r.1 with
    | none => .error .clear
    | some (p, k) =>
      .ok (m.set p k { m.word p k with flags := (m.word p k).flags &&& ~~~PTE_U })

/-- `TRAMPOLINE`. -/
def TRAMPOLINE : ℕ := MAXVA.toNat - PGSIZE

/-- `TRAPFRAME`. -/
def TRAPFRAME : ℕ := TRAMPOLINE - PGSIZE

/-- `proc_pagetable`, for a process with this trapframe page. -/
def procPagetable (m : Mem) (trapframe : ℕ) : Except Panic (Option ℕ × Mem) :=
  match uvmcreate m with
  | (none, m) => .ok (none, m)
  | (some p, m) =>
    (mappages m p TRAMPOLINE PGSIZE m.trampoline (PTE_R ||| PTE_X)).bind fun r =>
      if r.1 < 0 then (uvmfree r.2 p 0).map fun m => (none, m)
      else
        (mappages r.2 p TRAPFRAME PGSIZE trapframe (PTE_R ||| PTE_W)).bind fun r =>
          if r.1 < 0 then
            (uvmunmap r.2 p TRAMPOLINE 1 false).bind fun m => (uvmfree m p 0).map fun m => (none, m)
          else .ok (some p, r.2)

/-- `proc_freepagetable`. -/
def procFreepagetable (m : Mem) (pagetable sz : ℕ) : Except Panic Mem :=
  (uvmunmap m pagetable TRAMPOLINE 1 false).bind fun m =>
    (uvmunmap m pagetable TRAPFRAME 1 false).bind fun m => uvmfree m pagetable sz

end Xv6.Vm
