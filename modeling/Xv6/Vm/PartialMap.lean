import Xv6.Vm.Space
import Xv6.Lib.Run

/-!
# Page tables as partial maps

What `walk` finds in a page table that is built by `mappages`, `uvmunmap` and `uvmclear` is a
partial map from page numbers to page-table entries.  A call changes it on the pages that it names
and nowhere else.

The page-table pages are the only ones that matter here.  A page may be mapped at several addresses,
and pages that are not page-table pages belong to others; `other` is what these do with them.
-/

namespace Xv6.Vm

open Outcome Transition List Option Pte

variable {m m' m₁ : Mem} {r p n v w va : ℕ} {i k : Idx} {e : Pte} {P Q : List Idx} {perm : Flags}

/-! ### Entries as words -/

def PTE2PA (pte : BitVec 64) : BitVec 64 := (pte >>> 10) <<< 12

def PTE_FLAGS (pte : BitVec 64) : BitVec 64 := pte &&& 0x3FF

/-- The word in memory. -/
def Pte.toWord (e : Pte) : BitVec 64 := BitVec.ofNat 64 (e.ppn * 1024 + e.flags.toNat)

theorem Pte.toNat_toWord (h : e.ppn < 2 ^ 52) : e.toWord.toNat = e.ppn * 1024 + e.flags.toNat := by
  have hlt := e.flags.isLt
  rw [toWord, BitVec.toNat_ofNat, Nat.mod_eq_of_lt (by omega)]

theorem Pte.pa_toWord (h : e.ppn < 2 ^ 52) : (PTE2PA e.toWord).toNat = e.ppn * PGSIZE := by
  have hlt := e.flags.isLt
  have hPG : PGSIZE = 4096 := rfl
  rw [PTE2PA, BitVec.toNat_shiftLeft, BitVec.toNat_ushiftRight, e.toNat_toWord h,
    Nat.shiftRight_eq_div_pow, Nat.shiftLeft_eq, hPG]
  omega

theorem Pte.flags_toWord (h : e.ppn < 2 ^ 52) : (PTE_FLAGS e.toWord).toNat = e.flags.toNat := by
  have hlt := e.flags.isLt
  have hmask : (0x3FF : BitVec 64).toNat = 2 ^ 10 - 1 := rfl
  rw [PTE_FLAGS, BitVec.toNat_and, hmask, Nat.and_two_pow_sub_one_eq_mod, e.toNat_toWord h]
  omega

/-! ### Tables -/

/-- `p` is a page-table page. -/
def IsTable (m : Mem) (r p : ℕ) : Prop := ∃ P, P.length ≤ 2 ∧ node m r P = some p

/-- What `walk` finds for page `v`. -/
def lookup (m : Mem) (r v : ℕ) : Option Pte :=
  match walk m r (v * PGSIZE) false with
  | .ok (some (p, k), _) => if (m.word p k).valid then some (m.word p k) else none
  | _ => none

/-- Number of pages below `MAXVA`. -/
def maxPages : ℕ := 2 ^ 26

theorem MAXVA_eq : MAXVA.toNat = maxPages * PGSIZE := by decide

theorem lookup_eq (hv : v < maxPages) : lookup m r v = entry m r (pathOf (v * PGSIZE)) := by
  have hva : v * PGSIZE < MAXVA.toNat := by
    rw [MAXVA_eq]
    exact Nat.mul_lt_mul_of_pos_right hv (by decide)
  rw [lookup, walk_look hva, pathOf, entry]
  cases node m r (tableOf (v * PGSIZE)) <;> rfl

structure Table (m : Mem) (r : ℕ) : Prop where
  distinct : Distinct m r
  managed : ∀ p, p ∈ m.free ∨ IsTable m r p → m.kend ≤ p ∧ p < PHYSTOP
  /-- Only pages below `MAXVA` are mapped. -/
  only : ∀ Q e, Q.length = 3 → entry m r Q = some e →
    e.ppn < 2 ^ 52 ∧ ∃ v < maxPages, Q = pathOf (v * PGSIZE)

namespace Table

/-- The page-table pages are as before, and so are the entries in them. -/
theorem congr (h : Table m r) (hword : ∀ p, IsTable m r p → m'.word p = m.word p)
    (hkend : m'.kend = m.kend) (hnodup : m'.free.Nodup)
    (hfree : ∀ p ∈ m'.free, (m.kend ≤ p ∧ p < PHYSTOP) ∧ ¬ IsTable m r p) :
    Table m' r ∧ ∀ Q, Q.length ≤ 3 → entry m' r Q = entry m r Q := by
  have hword' : ∀ P p, P.length ≤ 2 → node m r P = some p → m'.word p = m.word p :=
    fun P p hP hp => hword p ⟨P, hP, hp⟩
  have hnode : ∀ {P}, P.length ≤ 3 → node m' r P = node m r P := fun hP => node_congr hword' hP
  have hentry : ∀ Q, Q.length ≤ 3 → entry m' r Q = entry m r Q := fun Q hQ =>
    entry_congr hword' hQ
  refine ⟨⟨⟨hnodup, ?_, ?_, ?_⟩, ?_, ?_⟩, hentry⟩
  · intro P Q p hP hQ hp hq
    rw [hnode (by omega)] at hp hq
    exact h.distinct.unique hP hQ hp hq
  · intro P p hP hp hmem
    rw [hnode (by omega)] at hp
    exact (hfree p hmem).2 ⟨P, hP, hp⟩
  · intro P p i hP hp hv
    rw [hnode (by omega)] at hp
    rw [hword' P p hP.le hp] at hv ⊢
    exact h.distinct.interior P p i hP hp hv
  · rintro p (hp | ⟨P, hP, hp⟩)
    · rw [hkend]
      exact (hfree p hp).1
    · rw [hnode (by omega)] at hp
      rw [hkend]
      exact h.managed p (.inr ⟨P, hP, hp⟩)
  · intro Q e hQ he
    rw [hentry Q hQ.le] at he
    exact h.only Q e hQ he

/-- `walk` adds a page-table page. -/
theorem link (h : Table m r) (ht : Taken m m₁ n) (hz : ∀ j, (m₁.word n j).valid = false)
    (hP : P.length < 2) (hp : node m r P = some p) (hi : (m.word p i).valid = false) :
    Table (m₁.set p i ⟨n, PTE_V⟩) r where
  distinct := link_distinct h.distinct ht hz hP hp hi
  managed q hq := by
    have hkend : (m₁.set p i ⟨n, PTE_V⟩).kend = m.kend := ht.within.kend
    rw [hkend]
    rcases hq with hq | ⟨Q, hQ, hq⟩
    · refine h.managed q (.inl ?_)
      rw [ht.free]
      exact mem_cons_of_mem n hq
    · rw [link_node h.distinct ht hz hP hp hi (by omega)] at hq
      split_ifs at hq with hQP
      · cases hq
        exact h.managed n (.inl ht.mem)
      · exact h.managed q (.inr ⟨Q, hQ, hq⟩)
  only Q e hQ he := by
    rw [link_entry h.distinct ht hz hP hp hi hQ] at he
    exact h.only Q e hQ he

/-- `walk` with allocation keeps what is mapped. -/
theorem walk_alloc (h : Table m r) (hva : va < MAXVA.toNat) :
    ∃ m', Table m' r ∧ (∀ Q, Q.length = 3 → entry m' r Q = entry m r Q) ∧
      (walk m r va true = .ok (none, m') ∨
        ∃ p, walk m r va true = .ok (some (p, px 0 va), m') ∧ node m' r (tableOf va) = some p) := by
  have hlink : LinkInvariant r fun m' =>
      Table m' r ∧ ∀ Q, Q.length = 3 → entry m' r Q = entry m r Q := by
    intro m' m₁ n P p i hm ht hz hP hp hi
    refine ⟨hm.1.link ht hz hP hp hi, fun Q hQ => ?_⟩
    exact (link_entry hm.1.distinct ht hz hP hp hi hQ).trans (hm.2 Q hQ)
  obtain ⟨m', ⟨ht, hentry⟩, hres⟩ :=
    Vm.walk_alloc (fun m hm => hm.1.distinct) hlink ⟨h, fun _ _ => rfl⟩ hva
  exact ⟨m', ht, hentry, hres⟩

section

variable (h : Table m r) (hv : v < maxPages) (hp : node m r (tableOf (v * PGSIZE)) = some p)

include h hv hp

/-- The entry of page `v` is written. -/
theorem set_leaf (he : e.valid = true → e.ppn < 2 ^ 52) :
    Table (m.set p (px 0 (v * PGSIZE)) e) r := by
  have hnode : ∀ {Q}, Q.length ≤ 2 → node (m.set p (px 0 (v * PGSIZE)) e) r Q = node m r Q := by
    intro Q hQ
    have hne : Q ≠ px 0 (v * PGSIZE) :: tableOf (v * PGSIZE) := by
      rintro rfl
      simp at hQ
    rw [node_set h.distinct (by simp) hp (fun hlt => by simp at hlt) (by omega), if_neg hne]
  refine ⟨⟨h.distinct.nodup, ?_, ?_, ?_⟩, ?_, ?_⟩
  · intro P Q q hP hQ hq hq'
    rw [hnode hP] at hq
    rw [hnode hQ] at hq'
    exact h.distinct.unique hP hQ hq hq'
  · intro Q q hQ hq
    rw [hnode hQ] at hq
    exact h.distinct.not_free hQ hq
  · intro Q q j hQ hq hval
    rw [hnode hQ.le] at hq
    have hqp : q ≠ p := by
      rintro rfl
      have heq := congrArg length (h.distinct.unique hQ.le (by simp) hq hp)
      simp at heq
      omega
    rw [word_set, if_neg fun hset => hqp hset.1] at hval ⊢
    exact h.distinct.interior Q q j hQ hq hval
  · rintro q (hq | ⟨Q, hQ, hq⟩)
    · exact h.managed q (.inl hq)
    · rw [hnode hQ] at hq
      exact h.managed q (.inr ⟨Q, hQ, hq⟩)
  · intro Q e' hQ he'
    rw [entry_set_leaf h.distinct hp (by simp) hQ] at he'
    split_ifs at he' with hQv hval
    · cases he'
      exact ⟨he hval, v, hv, hQv⟩
    · exact h.only Q e' hQ he'

theorem lookup_set (hw : w < maxPages) : lookup (m.set p (px 0 (v * PGSIZE)) e) r w =
    if w = v then if e.valid then some e else none else lookup m r w := by
  rw [lookup_eq hw, lookup_eq hw, entry_set_leaf h.distinct hp (by simp) rfl]
  have hiff : pathOf (w * PGSIZE) = px 0 (v * PGSIZE) :: tableOf (v * PGSIZE) ↔ w = v := by
    refine ⟨fun heq => pathOf_inj ?_ ?_ heq, fun heq => by rw [heq]; rfl⟩
    · exact hw.trans (by decide)
    · exact hv.trans (by decide)
  simp only [hiff]

end

end Table

/-! ### Partial maps -/

/-- The pages from `v` on are mapped to the pages from `ppn` on. -/
def mapRange (f : ℕ → Option Pte) (v n ppn : ℕ) (perm : Flags) : ℕ → Option Pte := fun w =>
  if v ≤ w ∧ w < v + n then some ⟨ppn + (w - v), perm ||| PTE_V⟩ else f w

def unmapRange (f : ℕ → Option Pte) (v n : ℕ) : ℕ → Option Pte := fun w =>
  if v ≤ w ∧ w < v + n then none else f w

/-- Page `v` is taken from the user. -/
def clearUser (f : ℕ → Option Pte) (v : ℕ) : ℕ → Option Pte := fun w =>
  if w = v then (f w).map fun e => { e with flags := e.flags &&& ~~~PTE_U } else f w

theorem mapRange_zero (f : ℕ → Option Pte) (v ppn : ℕ) (perm : Flags) :
    mapRange f v 0 ppn perm = f := by
  funext w
  exact if_neg (by omega)

theorem mapRange_succ (f g : ℕ → Option Pte) (v n ppn : ℕ) (perm : Flags)
    (hg : g w = if w = v then some ⟨ppn, perm ||| PTE_V⟩ else f w) :
    mapRange g (v + 1) n (ppn + 1) perm w = mapRange f v (n + 1) ppn perm w := by
  unfold mapRange
  rw [hg]
  rcases Nat.lt_trichotomy w v with hlt | heq | hgt
  · rw [if_neg (by omega), if_neg (by omega), if_neg (by omega)]
  · rw [if_neg (by omega), if_pos heq, if_pos (by omega), heq, Nat.sub_self, Nat.add_zero]
  · by_cases hn : w < v + (n + 1)
    · have hppn : ppn + 1 + (w - (v + 1)) = ppn + (w - v) := by omega
      rw [if_pos (by omega), if_pos (by omega), hppn]
    · rw [if_neg (by omega), if_neg (by omega), if_neg (by omega)]

theorem unmapRange_succ (f g : ℕ → Option Pte) (v n : ℕ) (hg : g w = if w = v then none else f w) :
    unmapRange g (v + 1) n w = unmapRange f v (n + 1) w := by
  unfold unmapRange
  rw [hg]
  rcases Nat.lt_trichotomy w v with hlt | heq | hgt
  · rw [if_neg (by omega), if_neg (by omega), if_neg (by omega)]
  · rw [if_neg (by omega), if_pos heq, if_pos (by omega)]
  · by_cases hn : w < v + (n + 1)
    · rw [if_pos (by omega), if_pos (by omega)]
    · rw [if_neg (by omega), if_neg (by omega), if_neg (by omega)]

/-! ### `mappages` -/

/-- The loop maps all the pages, or stops early for want of memory. -/
theorem Table.mapLoop {turns ppn : ℕ} (h : Table m r) (perm : Flags) (hlt : v + turns ≤ maxPages)
    (hppn : ppn + turns ≤ 2 ^ 52) (hnew : ∀ w, v ≤ w → w < v + turns → lookup m r w = none) :
    ∃ ret m' n, mapLoop r perm turns m (v * PGSIZE) ppn = .ok (ret, m') ∧ Table m' r ∧ n ≤ turns ∧
      (ret = 0 ↔ n = turns) ∧
      ∀ w < maxPages, lookup m' r w = mapRange (lookup m r) v n ppn perm w := by
  induction turns generalizing m v ppn with
  | zero =>
    refine ⟨0, m, 0, rfl, h, le_rfl, by simp, fun w _ => ?_⟩
    rw [mapRange_zero]
  | succ turns ih =>
    have hv : v < maxPages := by omega
    have hva : v * PGSIZE < MAXVA.toNat := by
      rw [MAXVA_eq]
      exact Nat.mul_lt_mul_of_pos_right hv (by decide)
    obtain ⟨m₁, h1, hentry, hwalk | ⟨p, hwalk, hp⟩⟩ := h.walk_alloc hva
    · refine ⟨-1, m₁, 0, by rw [mapLoop, hwalk]; rfl, h1, by omega, by simp, fun w hw => ?_⟩
      rw [mapRange_zero, lookup_eq hw, lookup_eq hw, hentry _ rfl]
    have hsame : ∀ w < maxPages, lookup m₁ r w = lookup m r w := fun w hw => by
      rw [lookup_eq hw, lookup_eq hw, hentry _ rfl]
    have hinvalid : (m₁.word p (px 0 (v * PGSIZE))).valid = false := by
      by_contra hval
      have hsome := entry_cons_eq_some.2 ⟨p, hp, by simpa using hval, rfl⟩
      have hnone := (hsame v hv).trans (hnew v le_rfl (by omega))
      rw [lookup_eq hv] at hnone
      cases hnone.symm.trans hsome
    set e : Pte := ⟨ppn, perm ||| PTE_V⟩ with he
    have h2 := h1.set_leaf hv hp (e := e) fun _ => by simp only [he]; omega
    have hset : ∀ w < maxPages, lookup (m₁.set p (px 0 (v * PGSIZE)) e) r w =
        if w = v then some e else lookup m r w := fun w hw => by
      rw [h1.lookup_set hv hp hw, if_pos (valid_or_PTE_V ppn perm), hsame w hw]
    have hppn' : ppn + 1 + turns ≤ 2 ^ 52 := by omega
    obtain ⟨ret, m', n, hloop, h', hn, hret, hlook⟩ := ih (v := v + 1) h2
      (by omega) hppn' fun w hvw hw => by
        rw [hset w (by omega), if_neg (by omega)]
        exact hnew w (by omega) (by omega)
    refine ⟨ret, m', n + 1, ?_, h', by omega, by omega, fun w hw => ?_⟩
    · rw [mapLoop, hwalk, ok_bind]
      simp only [hinvalid]
      rw [Nat.succ_mul] at hloop
      exact hloop
    · rw [hlook w hw]
      exact mapRange_succ _ _ v n ppn perm (hset w hw)

/-- Number of pages of `mappages`. -/
def numPages (va size : ℕ) : ℕ := (va + size - 1) / PGSIZE - va / PGSIZE + 1

theorem mappages_eq {size ppn : ℕ} (hsize : 0 < size) (hlt : va + size ≤ MAXVA.toNat) :
    mappages m r va size ppn perm =
      mapLoop r perm (numPages va size) m (va / PGSIZE * PGSIZE) ppn := by
  unfold mappages numPages
  have hPG : PGSIZE = 4096 := rfl
  rw [MAXVA_toNat] at hlt
  have hlast : (va + size + 2 ^ 64 - 1) % 2 ^ 64 = va + size - 1 := by omega
  have hle : va / PGSIZE ≤ (va + size - 1) / PGSIZE := Nat.div_le_div_right (by omega)
  have hturns : ((va + size - 1) / PGSIZE + 2 ^ 52 - va / PGSIZE) % 2 ^ 52 =
      (va + size - 1) / PGSIZE - va / PGSIZE := by
    rw [hPG] at hle ⊢
    omega
  simp only [hlast, hturns]

theorem numPages_le {size : ℕ} (hsize : 0 < size) (hlt : va + size ≤ MAXVA.toNat) :
    va / PGSIZE + numPages va size ≤ maxPages := by
  have hPG : PGSIZE = 4096 := rfl
  have hmax : maxPages = 2 ^ 26 := rfl
  rw [MAXVA_toNat] at hlt
  unfold numPages
  rw [hPG, hmax]
  omega

/-! ### `uvmunmap` -/

/-- `p` may be freed: it is neither a page-table page nor free. -/
def Freeable (m : Mem) (r p : ℕ) : Prop := p ∉ m.free ∧ ¬ IsTable m r p

/-- The pages from `v` on may be freed, and no page twice. -/
def RangeFreeable (m : Mem) (r v n : ℕ) : Prop :=
  ∀ w e, v ≤ w → w < v + n → lookup m r w = some e → Freeable m r e.ppn ∧
    ∀ w' e', v ≤ w' → w' < v + n → lookup m r w' = some e' → e'.ppn = e.ppn → w' = w

theorem isTable_set_leaf (h : Table m r) (hp : node m r (tableOf va) = some p) {q : ℕ} :
    IsTable (m.set p (px 0 va) e) r q ↔ IsTable m r q := by
  have hnode : ∀ Q, Q.length ≤ 2 → node (m.set p (px 0 va) e) r Q = node m r Q := by
    intro Q hQ
    have hne : Q ≠ px 0 va :: tableOf va := by
      rintro rfl
      simp at hQ
    rw [node_set h.distinct (by simp) hp (fun hlt => by simp at hlt) (by omega), if_neg hne]
  constructor
  · rintro ⟨Q, hQ, hq⟩
    exact ⟨Q, hQ, (hnode Q hQ).symm.trans hq⟩
  · rintro ⟨Q, hQ, hq⟩
    exact ⟨Q, hQ, (hnode Q hQ).trans hq⟩

theorem isTable_congr (hword : ∀ p, IsTable m r p → m'.word p = m.word p) {q : ℕ} :
    IsTable m' r q ↔ IsTable m r q := by
  have hnode : ∀ Q, Q.length ≤ 3 → node m' r Q = node m r Q := fun Q hQ =>
    node_congr (fun P p hP hp => hword p ⟨P, hP, hp⟩) hQ
  constructor
  · rintro ⟨Q, hQ, hq⟩
    exact ⟨Q, hQ, (hnode Q (by omega)).symm.trans hq⟩
  · rintro ⟨Q, hQ, hq⟩
    exact ⟨Q, hQ, (hnode Q (by omega)).trans hq⟩

theorem Table.kfree (h : Table m r) (hk : m.kfree n = .ok m') (hn : Freeable m r n) :
    Table m' r ∧ (∀ Q, Q.length ≤ 3 → entry m' r Q = entry m r Q) ∧ m'.free = n :: m.free ∧
      ∀ p, IsTable m r p → m'.word p = m.word p := by
  unfold Mem.kfree at hk
  split_ifs at hk with hmanaged
  cases hk
  have hword : ∀ p, IsTable m r p → Function.update m.word n (fun _ => fill 1) p = m.word p :=
    fun p hp => Function.update_of_ne (fun heq : p = n => hn.2 (heq ▸ hp)) ..
  set m' : Mem := { m.memset n 1 with free := n :: m.free }
  have hword' : ∀ p, IsTable m r p → m'.word p = m.word p := hword
  obtain ⟨h', hentry⟩ := h.congr hword' rfl
    (nodup_cons.2 ⟨hn.1, h.distinct.nodup⟩) fun p hp => by
      rcases mem_cons.1 hp with rfl | hp
      · exact ⟨hmanaged, hn.2⟩
      · refine ⟨h.managed p (.inl hp), ?_⟩
        rintro ⟨P, hP, hp'⟩
        exact h.distinct.not_free hP hp' hp
  exact ⟨h', hentry, rfl, hword⟩

theorem unmap_one {doFree : Bool} {turns : ℕ} (h : Table m r) (hv : v < maxPages)
    (hloop : unmapLoop r doFree (turns + 1) m (v * PGSIZE) = .ok m')
    (hfree : doFree = true → ∀ e, lookup m r v = some e → Freeable m r e.ppn) :
    ∃ e m₁, lookup m r v = some e ∧ unmapLoop r doFree turns m₁ ((v + 1) * PGSIZE) = .ok m' ∧
      Table m₁ r ∧ (∀ w < maxPages, lookup m₁ r w = if w = v then none else lookup m r w) ∧
      (∀ q, IsTable m₁ r q ↔ IsTable m r q) ∧
      m₁.free = if doFree then e.ppn :: m.free else m.free := by
  have hva : v * PGSIZE < MAXVA.toNat := by
    rw [MAXVA_eq]
    exact Nat.mul_lt_mul_of_pos_right hv (by decide)
  rw [unmapLoop, walk_look hva, ok_bind] at hloop
  cases hp : node m r (tableOf (v * PGSIZE)) with
  | none =>
    rw [hp] at hloop
    cases hloop
  | some p =>
    rw [hp] at hloop
    simp only [map_some] at hloop
    set e := m.word p (px 0 (v * PGSIZE)) with he
    split_ifs at hloop with hval hflags hdo
    · -- the page is freed first
      have hlook : lookup m r v = some e := by
        rw [lookup_eq hv]
        exact entry_cons_eq_some.2 ⟨p, hp, by simpa using hval, rfl⟩
      cases hk : m.kfree e.ppn with
      | error x =>
        rw [hk] at hloop
        cases hloop
      | ok m₁ =>
        rw [hk, ok_bind] at hloop
        obtain ⟨h1, hentry, hfree1, hword⟩ := h.kfree hk (hfree hdo e hlook)
        have hp1 : node m₁ r (tableOf (v * PGSIZE)) = some p := by
          rw [node_congr (fun P q hP hq => hword q ⟨P, hP, hq⟩) (by simp), hp]
        refine ⟨e, m₁.set p (px 0 (v * PGSIZE)) .zero, hlook, ?_, h1.set_leaf hv hp1 (by rintro ⟨⟩),
          fun w hw => ?_, fun q => ?_, ?_⟩
        · rw [Nat.succ_mul]
          exact hloop
        · rw [h1.lookup_set hv hp1 hw, lookup_eq hw, hentry _ (by simp [pathOf]), ← lookup_eq hw]
          rfl
        · rw [isTable_set_leaf h1 hp1, isTable_congr hword]
        · rw [if_pos hdo]
          exact hfree1
    · refine ⟨e, m.set p (px 0 (v * PGSIZE)) .zero, ?_, ?_, h.set_leaf hv hp (by rintro ⟨⟩),
        fun w hw => ?_, fun q => isTable_set_leaf h hp, ?_⟩
      · rw [lookup_eq hv]
        exact entry_cons_eq_some.2 ⟨p, hp, by simpa using hval, rfl⟩
      · rw [Nat.succ_mul]
        exact hloop
      · rw [h.lookup_set hv hp hw]
        rfl
      · rw [if_neg hdo]
        rfl

theorem unmapLoop_spec {doFree : Bool} {turns : ℕ} (h : Table m r) (hlt : v + turns ≤ maxPages)
    (hfree : doFree = true → RangeFreeable m r v turns)
    (hloop : unmapLoop r doFree turns m (v * PGSIZE) = .ok m') :
    Table m' r ∧ ∀ w < maxPages, lookup m' r w = unmapRange (lookup m r) v turns w := by
  induction turns generalizing m v with
  | zero =>
    cases hloop
    exact ⟨h, fun w _ => (if_neg (by omega)).symm⟩
  | succ turns ih =>
    obtain ⟨e, m₁, he, hloop1, h1, hlook, htable, hfree1⟩ := unmap_one h (by omega) hloop
      fun hdo e he => (hfree hdo v e le_rfl (by omega) he).1
    obtain ⟨h', hlook'⟩ := ih (v := v + 1) h1 (by omega) (fun hdo w e' hvw hw he' => by
      rw [hlook w (by omega), if_neg (by omega)] at he'
      obtain ⟨⟨hnot, htab⟩, huniq⟩ := hfree hdo w e' (by omega) (by omega) he'
      refine ⟨⟨?_, fun ht => htab ((htable _).1 ht)⟩, fun w' e'' hvw' hw' he'' heq => ?_⟩
      · rw [hfree1, if_pos hdo, mem_cons, not_or]
        refine ⟨fun heq => ?_, hnot⟩
        have := huniq v e le_rfl (by omega) he heq.symm
        omega
      · rw [hlook w' (by omega), if_neg (by omega)] at he''
        exact huniq w' e'' (by omega) (by omega) he'' heq) hloop1
    refine ⟨h', fun w hw => ?_⟩
    rw [hlook' w hw]
    exact unmapRange_succ _ _ v turns (hlook w hw)

/-! ### Sequences of calls -/

inductive TableAct
  | mappages (va size ppn : ℕ) (perm : Flags) (ok : Bool) -- `mappages`; `ok` if it returns 0
  | uvmunmap (va npages : ℕ) (doFree : Bool)
  | uvmclear (va : ℕ)
  | other (m : Mem) -- Memory as others leave it

/-- A call that does not panic. -/
def tableStep (r : ℕ) (m : Mem) : TableAct → Option Mem
  | .mappages va size ppn perm ok =>
    (mappages m r va size ppn perm).toOption.bind fun res =>
      if ok = decide (res.1 = 0) then some res.2 else none
  | .uvmunmap va npages doFree => (uvmunmap m r va npages doFree).toOption
  | .uvmclear va => (uvmclear m r va).toOption
  | .other m' => some m'

/-- Pages to be mapped are not mapped, and addresses are below `MAXVA`.  Page-table pages stay
distinct from all other pages in use: what is freed, by the call or by others, is not one of them,
and nothing is freed twice. -/
def CarefulTable (r : ℕ) (m : Mem) : TableAct → Prop
  | .mappages va size ppn _ _ =>
    0 < size ∧ va + size ≤ MAXVA.toNat ∧ ppn + numPages va size ≤ 2 ^ 52 ∧
      ∀ v, va / PGSIZE ≤ v → v < va / PGSIZE + numPages va size → lookup m r v = none
  | .uvmunmap va npages doFree =>
    va + npages * PGSIZE ≤ MAXVA.toNat ∧
      (doFree = true → RangeFreeable m r (va / PGSIZE) npages)
  | .uvmclear _ => True
  | .other m' =>
    (∀ p, IsTable m r p → m'.word p = m.word p) ∧ m'.kend = m.kend ∧ m'.free.Nodup ∧
      ∀ p ∈ m'.free, (m.kend ≤ p ∧ p < PHYSTOP) ∧ ¬ IsTable m r p

/-- The pages that a call names. -/
def TableAct.Touches : TableAct → ℕ → Prop
  | .mappages va size _ _ _, v => va / PGSIZE ≤ v ∧ v < va / PGSIZE + numPages va size
  | .uvmunmap va npages _, v => va / PGSIZE ≤ v ∧ v < va / PGSIZE + npages
  | .uvmclear va, v => v = va / PGSIZE
  | .other _, _ => False

/-- One call on partial maps.  A `mappages` that fails has mapped some of its pages. -/
inductive MapStep : (ℕ → Option Pte) → TableAct → (ℕ → Option Pte) → Prop
  | mappages {f : ℕ → Option Pte} {va size ppn n : ℕ} {perm : Flags} {ok : Bool} :
      n ≤ numPages va size → (ok = true ↔ n = numPages va size) →
      MapStep f (.mappages va size ppn perm ok) (mapRange f (va / PGSIZE) n ppn perm)
  | uvmunmap {f : ℕ → Option Pte} {va npages : ℕ} {doFree : Bool} :
      MapStep f (.uvmunmap va npages doFree) (unmapRange f (va / PGSIZE) npages)
  | uvmclear {f : ℕ → Option Pte} {va : ℕ} :
      MapStep f (.uvmclear va) (clearUser f (va / PGSIZE))
  | other {f : ℕ → Option Pte} {m : Mem} : MapStep f (.other m) f

/-- What a sequence of calls makes of the empty map, last call first. -/
inductive MapRun : List TableAct → (ℕ → Option Pte) → Prop
  | nil : MapRun [] fun _ => none
  | cons {tr : List TableAct} {a : TableAct} {f g : ℕ → Option Pte} :
      MapRun tr f → MapStep f a g → MapRun (a :: tr) g

theorem MapStep.of_not_touches {f g : ℕ → Option Pte} {a : TableAct} (h : MapStep f a g)
    (hv : ¬ a.Touches v) : g v = f v := by
  cases h with
  | mappages hn _ =>
    refine if_neg fun hmem => hv ⟨hmem.1, ?_⟩
    omega
  | uvmunmap | uvmclear => exact if_neg hv
  | other => rfl

/-- Only the values on the pages below `MAXVA` matter. -/
theorem MapStep.congr {f g f' : ℕ → Option Pte} {a : TableAct} (h : MapStep f a g)
    (hf : ∀ v < maxPages, f' v = f v) : ∃ g', MapStep f' a g' ∧ ∀ v < maxPages, g' v = g v := by
  cases h with
  | mappages hn hok =>
    refine ⟨_, .mappages hn hok, fun v hv => ?_⟩
    unfold mapRange
    rw [hf v hv]
  | uvmunmap =>
    refine ⟨_, .uvmunmap, fun v hv => ?_⟩
    unfold unmapRange
    rw [hf v hv]
  | uvmclear =>
    refine ⟨_, .uvmclear, fun v hv => ?_⟩
    unfold clearUser
    rw [hf v hv]
  | other => exact ⟨_, .other, hf⟩

theorem valid_clear (he : e.valid = false) :
    ({ e with flags := e.flags &&& ~~~PTE_U } : Pte).valid = false := by
  unfold valid at he ⊢
  simp only [ne_eq, decide_not, Bool.not_eq_false', decide_eq_true_eq] at he ⊢
  rw [BitVec.and_assoc, BitVec.and_comm (~~~PTE_U), ← BitVec.and_assoc, he]
  rfl

theorem valid_clear_of_valid (he : e.valid = true) :
    ({ e with flags := e.flags &&& ~~~PTE_U } : Pte).valid = true := by
  have hmask : ~~~PTE_U &&& PTE_V = PTE_V := by decide
  unfold valid at he ⊢
  simp only [ne_eq, decide_not, Bool.not_eq_true', decide_eq_false_iff_not] at he ⊢
  rwa [BitVec.and_assoc, hmask]

theorem page_path (va : ℕ) : pathOf va = pathOf (va / PGSIZE * PGSIZE) := by
  have hPG : PGSIZE = 2 ^ 12 := rfl
  have hpx : ∀ level, px level va = px level (va / PGSIZE * PGSIZE) := fun level => by
    rw [px_mul, px, Nat.pow_add, ← Nat.div_div_eq_div_mul, hPG]
  simp only [pathOf, hpx]

/-- Page of an address below `MAXVA`. -/
theorem page_lt (hva : va < MAXVA.toNat) : va / PGSIZE < maxPages := by
  rw [MAXVA_eq] at hva
  exact Nat.div_lt_of_lt_mul (by rwa [Nat.mul_comm])

/-- Each call does to the table what it says on partial maps. -/
theorem Table.step {a : TableAct} (h : Table m r) (hc : CarefulTable r m a)
    (hs : tableStep r m a = some m') :
    Table m' r ∧ ∃ g, MapStep (lookup m r) a g ∧ ∀ v < maxPages, lookup m' r v = g v := by
  cases a with
  | mappages va size ppn perm ok =>
    obtain ⟨hsize, hlt, hppn, hnew⟩ := hc
    obtain ⟨ret, m₁, n, hloop, h₁, hn, hret, hlook⟩ :=
      h.mapLoop perm (numPages_le hsize hlt) hppn hnew
    rw [tableStep, mappages_eq hsize hlt, hloop] at hs
    simp only [Except.toOption, bind_some] at hs
    split_ifs at hs with hok
    cases hs
    refine ⟨h₁, _, .mappages hn ?_, hlook⟩
    rw [hok, decide_eq_true_iff]
    exact hret
  | uvmunmap va npages doFree =>
    obtain ⟨hlt, hfree⟩ := hc
    rw [tableStep, uvmunmap] at hs
    split_ifs at hs with halign
    · cases hs
    · have hPG : PGSIZE = 4096 := rfl
      have hva : va = va / PGSIZE * PGSIZE := by
        rw [hPG] at halign ⊢
        omega
      have hlt' := hlt
      rw [MAXVA_toNat] at hlt'
      have hturns : ((va + npages * PGSIZE) % 2 ^ 64 - va) / PGSIZE = npages := by
        rw [Nat.mod_eq_of_lt (by omega), Nat.add_sub_cancel_left,
          Nat.mul_div_cancel _ (by decide)]
      have hmax : va / PGSIZE + npages ≤ maxPages := by
        have hle : (va / PGSIZE + npages) * PGSIZE ≤ maxPages * PGSIZE := by
          rw [Nat.add_mul, ← hva, ← MAXVA_eq]
          exact hlt
        exact Nat.le_of_mul_le_mul_right hle (by decide)
      rw [hturns] at hs
      cases hloop : unmapLoop r doFree npages m va with
      | error x =>
        rw [hloop] at hs
        cases hs
      | ok m₁ =>
        rw [hloop] at hs
        cases hs
        rw [hva] at hloop
        obtain ⟨h', hlook⟩ := unmapLoop_spec h hmax hfree hloop
        exact ⟨h', _, .uvmunmap, hlook⟩
  | uvmclear va =>
    rw [tableStep, uvmclear] at hs
    by_cases hva : va < MAXVA.toNat
    swap
    · rw [walk, if_pos (by omega)] at hs
      cases hs
    rw [walk_look hva, ok_bind] at hs
    have hpath := page_path va
    simp only [pathOf, cons.injEq, and_true] at hpath
    obtain ⟨h0, h1, h2⟩ := hpath
    have hv := page_lt hva
    cases hp : node m r (tableOf va) with
    | none =>
      rw [hp] at hs
      cases hs
    | some p =>
      rw [hp] at hs
      cases hs
      rw [tableOf, h1, h2] at hp
      rw [h0]
      set e := m.word p (px 0 (va / PGSIZE * PGSIZE)) with he
      have hlook : lookup m r (va / PGSIZE) = if e.valid then some e else none := by
        rw [lookup_eq hv, pathOf, entry, hp]
        rfl
      refine ⟨?_, _, .uvmclear, fun w hw => ?_⟩
      · refine h.set_leaf hv hp fun hval => ?_
        by_cases hval' : e.valid = true
        · rw [if_pos hval', lookup_eq hv] at hlook
          exact (h.only _ e rfl hlook).1
        · rw [valid_clear (by simpa using hval')] at hval
          cases hval
      · rw [h.lookup_set hv hp hw, clearUser]
        by_cases hwv : w = va / PGSIZE
        · rw [if_pos hwv, if_pos hwv, hwv, hlook]
          by_cases hval : e.valid = true
          · rw [if_pos hval, if_pos (valid_clear_of_valid hval)]
            rfl
          · rw [if_neg hval, if_neg]
            · rfl
            · rw [valid_clear (by simpa using hval)]
              exact Bool.false_ne_true
        · rw [if_neg hwv, if_neg hwv]
  | other m₁ =>
    obtain ⟨hword, hkend, hnodup, hfree⟩ := hc
    cases hs
    obtain ⟨h', hentry⟩ := h.congr hword hkend hnodup hfree
    refine ⟨h', _, .other, fun v hv => ?_⟩
    rw [lookup_eq hv, lookup_eq hv, hentry _ (by simp [pathOf])]

theorem table_create {m0 : Mem} (hnodup : m0.free.Nodup)
    (hman : ∀ p ∈ m0.free, m0.kend ≤ p ∧ p < PHYSTOP) (hc : uvmcreate m0 = (some r, m)) :
    Table m r ∧ ∀ v < maxPages, lookup m r v = none := by
  unfold uvmcreate at hc
  rcases kalloc_cases m0 with ⟨-, hk⟩ | ⟨n, m₁, hk, ht⟩
  · rw [hk] at hc
    cases hc
  rw [hk] at hc
  cases hc
  have ht' := ht.update fun _ => fill 0
  have hinvalid : ∀ j, ((m₁.memset r 0).word r j).valid = false := fun j => by
    simp [Mem.memset, valid, fill_zero, zero]
  have hnode : ∀ P p, node (m₁.memset r 0) r P = some p → P = [] ∧ p = r := by
    intro P
    induction P with
    | nil =>
      intro p hp
      exact ⟨rfl, (some.inj hp).symm⟩
    | cons i P ih =>
      intro p hp
      obtain ⟨q, hq, hval, -⟩ := node_cons_eq_some.1 hp
      rw [(ih q hq).2, hinvalid] at hval
      cases hval
  have hentry : ∀ Q, entry (m₁.memset r 0) r Q = none := by
    intro Q
    cases Q with
    | nil => rfl
    | cons k Q =>
      cases he : entry (m₁.memset r 0) r (k :: Q) with
      | none => rfl
      | some e =>
        obtain ⟨q, hq, hval, -⟩ := entry_cons_eq_some.1 he
        rw [(hnode Q q hq).2, hinvalid] at hval
        cases hval
  have hfree : ∀ p ∈ (m₁.memset r 0).free, p ∈ m0.free := fun p hp => by
    rw [ht.free]
    exact mem_cons_of_mem r hp
  have hkend : (m₁.memset r 0).kend = m0.kend := ht.within.kend
  refine ⟨⟨⟨?_, ?_, ?_, ?_⟩, ?_, ?_⟩, fun v hv => by rw [lookup_eq hv, hentry]⟩
  · rw [ht.free] at hnodup
    exact (nodup_cons.1 hnodup).2
  · intro P Q p _ _ hp hq
    rw [(hnode P p hp).1, (hnode Q p hq).1]
  · intro P p _ hp
    rw [(hnode P p hp).2]
    exact ht.not_free hnodup
  · intro P p i _ hp hval
    rw [(hnode P p hp).2, hinvalid] at hval
    cases hval
  · rintro p (hp | ⟨P, -, hp⟩)
    · rw [hkend]
      exact hman p (hfree p hp)
    · rw [hkend, (hnode P p hp).2]
      exact hman r ht.mem
  · intro Q e _ he
    rw [hentry] at he
    cases he

/-- `freewalk` on a table in which nothing is mapped. -/
theorem Table.freewalk (h : Table m r) (hnone : ∀ v < maxPages, lookup m r v = none) :
    ∃ m' l, Vm.freewalk 3 m r = .ok m' ∧ m'.free = l ++ m.free ∧ l.Nodup ∧
      ∀ p, p ∈ l ↔ IsTable m r p := by
  have hbare : Bare m r 2 := by
    refine ⟨fun P Q q hP hQ hp hq => h.distinct.unique hP hQ hp hq, h.distinct.interior, ?_,
      fun P q hP hq => h.managed q (.inr ⟨P, hP, hq⟩)⟩
    intro P q i hP hq
    by_contra hval
    have he := entry_cons_eq_some.2 ⟨q, hq, by simpa using hval, rfl⟩
    obtain ⟨-, v, hv, hpath⟩ := h.only (i :: P) _ (by rw [length_cons, hP]) he
    rw [hpath, ← lookup_eq hv, hnone v hv] at he
    cases he
  obtain ⟨m', l, hf, hfree, hl, hmem, -⟩ := freewalk_ok hbare
  exact ⟨m', l, hf, hfree, hl, hmem⟩

/-- **Page tables refine partial maps.**  `walk` finds what the sequence of calls has mapped. -/
theorem page_table_refines_map {m₀ m₁ : Mem} {tr : List TableAct} (hnodup : m₀.free.Nodup)
    (hman : ∀ p ∈ m₀.free, m₀.kend ≤ p ∧ p < PHYSTOP) (hc : uvmcreate m₀ = (some r, m₁))
    (h : Reach (tableStep r) (CarefulTable r) m₁ tr m) :
    (∃ f, MapRun tr f ∧ ∀ va < MAXVA.toNat, ∃ res, walk m r va false = .ok (res, m) ∧
      (f (va / PGSIZE) = none → ∀ p k, res = some (p, k) → (m.word p k).valid = false) ∧
      ∀ e, f (va / PGSIZE) = some e → ∃ p k, res = some (p, k) ∧ m.word p k = e ∧
        e.valid = true ∧ (PTE2PA e.toWord).toNat = e.ppn * PGSIZE ∧
        (PTE_FLAGS e.toWord).toNat = e.flags.toNat) ∧
    (∀ a m', CarefulTable r m a → tableStep r m a = some m' →
      ∀ v < maxPages, ¬ a.Touches v → lookup m' r v = lookup m r v) ∧
    ((∀ v < maxPages, lookup m r v = none) →
      ∃ m' l, freewalk 3 m r = .ok m' ∧ m'.free = l ++ m.free ∧ l.Nodup ∧
        ∀ p, p ∈ l ↔ IsTable m r p) := by
  obtain ⟨ht, f, hf, hlook⟩ : Table m r ∧ ∃ f, MapRun tr f ∧
      ∀ v < maxPages, lookup m r v = f v := by
    refine h.invariant (I := fun tr m => Table m r ∧ ∃ f, MapRun tr f ∧
      ∀ v < maxPages, lookup m r v = f v) ?_ ?_
    · obtain ⟨ht, hnone⟩ := table_create hnodup hman hc
      exact ⟨ht, _, .nil, hnone⟩
    · rintro tr m a m' ⟨ht, f, hf, hlook⟩ hcare hs
      obtain ⟨ht', g, hstep, hlook'⟩ := ht.step hcare hs
      obtain ⟨g', hstep', hg⟩ := hstep.congr fun v hv => (hlook v hv).symm
      exact ⟨ht', g', hf.cons hstep', fun v hv => (hlook' v hv).trans (hg v hv).symm⟩
  refine ⟨⟨f, hf, fun va hva => ?_⟩, fun a m' hcare hs v hv hnot => ?_, ht.freewalk⟩
  · have hv := page_lt hva
    have hentry : f (va / PGSIZE) = entry m r (pathOf va) := by
      rw [← hlook _ hv, lookup_eq hv, ← page_path]
    refine ⟨_, walk_look hva, fun hnone p k hres => ?_, fun e he => ?_⟩
    · obtain ⟨q, hq, heq⟩ := map_eq_some_iff.1 hres
      cases heq
      by_contra hval
      rw [hentry] at hnone
      cases hnone.symm.trans (entry_cons_eq_some.2 ⟨p, hq, by simpa using hval, rfl⟩)
    · rw [hentry] at he
      obtain ⟨p, hp, hval, hword⟩ := entry_cons_eq_some.1 he
      have hsmall := (ht.only _ e rfl he).1
      refine ⟨p, px 0 va, by rw [hp]; rfl, hword, hword ▸ hval, e.pa_toWord hsmall,
        e.flags_toWord hsmall⟩
  · obtain ⟨-, g, hstep, hlook'⟩ := ht.step hcare hs
    rw [hlook' v hv]
    exact hstep.of_not_touches hnot

/-- Memory with six free pages. -/
def sixPages : Mem where
  kend := PHYSTOP - 16
  trampoline := 0
  free := [PHYSTOP - 1, PHYSTOP - 2, PHYSTOP - 3, PHYSTOP - 4, PHYSTOP - 5, PHYSTOP - 6]
  word _ _ := .zero

/-- Two pages are mapped, with an address that is not aligned, and the first is unmapped. -/
theorem page_table_refines_map_two : ∃ m,
    Reach (tableStep (PHYSTOP - 1)) (CarefulTable (PHYSTOP - 1)) (uvmcreate sixPages).2
      [.uvmunmap 0x1000 1 false, .mappages 0x1004 0x1000 7 (PTE_R ||| PTE_U) true] m ∧
    lookup m (PHYSTOP - 1) 1 = none ∧
    lookup m (PHYSTOP - 1) 2 = some ⟨8, PTE_V ||| PTE_R ||| PTE_U⟩ ∧
    (PTE2PA (⟨8, PTE_V ||| PTE_R ||| PTE_U⟩ : Pte).toWord).toNat = 0x8000 ∧
    ∃ f, MapRun [.uvmunmap 0x1000 1 false, .mappages 0x1004 0x1000 7 (PTE_R ||| PTE_U) true] f ∧
      ∃ res, walk m (PHYSTOP - 1) 0x1fff false = .ok (res, m) := by
  obtain ⟨m, hm, heq⟩ : ∃ m ∈ run (tableStep (PHYSTOP - 1)) (uvmcreate sixPages).2
      [.mappages 0x1004 0x1000 7 (PTE_R ||| PTE_U) true, .uvmunmap 0x1000 1 false],
      lookup m (PHYSTOP - 1) 1 = none ∧
      lookup m (PHYSTOP - 1) 2 = some ⟨8, PTE_V ||| PTE_R ||| PTE_U⟩ := by decide +kernel
  obtain ⟨m₁, hm₁, hm₂⟩ := bind_eq_some_iff.1 hm
  obtain ⟨m₂, hm₂, hm₃⟩ := bind_eq_some_iff.1 hm₂
  cases hm₃
  have hnew : ∀ v, 0x1004 / PGSIZE ≤ v → v < 0x1004 / PGSIZE + numPages 0x1004 0x1000 →
      lookup (uvmcreate sixPages).2 (PHYSTOP - 1) v = none := by
    intro v h1 h2
    have hle : 1 ≤ v := h1
    have hlt : v < 3 := h2
    have hcase : v = 1 ∨ v = 2 := by omega
    rcases hcase with rfl | rfl <;> decide +kernel
  have hreach := (Reach.nil.cons
    (G := CarefulTable (PHYSTOP - 1)) (by exact ⟨by decide, by decide, by decide, hnew⟩) hm₁).cons
    (by exact ⟨by decide, nofun⟩) hm₂
  refine ⟨m, hreach, heq.1, heq.2, by decide +kernel, ?_⟩
  have hnodup : sixPages.free.Nodup := by decide
  obtain ⟨⟨f, hf, hwalk⟩, -⟩ := page_table_refines_map hnodup (by decide) rfl hreach
  obtain ⟨res, hres, -⟩ := hwalk 0x1fff (by decide)
  exact ⟨f, hf, res, hres⟩

end Xv6.Vm
