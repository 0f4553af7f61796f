import Xv6.Vm.Tree
import Xv6.Lib.Outcome

/-!
# What the page-table functions do

`kalloc` and `kfree`, then `walk`, `mappages`, `uvmunmap` and `freewalk` on a tree in order: each
keeps the tree in order, writes only to free pages and to pages of the tree, and no page gets lost:
the free pages and those of the tree are together the same as before.
-/

namespace Xv6.Vm

open Function Outcome List Option Pte TableOk Mem

variable {m m' m'' m₁ : Mem} {r p q n va : ℕ} {i k : Idx} {e : Pte} {P Q : List Idx} {R : Set ℕ}

theorem MAXVA_toNat : MAXVA.toNat = 2 ^ 38 := by decide

theorem valid_or_PTE_V (n : ℕ) (perm : Flags) : (⟨n, perm ||| PTE_V⟩ : Pte).valid = true := by
  have hself : (perm ||| PTE_V) &&& PTE_V = PTE_V := by
    ext j hj
    simp only [BitVec.getElem_and, BitVec.getElem_or]
    cases perm[j] <;> cases PTE_V[j] <;> rfl
  simp only [valid, hself]
  decide

theorem valid_PTE_V (n : ℕ) : (⟨n, PTE_V⟩ : Pte).valid = true := valid_or_PTE_V n 0

/-! ### `kalloc` and `kfree` -/

/-- Page `n` has been taken from the free list. -/
structure Taken (m m₁ : Mem) (n : ℕ) : Prop where
  free : m.free = n :: m₁.free
  within : Within m m₁ {n}

theorem kalloc_cases (m : Mem) : m.free = [] ∧ m.kalloc = (none, m) ∨
    ∃ n m₁, m.kalloc = (some n, m₁) ∧ Taken m m₁ n := by
  unfold kalloc
  cases hf : m.free with
  | nil => exact .inl ⟨rfl, rfl⟩
  | cons n ps => exact .inr ⟨n, _, rfl, hf, .update (Set.mem_singleton n) rfl rfl rfl⟩

namespace Taken

theorem update (h : Taken m m₁ n) (f : Idx → Pte) :
    Taken m { m₁ with word := update m₁.word n f } n :=
  ⟨h.free, h.within.trans (.update (Set.mem_singleton n) rfl rfl rfl)⟩

theorem mem (h : Taken m m₁ n) : n ∈ m.free := by
  rw [h.free]
  exact mem_cons_self

theorem not_free (h : Taken m m₁ n) (hn : m.free.Nodup) : n ∉ m₁.free := by
  rw [h.free] at hn
  exact (nodup_cons.1 hn).1

theorem word (h : Taken m m₁ n) (hp : p ≠ n) : m₁.word p = m.word p := h.within.word p hp

section

variable (h : Taken m m₁ n) (hd : Distinct m r)

include h hd

theorem node_word (P : List Idx) (p : ℕ) (hP : P.length ≤ 2) (hp : node m r P = some p) :
    m₁.word p = m.word p :=
  h.word fun heq => hd.not_free hP hp (heq ▸ h.mem)

theorem node_eq (hP : P.length ≤ 3) : node m₁ r P = node m r P :=
  node_congr (h.node_word hd) hP

theorem entry_eq (hQ : Q.length ≤ 3) : entry m₁ r Q = entry m r Q :=
  entry_congr (h.node_word hd) hQ

theorem distinct : Distinct m₁ r where
  nodup := by
    have := hd.nodup
    rw [h.free] at this
    exact (nodup_cons.1 this).2
  unique hP hQ hp hq := by
    rw [h.node_eq hd (by omega)] at hp hq
    exact hd.unique hP hQ hp hq
  not_free hP hp hmem := by
    rw [h.node_eq hd (by omega)] at hp
    refine hd.not_free hP hp ?_
    rw [h.free]
    exact mem_cons_of_mem n hmem
  interior P p i hP hp hv := by
    rw [h.node_eq hd (by omega)] at hp
    rw [h.node_word hd P p hP.le hp] at hv ⊢
    exact hd.interior P p i hP hp hv

end

section

variable (h : Taken m m₁ n) (hok : TableOk m r)

include h hok

theorem tableOwn_eq : tableOwn m₁ r = tableOwn m r := tableOwn_congr (h.node_word hok.distinct)

theorem fresh (P : List Idx) : tableOwn m₁ r P ≠ some n := by
  rw [h.tableOwn_eq hok]
  exact fun hP => hok.sound.good P n hP h.mem

theorem ok : TableOk m₁ r where
  nodup := (h.distinct hok.distinct).nodup
  sound := by
    rw [h.tableOwn_eq hok]
    refine hok.sound.mono (fun _ _ hq => hq) fun _ q _ hq hmem => hq ?_
    rw [h.free]
    exact mem_cons_of_mem n hmem
  interior := (h.distinct hok.distinct).interior

end

end Taken

/-- Page `n` has been put on the free list. -/
structure Given (m m₁ : Mem) (n : ℕ) : Prop where
  free : m₁.free = n :: m.free
  within : Within m m₁ {n}

theorem kfree_ok (h : m.kend ≤ n ∧ n < PHYSTOP) : ∃ m₁, m.kfree n = .ok m₁ ∧ Given m m₁ n := by
  unfold kfree
  rw [if_pos h]
  exact ⟨_, rfl, rfl, .update (Set.mem_singleton n) rfl rfl rfl⟩

theorem Given.ok (h : Given m m₁ n) (hok : TableOk m r) (hn : n ∉ m.free)
    (hown : ∀ P, tableOwn m r P ≠ some n) :
    TableOk m₁ r ∧ tableOwn m₁ r = tableOwn m r ∧
      ∀ Q, Q.length ≤ 3 → entry m₁ r Q = entry m r Q := by
  have hword : ∀ P p, P.length ≤ 2 → node m r P = some p → m₁.word p = m.word p := by
    intro P p hP hp
    refine h.within.word p ?_
    rintro rfl
    exact hown P ((tableOwn_of_le hP).trans hp)
  have hsame := tableOwn_congr hword
  refine ⟨⟨?_, ?_, fun P p i hP hp hv => ?_⟩, hsame, fun Q hQ => entry_congr hword hQ⟩
  · rw [h.free]
    exact nodup_cons.2 ⟨hn, hok.nodup⟩
  · rw [hsame]
    refine hok.sound.mono (fun _ _ hq => hq) fun P q hP hq hmem => ?_
    rw [h.free] at hmem
    rcases mem_cons.1 hmem with rfl | hmem
    · exact hown P hP
    · exact hq hmem
  · rw [node_congr hword (by omega)] at hp
    rw [hword P p hP.le hp] at hv ⊢
    exact hok.interior P p i hP hp hv

/-! ### Page-table pages are added -/

/-- The tree may have new page-table pages; what is mapped is as before. -/
structure Grown (m m' : Mem) (r : ℕ) : Prop where
  ok : TableOk m' r
  within : Within m m' (region m r)
  region : region m' r = region m r
  entry : ∀ Q, Q.length = 3 → entry m' r Q = entry m r Q

theorem Grown.refl (h : TableOk m r) : Grown m m r :=
  ⟨h, .refl m _, rfl, fun _ _ => rfl⟩

theorem Grown.trans (h : Grown m m' r) (h' : Grown m' m'' r) : Grown m m'' r :=
  ⟨h'.ok, h.within.trans (h.region ▸ h'.within), h'.region.trans h.region,
    fun Q hQ => (h'.entry Q hQ).trans (h.entry Q hQ)⟩

theorem node_none_of_invalid (hp : node m r P = some p) (hi : (m.word p i).valid = false) :
    node m r (i :: P) = none := by
  rw [node, hp, bind_some, Pte.next, hi]
  rfl

section

variable (hd : Distinct m r) (ht : Taken m m₁ n) (hz : ∀ j, (m₁.word n j).valid = false)
  (hP : P.length < 2) (hp : node m r P = some p) (hi : (m.word p i).valid = false)

include hd ht hz hP hp hi

theorem link_empty (j : Idx) : ((m₁.set p i ⟨n, PTE_V⟩).word n j).valid = false := by
  have hnp : n ≠ p := by
    rintro rfl
    exact hd.not_free hP.le hp ht.mem
  rw [word_set, if_neg fun h => hnp h.1]
  exact hz j

/-- `walk` adds an empty page-table page, where nothing was before. -/
theorem link_node (hQ : Q.length ≤ 3) : node (m₁.set p i ⟨n, PTE_V⟩) r Q =
    if Q = i :: P then some n else node m r Q := by
  have hp1 : node m₁ r P = some p := (ht.node_eq hd (by omega)).trans hp
  have hnone : node m₁ r (i :: P) = none :=
    node_none_of_invalid hp1 (by rw [ht.node_word hd P p hP.le hp, hi])
  have hnext : (⟨n, PTE_V⟩ : Pte).next = some n := if_pos (valid_PTE_V n)
  rw [← ht.node_eq hd hQ, ← hnext]
  refine node_set (ht.distinct hd) hP.le hp1 (fun _ j => ⟨?_, ?_⟩) hQ
  · rw [hnext, bind_some, Pte.next, link_empty hd ht hz hP hp hi]
    rfl
  · rw [node, hnone]
    rfl

theorem link_entry (hQ : Q.length = 3) : entry (m₁.set p i ⟨n, PTE_V⟩) r Q = entry m r Q := by
  cases Q with
  | nil => cases hQ
  | cons k Q =>
    rw [length_cons] at hQ
    rw [entry, entry, link_node hd ht hz hP hp hi (by omega)]
    by_cases hQP : Q = i :: P
    · rw [if_pos hQP, hQP, node_none_of_invalid hp hi]
      simp [link_empty hd ht hz hP hp hi]
    · rw [if_neg hQP]
      cases hq : node m r Q with
      | none => rfl
      | some q =>
        have hqp : q ≠ p := by
          rintro rfl
          have := hd.unique (by omega) hP.le hq hp
          rw [this] at hQ
          omega
        have hword := ht.node_word hd Q q (by omega) hq
        simp [word_set, hqp, hword]

theorem link_distinct : Distinct (m₁.set p i ⟨n, PTE_V⟩) r := by
  have hd1 := ht.distinct hd
  have hfresh : ∀ {Q}, Q.length ≤ 2 → node m r Q ≠ some n := fun hQ hq => hd.not_free hQ hq ht.mem
  refine ⟨hd1.nodup, fun {Q Q' q} hQ hQ' hq hq' => ?_, fun {Q q} hQ hq => ?_,
    fun Q q j hQ hq hv => ?_⟩
  · rw [link_node hd ht hz hP hp hi (by omega)] at hq hq'
    split_ifs at hq hq' with h1 h2 h2
    · rw [h1, h2]
    · exact absurd (hq'.trans hq.symm) (hfresh hQ')
    · exact absurd (hq.trans hq'.symm) (hfresh hQ)
    · exact hd.unique hQ hQ' hq hq'
  · rw [link_node hd ht hz hP hp hi (by omega)] at hq
    split_ifs at hq with h1
    · cases hq
      exact ht.not_free hd.nodup
    · refine hd1.not_free hQ ?_
      rwa [ht.node_eq hd (by omega)]
  · -- the new entry has no other flag, and the new page is empty
    rw [link_node hd ht hz hP hp hi (by omega)] at hq
    split_ifs at hq with heq
    · cases hq
      rw [link_empty hd ht hz hP hp hi] at hv
      cases hv
    · rw [word_set] at hv ⊢
      split_ifs at hv ⊢ with hset
      · rfl
      · refine hd1.interior Q q j hQ ?_ hv
        rwa [ht.node_eq hd (by omega)]

end

/-- `walk` adds a page-table page. -/
theorem grown_link (hok : TableOk m r) (ht : Taken m m₁ n) (hz : ∀ j, (m₁.word n j).valid = false)
    (hP : P.length < 2) (hp : node m r P = some p) (hi : (m.word p i).valid = false) :
    Grown m (m₁.set p i ⟨n, PTE_V⟩) r := by
  have hd := hok.distinct
  have hd' := link_distinct hd ht hz hP hp hi
  have hlen : (i :: P).length ≤ 2 := by rw [length_cons]; omega
  have hown : tableOwn (m₁.set p i ⟨n, PTE_V⟩) r =
      update (tableOwn m r) (i :: P) (some n) := by
    funext Q
    by_cases hQ : Q = i :: P
    · subst hQ
      rw [update_self, tableOwn_of_le hlen, link_node hd ht hz hP hp hi (by omega),
        if_pos rfl]
    · rw [update_of_ne hQ]
      unfold tableOwn
      split_ifs with hlen
      · have hle : Q.length ≤ 3 := by
          rcases hlen with hlen | hlen
          · omega
          · exact hlen.1.le
        rw [link_node hd ht hz hP hp hi hle, if_neg hQ]
      · rfl
  refine ⟨⟨hd'.nodup, ?_, hd'.interior⟩, ?_, ?_, fun Q hQ => link_entry hd ht hz hP hp hi hQ⟩
  · have hsound := (ht.ok hok).sound
    rw [ht.tableOwn_eq hok] at hsound
    have hfresh := ht.fresh hok
    rw [ht.tableOwn_eq hok] at hfresh
    rw [hown]
    exact hsound.grant hfresh (fun _ hc => hc) (ht.not_free hok.nodup) _
  · refine (ht.within.mono ?_).trans (.set (node_mem_region hP.le hp) i _)
    rintro _ rfl
    exact .inl ht.mem
  · ext x
    simp only [mem_region, hown, ht.free, mem_cons]
    constructor
    · rintro (hx | ⟨Q, hQ⟩)
      · exact .inl (.inr hx)
      · by_cases hQP : Q = i :: P
        · rw [hQP, update_self] at hQ
          exact .inl (.inl (some.inj hQ).symm)
        · rw [update_of_ne hQP] at hQ
          exact .inr ⟨Q, hQ⟩
    · rintro ((rfl | hx) | ⟨Q, hQ⟩)
      · exact .inr ⟨i :: P, update_self ..⟩
      · exact .inl hx
      · refine .inr ⟨Q, ?_⟩
        rw [update_of_ne]
        · exact hQ
        · rintro rfl
          rw [tableOwn_of_le hlen, node_none_of_invalid hp hi] at hQ
          cases hQ

/-! ### `walk` -/

theorem fill_zero : fill 0 = .zero := by decide

/-- A property of memory that is kept when a page-table page is added. -/
def LinkInvariant (r : ℕ) (I : Mem → Prop) : Prop :=
  ∀ {m m₁ n P p i}, I m → Taken m m₁ n → (∀ j, (m₁.word n j).valid = false) → P.length < 2 →
    node m r P = some p → (m.word p i).valid = false → I (m₁.set p i ⟨n, PTE_V⟩)

/-- The loop of `walk` with allocation keeps every such property. -/
theorem walkFrom_alloc {I : Mem → Prop} (hI : ∀ m, I m → Distinct m r)
    (hlink : LinkInvariant r I) (is : List Idx) (hm : I m) (hlen : P.length + is.length = 2)
    (hp : node m r P = some p) :
    I (walkFrom true is m p).2 ∧
      ((∃ q, (walkFrom true is m p).1 = some q ∧
        node (walkFrom true is m p).2 r (is.reverse ++ P) = some q) ∨
      (walkFrom true is m p).1 = none) := by
  induction is generalizing m p P with
  | nil => exact ⟨hm, .inl ⟨p, rfl, hp⟩⟩
  | cons i is ih =>
    rw [length_cons] at hlen
    have hlen' : (i :: P).length + is.length = 2 := by rw [length_cons]; omega
    rw [reverse_cons, append_assoc, singleton_append, walkFrom]
    by_cases hv : (m.word p i).valid = true
    · rw [if_pos hv]
      exact ih hm hlen' (node_cons_eq_some.2 ⟨p, hp, hv, rfl⟩)
    · rw [if_neg hv, if_pos rfl]
      rcases kalloc_cases m with ⟨-, hk⟩ | ⟨n, m₁, hk, ht⟩
      · rw [hk]
        exact ⟨hm, .inr rfl⟩
      · rw [hk]
        have ht' := ht.update fun _ => fill 0
        have hz : ∀ j, (update m₁.word n (fun _ => fill 0) n j).valid = false :=
          fun j => by simp [valid, fill_zero, zero]
        have hv' : (m.word p i).valid = false := by simpa using hv
        have hP : P.length < 2 := by omega
        have hn := link_node (Q := i :: P) (hI m hm) ht' hz hP hp hv' (by omega)
        exact ih (hlink hm ht' hz hP hp hv') hlen' (hn.trans (if_pos rfl))

/-- `walk` without allocation follows the path. -/
theorem walkFrom_look {is : List Idx} (hp : node m r P = some p) :
    walkFrom false is m p = (node m r (is.reverse ++ P), m) := by
  induction is generalizing p P with
  | nil => rw [walkFrom, reverse_nil, nil_append, hp]
  | cons i is ih =>
    rw [reverse_cons, append_assoc, singleton_append, walkFrom]
    by_cases hv : (m.word p i).valid = true
    · rw [if_pos hv]
      exact ih (node_cons_eq_some.2 ⟨p, hp, hv, rfl⟩)
    · have hnone : node m r (i :: P) = none := by
        rw [node, hp, bind_some, Pte.next, if_neg hv]
      have hdeep : ∀ js : List Idx, node m r (js ++ i :: P) = none := by
        intro js
        induction js with
        | nil => exact hnone
        | cons j js ih => rw [cons_append, node, ih]; rfl
      rw [if_neg hv, if_neg (by simp), hdeep]

/-- The path of the page-table page with the entry of `va`. -/
abbrev tableOf (va : ℕ) : List Idx := [px 1 va, px 2 va]

theorem walk_look (hva : va < MAXVA.toNat) : walk m r va false =
    .ok ((node m r (tableOf va)).map fun p => (p, px 0 va), m) := by
  unfold walk
  rw [if_neg (by omega), walkFrom_look (P := []) rfl]
  rfl

theorem walk_alloc {I : Mem → Prop} (hI : ∀ m, I m → Distinct m r) (hlink : LinkInvariant r I)
    (hm : I m) (hva : va < MAXVA.toNat) :
    ∃ m', I m' ∧ (walk m r va true = .ok (none, m') ∨
      ∃ p, walk m r va true = .ok (some (p, px 0 va), m') ∧ node m' r (tableOf va) = some p) := by
  obtain ⟨hg, hres⟩ := walkFrom_alloc hI hlink [px 2 va, px 1 va] (P := []) hm rfl rfl
  refine ⟨_, hg, ?_⟩
  unfold walk
  rw [if_neg (by omega)]
  rcases hres with ⟨q, hq, hnode⟩ | hnone
  · exact .inr ⟨q, by simp only [hq]; rfl, hnode⟩
  · exact .inl (by simp only [hnone]; rfl)

theorem walk_grown (hok : TableOk m r) (hva : va < MAXVA.toNat) :
    ∃ m', Grown m m' r ∧ (walk m r va true = .ok (none, m') ∨
      ∃ p, walk m r va true = .ok (some (p, px 0 va), m') ∧ node m' r (tableOf va) = some p) :=
  walk_alloc (fun _ hg => hg.ok.distinct)
    (fun hg ht hz hP hp hi => hg.trans (grown_link hg.ok ht hz hP hp hi)) (.refl hok) hva

/-! ### An entry for a mapped page is written -/

section

variable (hok : TableOk m r) (hP : P.length = 2) (hp : node m r P = some p)

include hok hP hp

theorem tableOwn_set_leaf : tableOwn (m.set p k e) r =
    if IsUser (k :: P) then update (tableOwn m r) (k :: P) e.next else tableOwn m r := by
  have hnode : ∀ Q, Q.length ≤ 3 →
      node (m.set p k e) r Q = if Q = k :: P then e.next else node m r Q := fun Q hQ =>
    node_set hok.distinct hP.le hp (fun h => by omega) hQ
  funext Q
  by_cases hQ : Q = k :: P
  · subst hQ
    have hlen : (k :: P).length = 3 := by rw [length_cons, hP]
    split_ifs with hu
    · rw [update_self, tableOwn_of_isUser hu, hnode _ hlen.le, if_pos rfl]
    · have : ¬ ((k :: P).length ≤ 2 ∨ IsUser (k :: P)) := by
        rintro (h | h)
        · omega
        · exact hu h
      rw [tableOwn, tableOwn, if_neg this, if_neg this]
  · have hsame : tableOwn (m.set p k e) r Q = tableOwn m r Q := by
      unfold tableOwn
      split_ifs with hlen
      · have hle : Q.length ≤ 3 := by
          rcases hlen with hlen | hlen
          · omega
          · exact hlen.1.le
        rw [hnode Q hle, if_neg hQ]
      · rfl
    split_ifs
    · rw [update_of_ne hQ, hsame]
    · exact hsame

theorem TableOk.set_leaf (hs : Ownership.Sound (tableOwn (m.set p k e) r) fun p => p ∉ m.free) :
    TableOk (m.set p k e) r where
  nodup := hok.nodup
  sound := hs
  interior P' q j hP' hq hv := by
    rw [node_set hok.distinct hP.le hp (fun h => by omega) (by omega)] at hq
    have hne : P' ≠ k :: P := fun h => by
      rw [h, length_cons] at hP'
      omega
    rw [if_neg hne] at hq
    have hqp : q ≠ p := by
      rintro rfl
      have := hok.unique hP'.le hP.le hq hp
      rw [this] at hP'
      omega
    rw [word_set, if_neg fun h => hqp h.1] at hv ⊢
    exact hok.interior P' q j hP' hq hv

end

/-! ### `mappages` for one page -/

theorem mappages_one {perm : Flags} (hva : va % PGSIZE = 0) (hlt : va < MAXVA.toNat) :
    mappages m r va PGSIZE n perm = mapLoop r perm 1 m va n := by
  unfold mappages
  have hPG : PGSIZE = 4096 := rfl
  rw [MAXVA_toNat] at hlt
  have hlast : (va + PGSIZE + 2 ^ 64 - 1) % 2 ^ 64 / PGSIZE = va / PGSIZE := by
    rw [hPG] at hva ⊢
    omega
  have ha : va / PGSIZE * PGSIZE = va := Nat.div_mul_cancel (Nat.dvd_of_mod_eq_zero hva)
  simp only [hlast, ha, Nat.add_sub_cancel_left]
  rfl

/-- `mappages` for one page that is not mapped: page-table pages may be added, and if there is
enough memory the entry is written. -/
theorem mappages_page {perm : Flags} (hok : TableOk m r) (hva : va % PGSIZE = 0)
    (hlt : va < MAXVA.toNat) (hnew : entry m r (pathOf va) = none) :
    ∃ m', Grown m m' r ∧ (mappages m r va PGSIZE n perm = .ok (-1, m') ∨
      ∃ p, node m' r (tableOf va) = some p ∧
        mappages m r va PGSIZE n perm = .ok (0, m'.set p (px 0 va) ⟨n, perm ||| PTE_V⟩)) := by
  rw [mappages_one hva hlt]
  obtain ⟨m', hg, hw⟩ := walk_grown hok hlt
  refine ⟨m', hg, ?_⟩
  rw [mapLoop]
  rcases hw with hw | ⟨p, hw, hp⟩
  · rw [hw]
    exact .inl rfl
  · refine .inr ⟨p, hp, ?_⟩
    have hv : (m'.word p (px 0 va)).valid = false := by
      by_contra hv
      have hsome := entry_cons_eq_some.2 ⟨p, hp, by simpa using hv, rfl⟩
      rw [hg.entry (px 0 va :: tableOf va) rfl] at hsome
      rw [show px 0 va :: tableOf va = pathOf va from rfl, hnew] at hsome
      cases hsome
    rw [hw, ok_bind]
    simp only [hv]
    rfl

theorem map_user (va n : ℕ) (perm : Flags) (hok : TableOk m r) (hva : va % PGSIZE = 0)
    (hlt : va < MAXVA.toNat)
    (hu : IsUser (pathOf va)) (hnew : entry m r (pathOf va) = none) (hn : n ∉ region m r) :
    ∃ m', Within m m' (region m r) ∧ TableOk m' r ∧
      (mappages m r va PGSIZE n perm = .ok (-1, m') ∧ region m' r = region m r ∧
          (∀ Q, Q.length = 3 → entry m' r Q = entry m r Q) ∨
        mappages m r va PGSIZE n perm = .ok (0, m') ∧ region m' r = insert n (region m r) ∧
          ∀ Q, Q.length = 3 → entry m' r Q =
            if Q = pathOf va then some ⟨n, perm ||| PTE_V⟩ else entry m r Q) := by
  obtain ⟨m', hg, hmap | ⟨p, hp, hmap⟩⟩ := mappages_page hok hva hlt hnew
  · exact ⟨m', hg.within, hg.ok, .inl ⟨hmap, hg.region, hg.entry⟩⟩
  have hn' : n ∉ region m' r := by rwa [hg.region]
  set e : Pte := ⟨n, perm ||| PTE_V⟩ with he
  have hvalid : e.valid = true := valid_or_PTE_V n perm
  have hnone : tableOwn m' r (pathOf va) = none := by
    have hentry := hg.entry (pathOf va) rfl
    rw [hnew] at hentry
    rw [tableOwn_of_isUser hu, pathOf, node_eq_entry]
    exact congrArg (Option.map ppn) hentry
  have hown : tableOwn (m'.set p (px 0 va) e) r =
      update (tableOwn m' r) (pathOf va) (some n) := by
    refine (tableOwn_set_leaf hg.ok rfl hp).trans ((if_pos hu).trans ?_)
    rw [Pte.next, if_pos hvalid]
    rfl
  have hsound : Ownership.Sound (tableOwn (m'.set p (px 0 va) e) r) fun p => p ∉ m'.free := by
    rw [hown]
    exact hg.ok.sound.grant (fun Q hQ => hn' (.inr ⟨Q, hQ⟩)) (fun _ hc => hc)
      (fun hmem => hn' (.inl hmem)) _
  refine ⟨_, ?_, hg.ok.set_leaf rfl hp hsound, .inr ⟨hmap, ?_, fun Q hQ => ?_⟩⟩
  · exact hg.within.trans (.set (hg.region ▸ node_mem_region (by simp) hp) _ _)
  · rw [← hg.region]
    ext x
    rw [Set.mem_insert_iff, mem_region, mem_region, hown]
    constructor
    · rintro (hx | ⟨Q, hQ⟩)
      · exact .inr (.inl hx)
      · by_cases hQP : Q = pathOf va
        · rw [hQP, update_self] at hQ
          exact .inl (some.inj hQ).symm
        · rw [update_of_ne hQP] at hQ
          exact .inr (.inr ⟨Q, hQ⟩)
    · rintro (rfl | hx | ⟨Q, hQ⟩)
      · exact .inr ⟨pathOf va, update_self ..⟩
      · exact .inl hx
      · refine .inr ⟨Q, ?_⟩
        rw [update_of_ne]
        · exact hQ
        · rintro rfl
          rw [hnone] at hQ
          cases hQ
  · rw [entry_set_leaf hg.ok.distinct hp rfl hQ, if_pos hvalid, hg.entry Q hQ]
    rfl

theorem map_top (va n : ℕ) (perm : Flags) (hok : TableOk m r) (hva : va % PGSIZE = 0)
    (hlt : va < MAXVA.toNat)
    (hu : ¬ IsUser (pathOf va)) (hnew : entry m r (pathOf va) = none) :
    ∃ m', Within m m' (region m r) ∧ TableOk m' r ∧ region m' r = region m r ∧
      (mappages m r va PGSIZE n perm = .ok (-1, m') ∧
          (∀ Q, Q.length = 3 → entry m' r Q = entry m r Q) ∨
        mappages m r va PGSIZE n perm = .ok (0, m') ∧
          ∀ Q, Q.length = 3 → entry m' r Q =
            if Q = pathOf va then some ⟨n, perm ||| PTE_V⟩ else entry m r Q) := by
  obtain ⟨m', hg, hmap | ⟨p, hp, hmap⟩⟩ := mappages_page hok hva hlt hnew
  · exact ⟨m', hg.within, hg.ok, hg.region, .inl ⟨hmap, hg.entry⟩⟩
  set e : Pte := ⟨n, perm ||| PTE_V⟩ with he
  have hown : tableOwn (m'.set p (px 0 va) e) r = tableOwn m' r :=
    (tableOwn_set_leaf hg.ok rfl hp).trans (if_neg hu)
  refine ⟨_, ?_, hg.ok.set_leaf rfl hp (by rw [hown]; exact hg.ok.sound), ?_,
    .inr ⟨hmap, fun Q hQ => ?_⟩⟩
  · exact hg.within.trans (.set (hg.region ▸ node_mem_region (by simp) hp) _ _)
  · rw [← hg.region]
    ext x
    rw [mem_region, mem_region, hown]
    rfl
  · rw [entry_set_leaf hg.ok.distinct hp rfl hQ, if_pos (valid_or_PTE_V n perm), hg.entry Q hQ]
    rfl

/-! ### `uvmunmap` -/

/-- The entries at the paths of `S` are gone, the others are as before. -/
structure Cleared (m m' : Mem) (r : ℕ) (S : List Idx → Prop) : Prop where
  ok : TableOk m' r
  within : Within m m' (region m r)
  region : region m' r = region m r
  gone : ∀ Q, Q.length = 3 → S Q → entry m' r Q = none
  entry : ∀ Q, Q.length = 3 → ¬ S Q → entry m' r Q = entry m r Q

theorem Cleared.trans {S T : List Idx → Prop} (h : Cleared m m' r S) (h' : Cleared m' m'' r T) :
    Cleared m m'' r fun Q => S Q ∨ T Q where
  ok := h'.ok
  within := h.within.trans (h.region ▸ h'.within)
  region := h'.region.trans h.region
  gone Q hQ hST := by
    by_cases hT : T Q
    · exact h'.gone Q hQ hT
    · rw [h'.entry Q hQ hT]
      exact h.gone Q hQ (hST.resolve_right hT)
  entry Q hQ hST := by
    rw [h'.entry Q hQ fun hT => hST (.inr hT), h.entry Q hQ fun hS => hST (.inl hS)]

theorem Cleared.congr {S T : List Idx → Prop} (h : Cleared m m' r S) (hST : ∀ Q, S Q ↔ T Q) :
    Cleared m m' r T := by
  have hS : S = T := funext fun Q => propext (hST Q)
  exact hS ▸ h

section

variable (hok : TableOk m r) (hP : P.length = 2) (hp : node m r P = some p)

include hok hP hp

theorem entry_clear (hQ : Q.length = 3) : entry (m.set p k .zero) r Q =
    if Q = k :: P then none else entry m r Q := by
  rw [entry_set_leaf hok.distinct hp hP hQ]
  rfl

theorem TableOk.clear : TableOk (m.set p k .zero) r := by
  refine hok.set_leaf hP hp (hok.sound.mono (fun Q q hQ => ?_) fun _ _ _ hq => hq)
  rw [tableOwn_set_leaf hok hP hp] at hQ
  split_ifs at hQ
  · by_cases hQP : Q = k :: P
    · rw [hQP, update_self] at hQ
      cases hQ
    · rwa [update_of_ne hQP] at hQ
  · exact hQ

theorem cleared_top (hu : ¬ IsUser (k :: P)) : Cleared m (m.set p k .zero) r (· = k :: P) where
  ok := hok.clear hP hp
  within := .set (node_mem_region hP.le hp) _ _
  region := by
    ext x
    rw [mem_region, mem_region, tableOwn_set_leaf hok hP hp, if_neg hu]
    rfl
  gone Q hQ hS := by rw [entry_clear hok hP hp hQ, if_pos hS]
  entry Q hQ hS := by rw [entry_clear hok hP hp hQ, if_neg hS]

theorem cleared_user (hu : IsUser (k :: P)) (he : m.word p k = e) (hv : e.valid = true)
    (hk : m.kend ≤ e.ppn ∧ e.ppn < PHYSTOP) :
    ∃ m₁, m.kfree e.ppn = .ok m₁ ∧ Cleared m (m₁.set p k .zero) r (· = k :: P) := by
  have howner : tableOwn m r (k :: P) = some e.ppn := by
    rw [tableOwn_of_isUser hu]
    exact node_cons_eq_some.2 ⟨p, hp, by rwa [he], by rw [he]⟩
  have hpe : e.ppn ≠ p := by
    intro heq
    have := hok.sound.exclusive (k :: P) P e.ppn howner ((tableOwn_of_le hP.le).trans (heq ▸ hp))
    have := congrArg length this
    rw [length_cons] at this
    omega
  have hc := hok.clear (k := k) hP hp
  have hown : tableOwn (m.set p k .zero) r =
      update (tableOwn m r) (k :: P) none := by
    rw [tableOwn_set_leaf hok hP hp, if_pos hu]
    rfl
  have hfresh : ∀ Q, tableOwn (m.set p k .zero) r Q ≠ some e.ppn := by
    intro Q hQ
    rw [hown] at hQ
    by_cases hQP : Q = k :: P
    · rw [hQP, update_self] at hQ
      cases hQ
    · rw [update_of_ne hQP] at hQ
      exact hQP (hok.sound.exclusive Q (k :: P) e.ppn hQ howner)
  obtain ⟨m3, hm3, hgiven⟩ := kfree_ok (m := m.set p k .zero) hk
  obtain ⟨hok3, hown3, hentry3⟩ := hgiven.ok hc (hok.sound.good _ _ howner) hfresh
  -- the entry is cleared after the page has been freed, which makes no difference
  have hswap : ∃ m₁, m.kfree e.ppn = .ok m₁ ∧ m₁.set p k .zero = m3 := by
    unfold kfree at hm3 ⊢
    have hk' : (m.set p k .zero).kend ≤ e.ppn ∧ e.ppn < PHYSTOP := hk
    rw [if_pos hk'] at hm3
    rw [if_pos hk]
    refine ⟨_, rfl, ?_⟩
    rw [← Except.ok.inj hm3]
    simp only [Mem.set, memset, update_of_ne hpe.symm, Mem.mk.injEq, true_and]
    exact update_comm hpe _ _ _
  obtain ⟨m₁, hm1, rfl⟩ := hswap
  refine ⟨m₁, hm1, hok3, ?_, ?_, fun Q hQ hS => ?_, fun Q hQ hS => ?_⟩
  · refine Within.trans (.set (node_mem_region hP.le hp) k .zero) (hgiven.within.mono ?_)
    rintro _ rfl
    exact .inr ⟨_, howner⟩
  · ext x
    rw [mem_region, mem_region, hgiven.free, hown3, hown, mem_cons]
    constructor
    · rintro ((rfl | hx) | ⟨Q, hQ⟩)
      · exact .inr ⟨_, howner⟩
      · exact .inl hx
      · by_cases hQP : Q = k :: P
        · rw [hQP, update_self] at hQ
          cases hQ
        · rw [update_of_ne hQP] at hQ
          exact .inr ⟨Q, hQ⟩
    · rintro (hx | ⟨Q, hQ⟩)
      · exact .inl (.inr hx)
      · by_cases hQP : Q = k :: P
        · rw [hQP, howner] at hQ
          exact .inl (.inl (some.inj hQ).symm)
        · exact .inr ⟨Q, by rwa [update_of_ne hQP]⟩
  · rw [hentry3 Q hQ.le, entry_clear hok hP hp hQ, if_pos hS]
  · rw [hentry3 Q hQ.le, entry_clear hok hP hp hQ, if_neg hS]

end

/-- One turn of `uvmunmap`. -/
theorem unmap_turn {doFree : Bool} (hok : TableOk m r) (hlt : va < MAXVA.toNat)
    (he : entry m r (pathOf va) = some e) (hf : e.flags ≠ PTE_V)
    (hu : doFree = true → IsUser (pathOf va) ∧ m.kend ≤ e.ppn ∧ e.ppn < PHYSTOP)
    (hu' : doFree = false → ¬ IsUser (pathOf va)) :
    ∃ m', (∀ turns, unmapLoop r doFree (turns + 1) m va =
      unmapLoop r doFree turns m' (va + PGSIZE)) ∧
      Cleared m m' r (· = pathOf va) := by
  obtain ⟨p, hp, hv, hword⟩ := entry_cons_eq_some.1 he
  have hturn : ∀ turns, unmapLoop r doFree (turns + 1) m va =
      (if doFree then m.kfree e.ppn else .ok m).bind fun m =>
        unmapLoop r doFree turns (m.set p (px 0 va) .zero) (va + PGSIZE) := by
    intro turns
    rw [unmapLoop, walk_look hlt, hp, ok_bind]
    simp only [map_some, hword]
    rw [hword] at hv
    rw [if_neg (by simp [hv]), if_neg hf]
  cases doFree with
  | false =>
    exact ⟨_, hturn, cleared_top hok rfl hp (hu' rfl)⟩
  | true =>
    obtain ⟨huser, hk⟩ := hu rfl
    obtain ⟨m₁, hm1, hc⟩ := cleared_user hok rfl hp huser hword (hword ▸ hv) hk
    refine ⟨_, fun turns => ?_, hc⟩
    rw [hturn, if_pos rfl, hm1, ok_bind]

theorem unmapLoop_ok (doFree : Bool) (v turns : ℕ) (hok : TableOk m r)
    (hlt : (v + turns) * PGSIZE ≤ MAXVA.toNat)
    (he : ∀ j, v ≤ j → j < v + turns → ∃ e, entry m r (pathOf (j * PGSIZE)) = some e ∧
      e.flags ≠ PTE_V ∧
      (doFree = true → IsUser (pathOf (j * PGSIZE)) ∧ m.kend ≤ e.ppn ∧ e.ppn < PHYSTOP) ∧
      (doFree = false → ¬ IsUser (pathOf (j * PGSIZE))))
    (hinj : ∀ j j', v ≤ j → j < v + turns → v ≤ j' → j' < v + turns →
      pathOf (j * PGSIZE) = pathOf (j' * PGSIZE) → j = j') :
    ∃ m', unmapLoop r doFree turns m (v * PGSIZE) = .ok m' ∧
      Cleared m m' r fun Q => ∃ j, v ≤ j ∧ j < v + turns ∧ Q = pathOf (j * PGSIZE) := by
  induction turns generalizing m v with
  | zero =>
    refine ⟨m, rfl, hok, .refl m _, rfl, fun Q _ hS => ?_, fun _ _ _ => rfl⟩
    obtain ⟨j, h1, h2, -⟩ := hS
    omega
  | succ turns ih =>
    have hPG : 0 < PGSIZE := by decide
    obtain ⟨e, hentry, hf, hu, hu'⟩ := he v (le_refl v) (by omega)
    have hva : v * PGSIZE < MAXVA.toNat := by
      have : v * PGSIZE < (v + (turns + 1)) * PGSIZE := Nat.mul_lt_mul_of_pos_right (by omega) hPG
      omega
    obtain ⟨m₁, hturn, hc⟩ := unmap_turn hok hva hentry hf hu hu'
    have hsum : v + 1 + turns = v + (turns + 1) := by omega
    obtain ⟨m', hm', hc'⟩ := ih (v + 1) hc.ok (hsum ▸ hlt)
      (fun j h1 h2 => by
        obtain ⟨e', hentry', hf', hu1, hu2⟩ := he j (by omega) (by omega)
        refine ⟨e', ?_, hf', fun hd => ?_, hu2⟩
        · rw [hc.entry _ rfl fun heq => ?_]
          · exact hentry'
          · have := hinj j v (by omega) (by omega) (le_refl v) (by omega) heq
            omega
        · rw [hc.within.kend]
          exact hu1 hd)
      fun j j' h1 h2 h3 h4 => hinj j j' (by omega) (by omega) (by omega) (by omega)
    refine ⟨m', ?_, (hc.trans hc').congr fun Q => ⟨?_, ?_⟩⟩
    · rw [hturn]
      rw [Nat.succ_mul] at hm'
      exact hm'
    · rintro (rfl | ⟨j, h1, h2, hQ⟩)
      · exact ⟨v, le_refl v, by omega, rfl⟩
      · exact ⟨j, by omega, by omega, hQ⟩
    · rintro ⟨j, h1, h2, hQ⟩
      by_cases hj : j = v
      · exact .inl (hj ▸ hQ)
      · exact .inr ⟨j, by omega, by omega, hQ⟩

/-! ### Addresses -/

theorem px_mul (level v : ℕ) : px level (v * PGSIZE) = Fin.ofNat 512 (v / 2 ^ (9 * level)) := by
  unfold px
  congr 1
  have hPG : PGSIZE = 2 ^ 12 := rfl
  rw [hPG, Nat.pow_add, ← Nat.div_div_eq_div_mul, Nat.mul_div_cancel _ (by decide)]

theorem pathOf_inj {v v' : ℕ} (hv : v < 2 ^ 27) (hv' : v' < 2 ^ 27)
    (h : pathOf (v * PGSIZE) = pathOf (v' * PGSIZE)) : v = v' := by
  simp only [pathOf, px_mul, cons.injEq, and_true, Fin.ext_iff, Fin.val_ofNat] at h
  omega

theorem isUser_iff {v : ℕ} (hv : v < 2 ^ 26) : IsUser (pathOf (v * PGSIZE)) ↔ v < 2 ^ 26 - 2 := by
  have htramp : TRAMPOLINE = (2 ^ 26 - 1) * PGSIZE := by decide
  have hframe : TRAPFRAME = (2 ^ 26 - 2) * PGSIZE := by decide
  rw [IsUser, htramp, hframe]
  constructor
  · rintro ⟨-, h1, h2⟩
    by_contra hlt
    have hcase : v = 2 ^ 26 - 1 ∨ v = 2 ^ 26 - 2 := by omega
    rcases hcase with rfl | rfl
    · exact h1 rfl
    · exact h2 rfl
  · intro hlt
    refine ⟨rfl, fun h => ?_, fun h => ?_⟩
    · have := pathOf_inj (by omega) (by decide) h
      omega
    · have := pathOf_inj (by omega) (by decide) h
      omega

end Xv6.Vm
