import Xv6.Vm.Mapping

/-!
# Address spaces

`freewalk` frees the pages of a tree with no mapped pages.  A user address space (`Space`) has the
trampoline and the trapframe at the top and user memory from address 0 on; it is built by
`proc_pagetable` and `uvmcopy`, and taken down by `proc_freepagetable`.
-/

namespace Xv6.Vm

open Outcome List Pte

variable {m m' m₀ : Mem} {r p q n d : ℕ} {i : Idx} {P Q : List Idx}

/-! ### `freewalk` -/

theorem node_append (P : List Idx) (i : Idx) :
    node m p (P ++ [i]) = (node m p [i]).bind fun c => node m c P := by
  induction P with
  | nil => simp [node]
  | cons j P ih => rw [cons_append, node, ih, Option.bind_assoc]; rfl

/-- The pages of a tree of depth `d`. -/
def treePages (m : Mem) (p d : ℕ) : Set ℕ := {q | ∃ P, P.length ≤ d ∧ node m p P = some q}

theorem mem_treePages : q ∈ treePages m p d ↔ ∃ P, P.length ≤ d ∧ node m p P = some q := Iff.rfl

/-- A tree of depth `d` with no mapped pages. -/
structure Bare (m : Mem) (p d : ℕ) : Prop where
  unique : ∀ P Q q, P.length ≤ d → Q.length ≤ d → node m p P = some q → node m p Q = some q → P = Q
  interior : ∀ P q i, P.length < d → node m p P = some q → (m.word q i).valid = true →
    (m.word q i).flags = PTE_V
  empty : ∀ P q i, P.length = d → node m p P = some q → (m.word q i).valid = false
  managed : ∀ P q, P.length ≤ d → node m p P = some q → m.kend ≤ q ∧ q < PHYSTOP

namespace Bare

theorem child (h : Bare m p (d + 1)) {c : ℕ} (hc : node m p [i] = some c) : Bare m c d := by
  have hnode : ∀ P, node m c P = node m p (P ++ [i]) := fun P => by rw [node_append, hc]; rfl
  have hlen : ∀ P : List Idx, (P ++ [i]).length = P.length + 1 := fun P => by simp
  constructor
  · intro P Q q hP hQ hp hq
    rw [hnode] at hp hq
    have := h.unique _ _ q (by rw [hlen]; omega) (by rw [hlen]; omega) hp hq
    exact append_cancel_right this
  · intro P q j hP hp
    rw [hnode] at hp
    exact h.interior _ q j (by rw [hlen]; omega) hp
  · intro P q j hP hp
    rw [hnode] at hp
    exact h.empty _ q j (by rw [hlen]; omega) hp
  · intro P q hP hp
    rw [hnode] at hp
    exact h.managed _ q (by rw [hlen]; omega) hp

theorem congr (h : Bare m p d) (hw : ∀ q ∈ treePages m p d, m'.word q = m.word q)
    (hk : m'.kend = m.kend) : Bare m' p d ∧ treePages m' p d = treePages m p d := by
  have hnode : ∀ P, P.length ≤ d → node m' p P = node m p P := fun P hP =>
    node_congr_above (fun P q hP hq => hw q ⟨P, hP.le, hq⟩) hP
  refine ⟨⟨?_, ?_, ?_, ?_⟩, ?_⟩
  · intro P Q q hP hQ hp hq
    rw [hnode P hP] at hp
    rw [hnode Q hQ] at hq
    exact h.unique P Q q hP hQ hp hq
  · intro P q j hP hp
    rw [hnode P hP.le] at hp
    rw [hw q ⟨P, hP.le, hp⟩]
    exact h.interior P q j hP hp
  · intro P q j hP hp
    rw [hnode P hP.le] at hp
    rw [hw q ⟨P, hP.le, hp⟩]
    exact h.empty P q j hP hp
  · intro P q hP hp
    rw [hnode P hP] at hp
    rw [hk]
    exact h.managed P q hP hp
  · ext q
    rw [mem_treePages, mem_treePages]
    constructor
    · rintro ⟨P, hP, hq⟩
      exact ⟨P, hP, (hnode P hP).symm.trans hq⟩
    · rintro ⟨P, hP, hq⟩
      exact ⟨P, hP, (hnode P hP).trans hq⟩

end Bare

/-- `freewalk` has freed the tree at `p`. -/
def FreesTree (f : Mem → ℕ → Except Panic Mem) (m : Mem) (p d : ℕ) : Prop :=
  ∃ m' l, f m p = .ok m' ∧ m'.free = l ++ m.free ∧ l.Nodup ∧
    (∀ q, q ∈ l ↔ q ∈ treePages m p d) ∧ Within m m' (treePages m p d)

/-- The loop of `freewalk` at page `p`, over the entries of `L`: `l` are the pages that it has freed
so far, which are below other entries. -/
theorem freeEntries_ok {f : Mem → ℕ → Except Panic Mem}
    (ih : ∀ m c, Bare m c d → FreesTree f m c d) (h : Bare m₀ p (d + 1)) {L : List Idx}
    (hL : L.Nodup) {m : Mem} {l : List ℕ} (hword : ∀ j ∈ L, m.word p j = m₀.word p j)
    (hwithin : Within m₀ m (insert p {q | q ∈ l})) (hfree : m.free = l ++ m₀.free) (hl : l.Nodup)
    (hbelow : ∀ q ∈ l, ∃ i P, i ∉ L ∧ P.length ≤ d ∧ node m₀ p (P ++ [i]) = some q) :
    ∃ m' l', L.foldlM (freeEntry f p) m = .ok m' ∧ m'.free = l' ++ m₀.free ∧ l'.Nodup ∧
      Within m₀ m' (insert p {q | q ∈ l'}) ∧
      ∀ q, q ∈ l' ↔ q ∈ l ∨ ∃ i ∈ L, ∃ P, P.length ≤ d ∧ node m₀ p (P ++ [i]) = some q := by
  induction L generalizing m l with
  | nil => exact ⟨m, l, rfl, hfree, hl, hwithin, fun q => by simp⟩
  | cons i L ihL =>
    obtain ⟨hi, hL⟩ := nodup_cons.1 hL
    have hlen : ∀ P : List Idx, (P ++ [i]).length = P.length + 1 := fun P => by simp
    have hentry := hword i mem_cons_self
    rw [foldlM_cons]
    by_cases hv : (m₀.word p i).valid = true
    · -- a page-table page
      have hc : node m₀ p [i] = some (m₀.word p i).ppn :=
        node_cons_eq_some.2 ⟨p, rfl, hv, rfl⟩
      set c := (m₀.word p i).ppn with hcdef
      have hnode : ∀ P, node m₀ c P = node m₀ p (P ++ [i]) := fun P => by rw [node_append, hc]; rfl
      have hflags := h.interior [] p i (by simp) rfl hv
      have hpages : ∀ q, q ∈ treePages m₀ c d → q ≠ p ∧ q ∉ l := by
        rintro q ⟨P, hP, hq⟩
        rw [hnode] at hq
        refine ⟨?_, fun hmem => ?_⟩
        · rintro rfl
          have := h.unique (P ++ [i]) [] q (by rw [hlen]; omega) (by simp) hq rfl
          simp at this
        · obtain ⟨i', P', hi', hP', hq'⟩ := hbelow q hmem
          have := h.unique (P ++ [i]) (P' ++ [i']) q (by rw [hlen]; omega) (by simp; omega) hq hq'
          have : i = i' := by
            have := congrArg getLast? this
            simpa using this
          exact hi' (this ▸ mem_cons_self)
      obtain ⟨hbare, hsame⟩ := (h.child hc).congr
        (fun q hq => hwithin.word q fun hmem => by
          rcases hmem with rfl | hmem
          · exact (hpages q hq).1 rfl
          · exact (hpages q hq).2 hmem) hwithin.kend
      obtain ⟨m1, l1, hf, hfree1, hl1, hmem1, hwithin1⟩ := ih m c hbare
      rw [hsame] at hmem1 hwithin1
      have hstep : freeEntry f p m i = .ok (m1.set p i .zero) := by
        unfold freeEntry
        simp only [hentry]
        rw [if_pos ⟨hv, by rw [hflags]; decide⟩, ← hcdef, hf]
        rfl
      obtain ⟨m', l', hfold, hfree', hl', hwithin', hmem'⟩ := ihL hL
        (m := m1.set p i .zero) (l := l1 ++ l)
        (fun j hj => by
          have hji : j ≠ i := by
            rintro rfl
            exact hi hj
          rw [word_set, if_neg fun hset => hji hset.2, hwithin1.word p
            fun hp => (hpages p hp).1 rfl]
          exact hword j (mem_cons_of_mem i hj))
        (by
          refine ((hwithin.mono ?_).trans (hwithin1.mono ?_)).trans (.set (.inl rfl) i .zero)
          · rintro q (rfl | hq)
            · exact .inl rfl
            · exact .inr (mem_append_right l1 hq)
          · intro q hq
            exact .inr (mem_append_left l ((hmem1 q).2 hq)))
        (by
          show m1.free = _
          rw [hfree1, hfree, append_assoc])
        (nodup_append.2 ⟨hl1, hl, fun q hq q' hq' heq => by
          subst heq
          exact (hpages q ((hmem1 q).1 hq)).2 hq'⟩)
        fun q hq => by
          rcases mem_append.1 hq with hq | hq
          · obtain ⟨P, hP, hq⟩ := (hmem1 q).1 hq
            exact ⟨i, P, hi, hP, (hnode P).symm.trans hq⟩
          · obtain ⟨i', P, hi', hP, hq⟩ := hbelow q hq
            exact ⟨i', P, fun hmem => hi' (mem_cons_of_mem i hmem), hP, hq⟩
      refine ⟨m', l', ?_, hfree', hl', hwithin', fun q => (hmem' q).trans ?_⟩
      · rw [hstep]
        exact hfold
      · rw [mem_append, hmem1, mem_treePages]
        simp only [mem_cons, exists_eq_or_imp, hnode]
        constructor
        · rintro ((hq | hq) | hq)
          · exact .inr (.inl hq)
          · exact .inl hq
          · exact .inr (.inr hq)
        · rintro (hq | hq | hq)
          · exact .inl (.inr hq)
          · exact .inl (.inl hq)
          · exact .inr hq
    · -- nothing here
      have hstep : freeEntry f p m i = .ok m := by
        unfold freeEntry
        simp only [hentry]
        rw [if_neg fun hc => hv hc.1, if_neg hv]
      have hnone : ∀ P, node m₀ p (P ++ [i]) = none := by
        intro P
        rw [node_append]
        simp [node, Pte.next, hv]
      obtain ⟨m', l', hfold, hfree', hl', hwithin', hmem'⟩ := ihL hL
        (fun j hj => hword j (mem_cons_of_mem i hj)) hwithin hfree hl fun q hq => by
          obtain ⟨i', P, hi', hP, hq⟩ := hbelow q hq
          exact ⟨i', P, fun hmem => hi' (mem_cons_of_mem i hmem), hP, hq⟩
      refine ⟨m', l', ?_, hfree', hl', hwithin', fun q => (hmem' q).trans ?_⟩
      · rw [hstep]
        exact hfold
      · simp [hnone]

/-- The end of `freewalk`: the page itself is freed. -/
theorem freesTree_of_entries {f : Mem → ℕ → Except Panic Mem} {l : List ℕ} (h : Bare m p d)
    (hfold : (finRange 512).foldlM (freeEntry f p) m = .ok m') (hfree : m'.free = l ++ m.free)
    (hl : l.Nodup) (hwithin : Within m m' (insert p {q | q ∈ l}))
    (hmem : ∀ q, q ∈ l ↔ q ≠ p ∧ q ∈ treePages m p d) :
    FreesTree (fun m p => ((finRange 512).foldlM (freeEntry f p) m).bind fun m => m.kfree p)
      m p d := by
  have hp : p ∈ treePages m p d := ⟨[], by simp, rfl⟩
  have hk := h.managed [] p (by simp) rfl
  rw [← hwithin.kend] at hk
  obtain ⟨m'', hm'', hgiven⟩ := kfree_ok hk
  refine ⟨m'', p :: l, ?_, ?_, ?_, fun q => ?_, ?_⟩
  · simp only [hfold, ok_bind]
    exact hm''
  · rw [hgiven.free, hfree, cons_append]
  · exact nodup_cons.2 ⟨fun hpl => ((hmem p).1 hpl).1 rfl, hl⟩
  · rw [mem_cons, hmem]
    constructor
    · rintro (rfl | hq)
      · exact hp
      · exact hq.2
    · intro hq
      by_cases hqp : q = p
      · exact .inl hqp
      · exact .inr ⟨hqp, hq⟩
  · refine (hwithin.mono ?_).trans (hgiven.within.mono ?_)
    · rintro q (rfl | hq)
      · exact hp
      · exact ((hmem q).1 hq).2
    · rintro _ rfl
      exact hp

/-- **`freewalk`** frees the pages of the tree, each of them once. -/
theorem freewalk_ok (h : Bare m p d) : FreesTree (freewalk (d + 1)) m p d := by
  induction d generalizing m p with
  | zero =>
    have hfold : ∀ L : List Idx, L.foldlM (freeEntry (freewalk 0) p) m = .ok m := by
      intro L
      induction L with
      | nil => rfl
      | cons i L ih =>
        have hstep : freeEntry (freewalk 0) p m i = .ok m := by
          have hv := h.empty [] p i rfl rfl
          unfold freeEntry
          simp [hv]
        rw [foldlM_cons, hstep]
        exact ih
    refine freesTree_of_entries (l := []) h (hfold _) rfl nodup_nil (.refl m _) fun q => ?_
    simp only [not_mem_nil, false_iff, not_and, mem_treePages]
    rintro hqp ⟨P, hP, hq⟩
    rw [length_eq_zero_iff.1 (Nat.le_zero.1 hP)] at hq
    exact hqp (Option.some.inj hq).symm
  | succ d ih =>
    obtain ⟨m', l, hfold, hfree, hl, hwithin, hmem⟩ :=
      freeEntries_ok (l := []) (fun m c hc => ih hc) h
      (nodup_finRange 512) (fun _ _ => rfl) (.refl m _) rfl nodup_nil nofun
    refine freesTree_of_entries h hfold hfree hl hwithin fun q => (hmem q).trans ?_
    simp only [not_mem_nil, false_or, mem_finRange, true_and, mem_treePages]
    constructor
    · rintro ⟨i, P, hP, hq⟩
      refine ⟨?_, P ++ [i], by simp; omega, hq⟩
      rintro rfl
      have := h.unique (P ++ [i]) [] q (by simp; omega) (by simp) hq rfl
      simp at this
    · rintro ⟨hqp, P, hP, hq⟩
      rcases eq_nil_or_concat P with rfl | ⟨P', i, rfl⟩
      · exact absurd (Option.some.inj hq).symm hqp
      · rw [concat_eq_append] at hP hq
        exact ⟨i, P', by simpa using hP, hq⟩

/-! ### Address spaces -/

/-- The page numbers of a user address space with `n` pages of user memory. -/
def InSpace (n v : ℕ) : Prop := v < n ∨ v = 2 ^ 26 - 2 ∨ v = 2 ^ 26 - 1

/-- A tree with user memory of `n` pages, the trapframe and the trampoline. -/
structure Space (m : Mem) (r n : ℕ) : Prop where
  ok : TableOk m r
  managed : ∀ p ∈ region m r, m.kend ≤ p ∧ p < PHYSTOP
  mapped : ∀ v, InSpace n v → ∃ e, entry m r (pathOf (v * PGSIZE)) = some e ∧ e.flags ≠ PTE_V
  only : ∀ Q e, Q.length = 3 → entry m r Q = some e → ∃ v, InSpace n v ∧ Q = pathOf (v * PGSIZE)
  bound : n ≤ 2 ^ 26 - 2

theorem TRAMPOLINE_eq : TRAMPOLINE = (2 ^ 26 - 1) * PGSIZE := by decide

theorem TRAPFRAME_eq : TRAPFRAME = (2 ^ 26 - 2) * PGSIZE := by decide

/-- The tree has been freed. -/
structure TreeFreed (m m' : Mem) (r : ℕ) : Prop where
  nodup : m'.free.Nodup
  free : ∀ p, p ∈ m'.free ↔ p ∈ region m r
  within : Within m m' (region m r)

theorem uvmfree_zero (hok : TableOk m r) (hman : ∀ p ∈ region m r, m.kend ≤ p ∧ p < PHYSTOP)
    (hnone : ∀ Q, Q.length = 3 → entry m r Q = none) :
    ∃ m', uvmfree m r 0 = .ok m' ∧ TreeFreed m m' r := by
  have hown : ∀ P p, tableOwn m r P = some p ↔ P.length ≤ 2 ∧ node m r P = some p := by
    intro P p
    constructor
    · intro hP
      have hnode := node_of_tableOwn hP
      refine ⟨?_, hnode⟩
      by_contra hlen
      have hP3 : P.length = 3 := by
        have := length_of_tableOwn hP
        omega
      cases P with
      | nil => cases hP3
      | cons k P =>
        rw [node_eq_entry, hnone _ hP3] at hnode
        cases hnode
    · rintro ⟨hP, hp⟩
      exact (tableOwn_of_le hP).trans hp
  have hbare : Bare m r 2 := by
    refine ⟨fun P Q q hP hQ hp hq => hok.unique hP hQ hp hq, hok.interior, fun P q i hP hq => ?_,
      fun P q hP hq => hman q (TableOk.node_mem_region hP hq)⟩
    by_contra hv
    have := entry_cons_eq_some.2 ⟨q, hq, by simpa using hv, rfl⟩
    rw [hnone (i :: P) (by rw [length_cons, hP])] at this
    cases this
  have hpages : ∀ q, q ∈ treePages m r 2 ↔ ∃ P, tableOwn m r P = some q := by
    intro q
    simp only [mem_treePages, hown]
  have hfrees : FreesTree (freewalk 3) m r 2 := freewalk_ok hbare
  obtain ⟨m', l, hf, hfree, hl, hmem, hwithin⟩ := hfrees
  refine ⟨m', ?_, ?_, fun p => ?_, hwithin.mono fun q hq => .inr ((hpages q).1 hq)⟩
  · rw [uvmfree, if_neg (Nat.lt_irrefl 0), ok_bind, hf]
  · rw [hfree]
    refine nodup_append.2 ⟨hl, hok.nodup, fun q hq q' hq' heq => ?_⟩
    subst heq
    obtain ⟨P, hP⟩ := (hpages q).1 ((hmem q).1 hq)
    exact hok.sound.good P q hP hq'
  · rw [hfree, mem_append, hmem, hpages, mem_region]
    exact or_comm

theorem unmap_top {v : ℕ} (hok : TableOk m r) (hv : v = 2 ^ 26 - 2 ∨ v = 2 ^ 26 - 1)
    (he : ∃ e, entry m r (pathOf (v * PGSIZE)) = some e ∧ e.flags ≠ PTE_V) :
    ∃ m', uvmunmap m r (v * PGSIZE) 1 false = .ok m' ∧
      Cleared m m' r (· = pathOf (v * PGSIZE)) := by
  have hPG : PGSIZE = 4096 := rfl
  have hturns : ((v * PGSIZE + 1 * PGSIZE) % 2 ^ 64 - v * PGSIZE) / PGSIZE = 1 := by
    rw [hPG]
    omega
  obtain ⟨m', hm', hc⟩ := unmapLoop_ok false v 1 hok
    (by rw [MAXVA_toNat, hPG]; omega)
    (fun j h1 h2 => by
      have hj : j = v := by omega
      subst hj
      obtain ⟨e, he, hf⟩ := he
      refine ⟨e, he, hf, nofun, fun _ => ?_⟩
      rw [isUser_iff (by omega)]
      omega)
    (by omega)
  refine ⟨m', ?_, hc.congr fun Q => ⟨?_, fun hQ => ⟨v, le_refl v, by omega, hQ⟩⟩⟩
  · unfold uvmunmap
    rw [if_neg (by rw [Nat.mul_mod_left]; simp), hturns]
    exact hm'
  · rintro ⟨j, h1, h2, hQ⟩
    have hj : j = v := by omega
    exact hj ▸ hQ

/-- User memory from page `k` on is unmapped and freed. -/
theorem unmap_from {k : ℕ} (hok : TableOk m r)
    (hman : ∀ p ∈ region m r, m.kend ≤ p ∧ p < PHYSTOP) (hk : k ≤ n) (hn : n ≤ 2 ^ 26 - 2)
    (he : ∀ v < n, ∃ e, entry m r (pathOf (v * PGSIZE)) = some e ∧ e.flags ≠ PTE_V) :
    ∃ m', uvmunmap m r (k * PGSIZE) (n - k) true = .ok m' ∧
      Cleared m m' r fun Q => ∃ v, k ≤ v ∧ v < n ∧ Q = pathOf (v * PGSIZE) := by
  have hPG : PGSIZE = 4096 := rfl
  have hturns : ((k * PGSIZE + (n - k) * PGSIZE) % 2 ^ 64 - k * PGSIZE) / PGSIZE = n - k := by
    rw [hPG]
    omega
  obtain ⟨m', hm', hc⟩ := unmapLoop_ok true k (n - k) hok
    (by rw [MAXVA_toNat, hPG]; omega)
    (fun j _ hj => by
      obtain ⟨e, he, hf⟩ := he j (by omega)
      have hu : IsUser (pathOf (j * PGSIZE)) := (isUser_iff (by omega)).2 (by omega)
      refine ⟨e, he, hf, fun _ => ⟨hu, hman e.ppn (.inr ⟨pathOf (j * PGSIZE), ?_⟩)⟩, nofun⟩
      rw [tableOwn_of_isUser hu, pathOf, node_eq_entry]
      exact congrArg (Option.map ppn) he)
    (fun j j' _ hj _ hj' heq => pathOf_inj (by omega) (by omega) heq)
  refine ⟨m', ?_, hc.congr fun Q => ⟨?_, ?_⟩⟩
  · unfold uvmunmap
    rw [if_neg (by rw [Nat.mul_mod_left]; simp), hturns]
    exact hm'
  · rintro ⟨j, hkj, hj, hQ⟩
    exact ⟨j, hkj, by omega, hQ⟩
  · rintro ⟨j, hkj, hj, hQ⟩
    exact ⟨j, hkj, by omega, hQ⟩

theorem Cleared.managed {S : List Idx → Prop} (h : Cleared m m' r S)
    (hman : ∀ p ∈ Vm.region m r, m.kend ≤ p ∧ p < PHYSTOP) :
    ∀ p ∈ Vm.region m' r, m'.kend ≤ p ∧ p < PHYSTOP := by
  rw [h.region, h.within.kend]
  exact hman

/-- A tree is in order as long as its page-table pages are not written and none of its pages is
freed. -/
theorem Space.frame (h : Space m r n)
    (hw : ∀ P p, P.length ≤ 2 → node m r P = some p → m'.word p = m.word p)
    (hnodup : m'.free.Nodup) (hfree : ∀ P p, tableOwn m r P = some p → p ∉ m'.free)
    (hman : ∀ p ∈ m'.free, m.kend ≤ p ∧ p < PHYSTOP) (hkend : m'.kend = m.kend) : Space m' r n := by
  have hown := tableOwn_congr hw
  constructor
  · constructor
    · exact hnodup
    · constructor
      · intro P p hP
        rw [hown] at hP
        exact hfree P p hP
      · intro P Q p hP hQ
        rw [hown] at hP hQ
        exact h.ok.sound.exclusive P Q p hP hQ
    · intro P p i hP hp
      rw [node_congr hw (by omega)] at hp
      rw [hw P p hP.le hp]
      exact h.ok.interior P p i hP hp
  · rw [hkend]
    rintro p (hp | ⟨P, hP⟩)
    · exact hman p hp
    · rw [hown] at hP
      exact h.managed p (.inr ⟨P, hP⟩)
  · intro v hv
    rw [entry_congr hw (by simp [pathOf])]
    exact h.mapped v hv
  · intro Q e hQ he
    rw [entry_congr hw hQ.le] at he
    exact h.only Q e hQ he
  · exact h.bound

/-- **User memory shrinks** to its first `k` pages. -/
theorem Space.shrink {k : ℕ} (h : Space m r n) (hk : k ≤ n) :
    ∃ m', uvmunmap m r (k * PGSIZE) (n - k) true = .ok m' ∧ Space m' r k ∧
      region m' r = region m r ∧ Within m m' (region m r) := by
  obtain ⟨m', hm', hc⟩ := unmap_from h.ok h.managed hk h.bound fun v hv => h.mapped v (.inl hv)
  have hbound := h.bound
  refine ⟨m', hm', ⟨hc.ok, hc.managed h.managed, fun v hv => ?_, fun Q e hQ he => ?_, by omega⟩,
    hc.region, hc.within⟩
  · obtain ⟨e, he, hf⟩ := h.mapped v (hv.imp_left fun hlt => by omega)
    refine ⟨e, ?_, hf⟩
    rw [hc.entry _ rfl]
    · exact he
    · rintro ⟨v', hkv, hv', heq⟩
      have hlt : v < 2 ^ 26 := by rcases hv with hv | hv | hv <;> omega
      have := pathOf_inj (by omega) (by omega) heq
      rcases hv with hv | hv | hv <;> omega
  · by_cases hS : ∃ v, k ≤ v ∧ v < n ∧ Q = pathOf (v * PGSIZE)
    · rw [hc.gone Q hQ hS] at he
      cases he
    · rw [hc.entry Q hQ hS] at he
      obtain ⟨v, hv, hQv⟩ := h.only Q e hQ he
      refine ⟨v, hv.imp_left fun hlt => ?_, hQv⟩
      by_contra hkv
      exact hS ⟨v, by omega, hlt, hQv⟩

/-- `uvmunmap` of all user memory, after a failed `uvmcopy`. -/
theorem Space.unmap (h : Space m r n) : ∃ m', uvmunmap m r 0 n true = .ok m' ∧ Space m' r 0 ∧
    region m' r = region m r ∧ Within m m' (region m r) := by
  have hshrink := h.shrink (Nat.zero_le n)
  rwa [Nat.zero_mul, Nat.sub_zero] at hshrink

theorem npages_eq {sz : ℕ} (h : sz ≤ TRAPFRAME) : npages sz = (sz + PGSIZE - 1) / PGSIZE := by
  have hPG : PGSIZE = 4096 := rfl
  rw [TRAPFRAME_eq, hPG] at h
  rw [npages, Nat.mod_eq_of_lt]
  rw [hPG]
  omega

/-- **`proc_freepagetable`** takes the address space down. -/
theorem Space.free {sz : ℕ} (h : Space m r (npages sz)) :
    ∃ m', procFreepagetable m r sz = .ok m' ∧ TreeFreed m m' r := by
  obtain ⟨m1, hm1, hc1⟩ := unmap_top h.ok (.inr rfl) (h.mapped _ (.inr (.inr rfl)))
  have hne : (2 ^ 26 - 2) * PGSIZE ≠ (2 ^ 26 - 1) * PGSIZE := by decide
  have hframe : ∃ e, entry m1 r (pathOf ((2 ^ 26 - 2) * PGSIZE)) = some e ∧ e.flags ≠ PTE_V := by
    obtain ⟨e, he, hf⟩ := h.mapped _ (.inr (.inl rfl))
    refine ⟨e, ?_, hf⟩
    rw [hc1.entry _ rfl]
    · exact he
    · intro heq
      have := pathOf_inj (by decide) (by decide) heq
      omega
  obtain ⟨m2, hm2, hc2⟩ := unmap_top hc1.ok (.inl rfl) hframe
  have hc := hc1.trans hc2
  have hpaths : ∀ v, v < npages sz → ¬ (pathOf (v * PGSIZE) = pathOf ((2 ^ 26 - 1) * PGSIZE) ∨
      pathOf (v * PGSIZE) = pathOf ((2 ^ 26 - 2) * PGSIZE)) := by
    have := h.bound
    rintro v hv (heq | heq)
    · have := pathOf_inj (by omega) (by decide) heq
      omega
    · have := pathOf_inj (by omega) (by decide) heq
      omega
  -- user memory, if there is any
  have huser : ∃ m3, (if 0 < sz then uvmunmap m2 r 0 (npages sz) true else .ok m2) = .ok m3 ∧
      Cleared m2 m3 r fun Q => ∃ v < npages sz, Q = pathOf (v * PGSIZE) := by
    by_cases hsz : 0 < sz
    · obtain ⟨m3, hm3, hc3⟩ := unmap_from hc.ok (hc.managed h.managed) (Nat.zero_le _) h.bound
        fun v hv => by
          rw [hc.entry _ rfl (hpaths v hv)]
          exact h.mapped v (.inl hv)
      rw [Nat.zero_mul, Nat.sub_zero] at hm3
      rw [if_pos hsz]
      refine ⟨m3, hm3, hc3.congr fun Q => ?_⟩
      simp only [Nat.zero_le, true_and]
    · have hzero : npages sz = 0 := by
        rw [Nat.eq_zero_of_not_pos hsz]
        rfl
      rw [if_neg hsz, hzero]
      refine ⟨m2, rfl, hc.ok, .refl m2 _, rfl, fun Q _ hS => ?_, fun _ _ _ => rfl⟩
      obtain ⟨v, hv, -⟩ := hS
      omega
  obtain ⟨m3, hm3, hc3⟩ := huser
  have hall := hc.trans hc3
  obtain ⟨m', hm', hfreed⟩ := uvmfree_zero hall.ok (hall.managed h.managed) fun Q hQ => by
    by_cases hS : (Q = pathOf ((2 ^ 26 - 1) * PGSIZE) ∨ Q = pathOf ((2 ^ 26 - 2) * PGSIZE)) ∨
        ∃ v < npages sz, Q = pathOf (v * PGSIZE)
    · exact hall.gone Q hQ hS
    · rw [hall.entry Q hQ hS]
      cases he : entry m r Q with
      | none => rfl
      | some e =>
        obtain ⟨v, hv, hQv⟩ := h.only Q e hQ he
        refine absurd ?_ hS
        rcases hv with hv | rfl | rfl
        · exact .inr ⟨v, hv, hQv⟩
        · exact .inl (.inr hQv)
        · exact .inl (.inl hQv)
  refine ⟨m', ?_, hfreed.nodup, fun p => ?_, hall.within.trans (hall.region ▸ hfreed.within)⟩
  · rw [uvmfree, if_neg (Nat.lt_irrefl 0), ok_bind] at hm'
    rw [procFreepagetable, TRAMPOLINE_eq, hm1, ok_bind, TRAPFRAME_eq, hm2, ok_bind, uvmfree, hm3,
      ok_bind, hm']
  · rw [hfreed.free, hall.region]

/-! ### `proc_pagetable` -/

theorem tableOk_new {m1 : Mem} (hnd : m.free.Nodup) (ht : Taken m m1 p)
    (hz : ∀ i, (m1.word p i).valid = false) :
    TableOk m1 p ∧ (∀ Q, Q.length = 3 → entry m1 p Q = none) ∧
      region m1 p = {x | x ∈ m.free} := by
  have hnode : ∀ P, node m1 p P = if P = [] then some p else none := by
    intro P
    induction P with
    | nil => rfl
    | cons i P ih =>
      rw [node, ih]
      by_cases hP : P = []
      · simp [hP, Pte.next, hz]
      · simp [hP]
  have hown : ∀ P q, tableOwn m1 p P = some q ↔ P = [] ∧ q = p := by
    intro P q
    constructor
    · intro hP
      have hP := node_of_tableOwn hP
      rw [hnode] at hP
      split_ifs at hP with hnil
      exact ⟨hnil, (Option.some.inj hP).symm⟩
    · rintro ⟨rfl, rfl⟩
      rw [tableOwn_of_le (by simp)]
      rfl
  have hp := ht.not_free hnd
  rw [ht.free] at hnd
  refine ⟨⟨(nodup_cons.1 hnd).2, ⟨?_, ?_⟩, ?_⟩, ?_, ?_⟩
  · intro P q hP
    rw [((hown P q).1 hP).2]
    exact hp
  · intro P Q q hP hQ
    rw [((hown P q).1 hP).1, ((hown Q q).1 hQ).1]
  · intro P q i _ hP hv
    rw [hnode] at hP
    split_ifs at hP
    cases hP
    rw [hz] at hv
    cases hv
  · intro Q hQ
    cases Q with
    | nil => cases hQ
    | cons k P =>
      have hP : P ≠ [] := by
        rintro rfl
        cases hQ
      rw [entry, hnode, if_neg hP]
      rfl
  · ext x
    rw [mem_region, ht.free]
    simp only [hown, exists_eq_left]
    exact or_comm.trans mem_cons.symm

/-- **`proc_pagetable`** builds an address space without user memory, or gives back the pages that
it has taken. -/
theorem procPagetable_ok (tf : ℕ) (hnd : m.free.Nodup)
    (hman : ∀ x ∈ m.free, m.kend ≤ x ∧ x < PHYSTOP) :
    ∃ m', Within m m' {x | x ∈ m.free} ∧
      (procPagetable m tf = .ok (none, m') ∧ m'.free.Nodup ∧ (∀ x, x ∈ m'.free ↔ x ∈ m.free) ∨
        ∃ r, procPagetable m tf = .ok (some r, m') ∧ Space m' r 0 ∧
          region m' r = {x | x ∈ m.free}) := by
  have hRX : PTE_R ||| PTE_X ||| PTE_V ≠ PTE_V := by decide
  have hRW : PTE_R ||| PTE_W ||| PTE_V ≠ PTE_V := by decide
  rcases kalloc_cases m with ⟨-, hk⟩ | ⟨r, m1, hk, ht⟩
  · refine ⟨m, .refl m _, .inl ⟨?_, hnd, fun _ => Iff.rfl⟩⟩
    rw [procPagetable, uvmcreate, hk]
  have ht := ht.update fun _ => fill 0
  obtain ⟨hok1, hnone1, hreg1⟩ := tableOk_new hnd ht fun i => by simp [valid, fill_zero, zero]
  set m2 : Mem := { m1 with word := Function.update m1.word r fun _ => fill 0 } with hm2
  have hcreate : uvmcreate m = (some r, m2) := by
    rw [uvmcreate, hk]
    rfl
  have hw2 : Within m m2 {x | x ∈ m.free} := ht.within.mono fun x hx => by
    rw [hx]
    exact ht.mem
  have hman2 : ∀ x ∈ region m2 r, m2.kend ≤ x ∧ x < PHYSTOP := by
    rw [hreg1, ht.within.kend]
    exact hman
  have hfree : ∀ {m3 : Mem}, TableOk m3 r → Within m m3 {x | x ∈ m.free} →
      region m3 r = {x | x ∈ m.free} → (∀ Q, Q.length = 3 → entry m3 r Q = none) →
      ∃ m', uvmfree m3 r 0 = .ok m' ∧ Within m m' {x | x ∈ m.free} ∧ m'.free.Nodup ∧
        ∀ x, x ∈ m'.free ↔ x ∈ m.free := by
    intro m3 hok hw hreg hnone
    obtain ⟨m', hm', hfreed⟩ := uvmfree_zero hok (by rw [hreg, hw.kend]; exact hman) hnone
    refine ⟨m', hm', hw.trans (hreg ▸ hfreed.within), hfreed.nodup, fun x => ?_⟩
    rw [hfreed.free, hreg]
    rfl
  obtain ⟨m3, hw3, hok3, hreg3, hmap3⟩ := map_top TRAMPOLINE m2.trampoline
    (PTE_R ||| PTE_X) hok1 (by decide) (by decide) (fun hu => hu.2.1 rfl) (hnone1 _ rfl)
  rw [hreg1] at hw3 hreg3
  have hw3 := hw2.trans hw3
  rcases hmap3 with ⟨hmap3, he3⟩ | ⟨hmap3, he3⟩
  · -- no page for the trampoline's page-table pages
    obtain ⟨m', hm', hw', hnd', hfree'⟩ := hfree hok3 hw3 hreg3 fun Q hQ =>
      (he3 Q hQ).trans (hnone1 Q hQ)
    refine ⟨m', hw', .inl ⟨?_, hnd', hfree'⟩⟩
    rw [procPagetable, hcreate]
    simp only [hmap3, ok_bind]
    rw [if_pos (by decide), hm']
    rfl
  have htf : pathOf TRAPFRAME ≠ pathOf TRAMPOLINE := by decide
  obtain ⟨m4, hw4, hok4, hreg4, hmap4⟩ := map_top TRAPFRAME tf (PTE_R ||| PTE_W) hok3 (by decide)
    (by decide) (fun hu => hu.2.2 rfl)
    (by rw [he3 _ rfl, if_neg htf, hnone1 _ rfl])
  rw [hreg3] at hw4 hreg4
  have hw4 := hw3.trans hw4
  rcases hmap4 with ⟨hmap4, he4⟩ | ⟨hmap4, he4⟩
  · -- the trampoline is unmapped again
    have htop : ∃ e, entry m4 r (pathOf ((2 ^ 26 - 1) * PGSIZE)) = some e ∧ e.flags ≠ PTE_V := by
      rw [← TRAMPOLINE_eq, he4 _ rfl, he3 _ rfl, if_pos rfl]
      exact ⟨_, rfl, hRX⟩
    obtain ⟨m5, hm5, hc⟩ := unmap_top hok4 (.inr rfl) htop
    obtain ⟨m', hm', hw', hnd', hfree'⟩ := hfree hc.ok (hw4.trans (hreg4 ▸ hc.within))
      (hc.region.trans hreg4) fun Q hQ => by
        by_cases hQ' : Q = pathOf ((2 ^ 26 - 1) * PGSIZE)
        · exact hc.gone Q hQ hQ'
        · rw [hc.entry Q hQ hQ', he4 Q hQ, he3 Q hQ, TRAMPOLINE_eq, if_neg hQ', hnone1 Q hQ]
    refine ⟨m', hw', .inl ⟨?_, hnd', hfree'⟩⟩
    rw [← TRAMPOLINE_eq] at hm5
    rw [procPagetable, hcreate]
    simp only [hmap3, ok_bind]
    rw [if_neg (by decide)]
    simp only [hmap4, ok_bind]
    rw [if_pos (by decide), hm5, ok_bind, hm']
    rfl
  · refine ⟨m4, hw4, .inr ⟨r, ?_, ⟨hok4, ?_, fun v hv => ?_, fun Q e hQ he => ?_, by omega⟩, hreg4⟩⟩
    · rw [procPagetable, hcreate]
      simp only [hmap3, ok_bind]
      rw [if_neg (by decide)]
      simp only [hmap4, ok_bind]
      rw [if_neg (by decide)]
    · rw [hreg4, hw4.kend]
      exact hman
    · have hv : v = 2 ^ 26 - 2 ∨ v = 2 ^ 26 - 1 := hv.resolve_left (by omega)
      rcases hv with rfl | rfl
      · rw [← TRAPFRAME_eq, he4 _ rfl, if_pos rfl]
        exact ⟨_, rfl, hRW⟩
      · rw [← TRAMPOLINE_eq, he4 _ rfl, if_neg htf.symm, he3 _ rfl, if_pos rfl]
        exact ⟨_, rfl, hRX⟩
    · rw [he4 Q hQ] at he
      split_ifs at he with hQ1
      · exact ⟨2 ^ 26 - 2, .inr (.inl rfl), by rw [hQ1, TRAPFRAME_eq]⟩
      · rw [he3 Q hQ] at he
        split_ifs at he with hQ2
        · exact ⟨2 ^ 26 - 1, .inr (.inr rfl), by rw [hQ2, TRAMPOLINE_eq]⟩
        · rw [hnone1 Q hQ] at he
          cases he

/-! ### `uvmcopy` -/

theorem Taken.region_eq {m1 : Mem} (ht : Taken m m1 n) (hok : TableOk m r) :
    region m r = insert n (region m1 r) := by
  ext x
  rw [Set.mem_insert_iff, mem_region, mem_region, ht.tableOwn_eq hok, ht.free, mem_cons,
    or_assoc]

theorem valid_flags {e : Pte} (hv : e.valid = true) : e.flags ||| PTE_V = e.flags := by
  have hall : ∀ f : Flags, f &&& PTE_V ≠ 0 → f ||| PTE_V = f := by decide +kernel
  exact hall e.flags (by simpa [valid] using hv)

theorem not_inSpace {v : ℕ} (hn : n ≤ v) (hv : v < 2 ^ 26 - 2) : ¬ InSpace n v := by
  rintro (h | h | h) <;> omega

/-- **A new page of user memory** is mapped, at the end; or it is given back, because there is no
memory for a page-table page. -/
theorem Space.mapPage {v : ℕ} {m1 : Mem} (perm : Flags) (h : Space m r v) (hv : v < 2 ^ 26 - 2)
    (ht : Taken m m1 n) (hperm : perm ||| PTE_V ≠ PTE_V) :
    ∃ m', Vm.region m' r = Vm.region m r ∧ Within m m' (Vm.region m r) ∧
      (mappages m1 r (v * PGSIZE) PGSIZE n perm = .ok (0, m') ∧ Space m' r (v + 1) ∧
          tableOwn m' r (pathOf (v * PGSIZE)) = some n ∧
          (∀ Q, Q.length = 3 → entry m' r Q =
            if Q = pathOf (v * PGSIZE) then some ⟨n, perm ||| PTE_V⟩ else entry m r Q) ∨
        ∃ m2, mappages m1 r (v * PGSIZE) PGSIZE n perm = .ok (-1, m2) ∧ m2.kfree n = .ok m' ∧
          Space m' r v) := by
  have hPG : PGSIZE = 4096 := rfl
  have hlt : v * PGSIZE < MAXVA.toNat := by
    rw [MAXVA_toNat, hPG]
    omega
  have hok1 := ht.ok h.ok
  have hreg1 := ht.region_eq h.ok
  have hnmem : n ∈ Vm.region m r := .inl ht.mem
  have hn : n ∉ Vm.region m1 r := by
    rintro (hn | ⟨P, hP⟩)
    · exact ht.not_free h.ok.nodup hn
    · exact ht.fresh h.ok P hP
  have hnew : entry m1 r (pathOf (v * PGSIZE)) = none := by
    rw [ht.entry_eq h.ok.distinct (by simp [pathOf])]
    cases hx : entry m r (pathOf (v * PGSIZE)) with
    | none => rfl
    | some x =>
      obtain ⟨v', hv', heq⟩ := h.only _ x rfl hx
      have hlt' : v' < 2 ^ 27 := by
        have := h.bound
        rcases hv' with hv' | hv' | hv' <;> omega
      have hvv := pathOf_inj (by omega) hlt' heq
      exact absurd (hvv ▸ hv') (not_inSpace (le_refl v) hv)
  have hw1 : Within m m1 (Vm.region m r) := ht.within.mono fun x hx => by
    rw [hx]
    exact hnmem
  obtain ⟨m2, hw2, hok2, hmap⟩ := map_user (v * PGSIZE) n perm hok1
    (Nat.mul_mod_left v PGSIZE) hlt ((isUser_iff (by omega)).2 hv) hnew hn
  have hw2 : Within m m2 (Vm.region m r) := hw1.trans (hw2.mono fun x hx => by
    rw [hreg1]
    exact .inr hx)
  rcases hmap with ⟨hmap, hreg2, he2⟩ | ⟨hmap, hreg2, he2⟩
  · -- no memory for a page-table page
    have hkn : m2.kend ≤ n ∧ n < PHYSTOP := by
      rw [hw2.kend]
      exact h.managed n hnmem
    obtain ⟨m3, hm3, hgiven⟩ := kfree_ok hkn
    have hn2 : n ∉ Vm.region m2 r := by rwa [hreg2]
    obtain ⟨hok3, hown3, he3⟩ := hgiven.ok hok2 (fun hmem => hn2 (.inl hmem))
      fun P hP => hn2 (.inr ⟨P, hP⟩)
    have hreg3 : Vm.region m3 r = Vm.region m r := by
      rw [hreg1, ← hreg2]
      ext x
      rw [Set.mem_insert_iff, mem_region, mem_region, hown3, hgiven.free, mem_cons, or_assoc]
    have hw3 : Within m m3 (Vm.region m r) := hw2.trans (hgiven.within.mono fun x hx => by
      rw [hx]
      exact hnmem)
    have hentry : ∀ Q, Q.length = 3 → entry m3 r Q = entry m r Q := fun Q hQ => by
      rw [he3 Q hQ.le, he2 Q hQ, ht.entry_eq h.ok.distinct hQ.le]
    refine ⟨m3, hreg3, hw3, .inr ⟨m2, hmap, hm3, hok3, ?_, fun v' hv' => ?_,
      fun Q x hQ hx => ?_, h.bound⟩⟩
    · rw [hreg3, hw3.kend]
      exact h.managed
    · rw [hentry _ rfl]
      exact h.mapped v' hv'
    · rw [hentry Q hQ] at hx
      exact h.only Q x hQ hx
  · have hreg : Vm.region m2 r = Vm.region m r := by rw [hreg2, hreg1]
    have hentry : ∀ Q, Q.length = 3 → entry m2 r Q =
        if Q = pathOf (v * PGSIZE) then some ⟨n, perm ||| PTE_V⟩ else entry m r Q :=
      fun Q hQ => by rw [he2 Q hQ, ht.entry_eq h.ok.distinct hQ.le]
    refine ⟨m2, hreg, hw2, .inl ⟨hmap, ⟨hok2, ?_, fun v' hv' => ?_, fun Q x hQ hx => ?_, hv⟩, ?_,
      hentry⟩⟩
    · rw [hreg, hw2.kend]
      exact h.managed
    · rw [hentry _ rfl]
      split_ifs with heq
      · exact ⟨_, rfl, hperm⟩
      · refine h.mapped v' (hv'.imp_left fun hlt' => ?_)
        have hne : v' ≠ v := fun hvv => heq (by rw [hvv])
        omega
    · rw [hentry Q hQ] at hx
      split_ifs at hx with heq
      · exact ⟨v, .inl (Nat.lt_succ_self v), heq⟩
      · obtain ⟨v', hv', hQv⟩ := h.only Q x hQ hx
        exact ⟨v', hv'.imp_left fun hlt' => by omega, hQv⟩
    · have he := hentry (pathOf (v * PGSIZE)) rfl
      rw [if_pos rfl] at he
      rw [tableOwn_of_isUser ((isUser_iff (by omega)).2 hv), pathOf, node_eq_entry]
      exact congrArg (Option.map ppn) he

/-- **A turn of `uvmcopy`** maps one page more, or gives back the pages that it has taken. -/
theorem copyPage_ok {old new v : ℕ} {e : Pte} (h : Space m new v) (hv : v < 2 ^ 26 - 2)
    (he : entry m old (pathOf (v * PGSIZE)) = some e) (hf : e.flags ≠ PTE_V) :
    ∃ m' b, copyPage m old new (v * PGSIZE) = .ok (b, m') ∧
      Space m' new (if b then v + 1 else v) ∧ region m' new = region m new ∧
      Within m m' (region m new) := by
  have hPG : PGSIZE = 4096 := rfl
  have hlt : v * PGSIZE < MAXVA.toNat := by
    rw [MAXVA_toNat, hPG]
    omega
  obtain ⟨p, hp, hvalid, hword⟩ := entry_cons_eq_some.1 he
  rw [hword] at hvalid
  rcases kalloc_cases m with ⟨-, hk⟩ | ⟨n, m1, hk, ht⟩
  · refine ⟨m, false, ?_, h, rfl, .refl m _⟩
    rw [copyPage, walk_look hlt, hp, ok_bind]
    simp only [Option.map_some, hword, hk]
    rw [if_neg (by simp [hvalid])]
  have ht : Taken m (m1.memmove n e.ppn) n := ht.update (m1.word e.ppn)
  have hcopy : copyPage m old new (v * PGSIZE) =
      (mappages (m1.memmove n e.ppn) new (v * PGSIZE) PGSIZE n e.flags).bind fun r =>
        if r.1 ≠ 0 then (r.2.kfree n).map fun m => (false, m) else .ok (true, r.2) := by
    rw [copyPage, walk_look hlt, hp, ok_bind]
    simp only [Option.map_some, hword, hk]
    rw [if_neg (by simp [hvalid])]
  rw [hcopy]
  obtain ⟨m', hreg, hw, ⟨hmap, hspace, -⟩ | ⟨m2, hmap, hfree, hspace⟩⟩ :=
    h.mapPage e.flags hv ht (by rwa [valid_flags hvalid])
  · refine ⟨m', true, ?_, hspace, hreg, hw⟩
    simp only [hmap, ok_bind]
    rw [if_neg (by decide)]
  · refine ⟨m', false, ?_, hspace, hreg, hw⟩
    simp only [hmap, ok_bind]
    rw [if_pos (by decide), hfree]
    rfl

end Xv6.Vm
