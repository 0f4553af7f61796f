import Xv6.Vm.PageTable
import Xv6.Lib.Ownership

/-!
# Page tables as trees

A page table is a tree of pages: a path of indices leads from the root to a page-table page, or, if
it has three indices, to a page that is mapped.  The tree owns its page-table pages and the pages of
user memory, but not the two pages that are mapped at the top, the trampoline and the trapframe.
No page is owned twice, and what is owned is not free.

`Within` says that a function only writes to certain pages: the free pages and those of the tree it
works on.
-/

namespace Xv6.Vm

open Option List

variable {m m' m'' : Mem} {r p n : ℕ} {i k : Idx} {e : Pte} {P Q : List Idx} {R : Set ℕ}

/-! ### Paths -/

/-- The page at the end of a path; the last index comes first. -/
def node (m : Mem) (r : ℕ) : List Idx → Option ℕ
  | [] => some r
  | i :: P => (node m r P).bind fun p => (m.word p i).next

/-- The valid entry at the end of a path. -/
def entry (m : Mem) (r : ℕ) : List Idx → Option Pte
  | [] => none
  | k :: P => (node m r P).bind fun p => if (m.word p k).valid then some (m.word p k) else none

/-- The indices of a virtual address. -/
def pathOf (va : ℕ) : List Idx := [px 0 va, px 1 va, px 2 va]

/-- The path of an address of user memory. -/
def IsUser (Q : List Idx) : Prop := Q.length = 3 ∧ Q ≠ pathOf TRAMPOLINE ∧ Q ≠ pathOf TRAPFRAME

instance (Q : List Idx) : Decidable (IsUser Q) := by
  unfold IsUser
  infer_instance

/-- The page that the tree owns at a path. -/
def tableOwn (m : Mem) (r : ℕ) (P : List Idx) : Option ℕ :=
  if P.length ≤ 2 ∨ IsUser P then node m r P else none

/-- The free pages and the pages of a tree. -/
def region (m : Mem) (r : ℕ) : Set ℕ := {p | p ∈ m.free ∨ ∃ P, tableOwn m r P = some p}

theorem mem_region : p ∈ region m r ↔ p ∈ m.free ∨ ∃ P, tableOwn m r P = some p := Iff.rfl

theorem node_cons_eq_some : node m r (i :: P) = some n ↔
    ∃ p, node m r P = some p ∧ (m.word p i).valid = true ∧ (m.word p i).ppn = n := by
  rw [node, bind_eq_some_iff]
  unfold Pte.next
  constructor
  · rintro ⟨p, hp, hn⟩
    split_ifs at hn with hv
    exact ⟨p, hp, hv, some.inj hn⟩
  · rintro ⟨p, hp, hv, rfl⟩
    exact ⟨p, hp, if_pos hv⟩

theorem entry_cons_eq_some : entry m r (k :: P) = some e ↔
    ∃ p, node m r P = some p ∧ (m.word p k).valid = true ∧ m.word p k = e := by
  rw [entry, bind_eq_some_iff]
  constructor
  · rintro ⟨p, hp, hn⟩
    split_ifs at hn with hv
    exact ⟨p, hp, hv, some.inj hn⟩
  · rintro ⟨p, hp, hv, rfl⟩
    exact ⟨p, hp, if_pos hv⟩

theorem node_eq_entry : node m r (k :: P) = (entry m r (k :: P)).map Pte.ppn := by
  rw [node, entry]
  cases node m r P with
  | none => rfl
  | some p =>
    simp only [bind_some, Pte.next]
    split_ifs <;> rfl

theorem tableOwn_of_le (h : P.length ≤ 2) : tableOwn m r P = node m r P := if_pos (.inl h)

theorem tableOwn_of_isUser (h : IsUser Q) : tableOwn m r Q = node m r Q := if_pos (.inr h)

theorem node_of_tableOwn (h : tableOwn m r P = some p) : node m r P = some p := by
  unfold tableOwn at h
  split_ifs at h
  exact h

theorem length_of_tableOwn (h : tableOwn m r P = some p) : P.length ≤ 3 := by
  unfold tableOwn at h
  split_ifs at h with hP
  rcases hP with hP | hP
  · omega
  · exact hP.1.le

/-! ### What a tree depends on -/

theorem node_congr_above {d : ℕ}
    (h : ∀ P p, P.length < d → node m r P = some p → m'.word p = m.word p)
    (hP : P.length ≤ d) : node m' r P = node m r P := by
  induction P with
  | nil => rfl
  | cons i P ih =>
    rw [length_cons] at hP
    rw [node, node, ih (by omega)]
    cases hp : node m r P with
    | none => rfl
    | some p =>
      simp only [bind_some]
      rw [h P p (by omega) hp]

section

variable (h : ∀ P p, P.length ≤ 2 → node m r P = some p → m'.word p = m.word p)

include h

/-- The tree depends on the words of its page-table pages. -/
theorem node_congr (hP : P.length ≤ 3) : node m' r P = node m r P :=
  node_congr_above (fun P p hP hp => h P p (by omega) hp) hP

theorem entry_congr (hQ : Q.length ≤ 3) : entry m' r Q = entry m r Q := by
  cases Q with
  | nil => rfl
  | cons k P =>
    rw [length_cons] at hQ
    rw [entry, entry, node_congr h (by omega)]
    cases hp : node m r P with
    | none => rfl
    | some p =>
      simp only [bind_some]
      rw [h P p (by omega) hp]

theorem tableOwn_congr : tableOwn m' r = tableOwn m r := by
  funext P
  unfold tableOwn
  split_ifs with hP
  · refine node_congr h ?_
    rcases hP with hP | hP
    · omega
    · exact hP.1.le
  · rfl

end

/-! ### Trees in order -/

structure TableOk (m : Mem) (r : ℕ) : Prop where
  nodup : m.free.Nodup
  sound : Ownership.Sound (tableOwn m r) fun p => p ∉ m.free
  /-- An entry for a page-table page has no other flag. -/
  interior : ∀ P p i, P.length < 2 → node m r P = some p → (m.word p i).valid = true →
    (m.word p i).flags = PTE_V

/-- The page-table pages alone: they are different from each other, and not free. -/
structure Distinct (m : Mem) (r : ℕ) : Prop where
  nodup : m.free.Nodup
  unique : ∀ {P Q p}, P.length ≤ 2 → Q.length ≤ 2 → node m r P = some p →
    node m r Q = some p → P = Q
  not_free : ∀ {P p}, P.length ≤ 2 → node m r P = some p → p ∉ m.free
  /-- An entry for a page-table page has no other flag. -/
  interior : ∀ P p i, P.length < 2 → node m r P = some p → (m.word p i).valid = true →
    (m.word p i).flags = PTE_V

namespace TableOk

theorem unique (h : TableOk m r) (hP : P.length ≤ 2) (hQ : Q.length ≤ 2)
    (hp : node m r P = some p) (hq : node m r Q = some p) : P = Q :=
  h.sound.exclusive P Q p ((tableOwn_of_le hP).trans hp) ((tableOwn_of_le hQ).trans hq)

theorem not_free (h : TableOk m r) (hP : P.length ≤ 2) (hp : node m r P = some p) :
    p ∉ m.free := h.sound.good P p ((tableOwn_of_le hP).trans hp)

theorem distinct (h : TableOk m r) : Distinct m r := ⟨h.nodup, h.unique, h.not_free, h.interior⟩

theorem node_mem_region (hP : P.length ≤ 2) (hp : node m r P = some p) : p ∈ region m r :=
  .inr ⟨P, (tableOwn_of_le hP).trans hp⟩

end TableOk

/-- Only the pages of `R` are written. -/
structure Within (m m' : Mem) (R : Set ℕ) : Prop where
  word : ∀ p, p ∉ R → m'.word p = m.word p
  kend : m'.kend = m.kend
  trampoline : m'.trampoline = m.trampoline

namespace Within

theorem refl (m : Mem) (R : Set ℕ) : Within m m R := ⟨fun _ _ => rfl, rfl, rfl⟩

theorem trans (h : Within m m' R) (h' : Within m' m'' R) : Within m m'' R :=
  ⟨fun p hp => (h'.word p hp).trans (h.word p hp), h'.kend.trans h.kend,
    h'.trampoline.trans h.trampoline⟩

theorem mono {S : Set ℕ} (h : Within m m' R) (hRS : R ⊆ S) : Within m m' S :=
  ⟨fun p hp => h.word p fun hR => hp (hRS hR), h.kend, h.trampoline⟩

theorem update {f : Idx → Pte} (hp : p ∈ R) (hw : m'.word = Function.update m.word p f)
    (hk : m'.kend = m.kend) (ht : m'.trampoline = m.trampoline) : Within m m' R :=
  ⟨fun _ hq => by rw [hw, Function.update_of_ne (ne_of_mem_of_not_mem hp hq).symm], hk, ht⟩

theorem set (hp : p ∈ R) (i : Idx) (e : Pte) : Within m (m.set p i e) R := update hp rfl rfl rfl

end Within

/-! ### One entry is written -/

theorem word_set (p q : ℕ) (i j : Idx) (e : Pte) :
    (m.set p i e).word q j = if q = p ∧ j = i then e else m.word q j := by
  unfold Mem.set
  by_cases hq : q = p
  · subst hq
    by_cases hj : j = i
    · subst hj
      simp
    · simp [hj]
  · simp [hq]

section

variable (hd : Distinct m r) (hP : P.length ≤ 2) (hp : node m r P = some p)

include hd hP hp

/-- Entry `i` of the page at path `P` is written.  If it leads to a page-table page, this page is
empty and was not there before. -/
theorem node_set (hdeep : P.length < 2 → ∀ j,
      (e.next.bind fun q => ((m.set p i e).word q j).next) = none ∧ node m r (j :: i :: P) = none)
    (hQ : Q.length ≤ 3) : node (m.set p i e) r Q = if Q = i :: P then e.next else node m r Q := by
  induction Q with
  | nil => rfl
  | cons j Q ih =>
    rw [length_cons] at hQ
    rw [node, ih (by omega)]
    by_cases hQP : Q = i :: P
    · -- below the entry
      subst hQP
      rw [length_cons] at hQ
      have hne : j :: i :: P ≠ i :: P := fun h => by simpa using congrArg length h
      obtain ⟨h1, h2⟩ := hdeep (by omega) j
      rw [if_pos rfl, if_neg hne, h1, h2]
    · rw [if_neg hQP, node]
      cases hq : node m r Q with
      | none =>
        have hne : j :: Q ≠ i :: P := by
          rintro h
          rw [(cons.inj h).2, hp] at hq
          cases hq
        rw [if_neg hne]
        rfl
      | some q =>
        simp only [bind_some, word_set]
        by_cases hqp : q = p
        · have hQeq : Q = P := hd.unique (by omega) hP (hqp ▸ hq) hp
          subst hQeq
          by_cases hj : j = i
          · simp [hqp, hj]
          · simp [hj]
        · have hne : j :: Q ≠ i :: P := by
            rintro h
            rw [(cons.inj h).2, hp] at hq
            exact hqp (some.inj hq).symm
          simp [hqp, hne]

omit hP in
/-- The entries for mapped pages, when such an entry is written. -/
theorem entry_set_leaf (hP : P.length = 2) (hQ : Q.length = 3) :
    entry (m.set p i e) r Q =
      if Q = i :: P then if e.valid then some e else none else entry m r Q := by
  cases Q with
  | nil => cases hQ
  | cons k Q =>
    have hQ' : Q.length = 2 := by simpa using hQ
    have hQP : Q ≠ i :: P := fun h => by
      have := congrArg length h
      rw [length_cons] at this
      omega
    rw [entry, node_set hd hP.le hp (fun h => by omega) (by omega), if_neg hQP, entry]
    cases hq : node m r Q with
    | none =>
      have hne : k :: Q ≠ i :: P := by
        rintro h
        rw [(cons.inj h).2, hp] at hq
        cases hq
      rw [if_neg hne]
      rfl
    | some q =>
      simp only [bind_some, word_set]
      by_cases hqp : q = p
      · have hQeq : Q = P := hd.unique hQ'.le hP.le (hqp ▸ hq) hp
        subst hQeq
        by_cases hk : k = i
        · simp [hqp, hk]
        · simp [hk]
      · have hne : k :: Q ≠ i :: P := by
          rintro h
          rw [(cons.inj h).2, hp] at hq
          exact hqp (some.inj hq).symm
        simp [hqp, hne]

end

end Xv6.Vm
