import Mathlib.Data.List.Basic

/-!
# Circular doubly linked lists

Nodes with `next` and `prev`, and one of them as the head of the list.  `Path` says that following
`next` from one node leads through the nodes of a list to another, and `prev` the same way back; a
`Cycle` is a path from the head to itself.  `insert` puts a node behind the head, `unlink` takes one
out, and `scan` is the usual loop from a node until the head is reached.
-/

namespace Dlist

open Function List

/-- The pointers of the nodes. -/
structure Links (N : Type*) where
  next : N → N
  prev : N → N

variable {N : Type*} {k k' : Links N} {a b d h x : N} {l l₁ l₂ : List N}

/-- From `a` through the nodes of the list to `b`, and back. -/
def Path (k : Links N) (a : N) : List N → N → Prop
  | [], b => k.next a = b ∧ k.prev b = a
  | x :: l, b => k.next a = x ∧ k.prev x = a ∧ Path k x l b

structure Cycle (k : Links N) (h : N) (l : List N) : Prop where
  path : Path k h l h
  nodup : (h :: l).Nodup

namespace Path

/-- Only the pointers along the path matter. -/
theorem congr (p : Path k a l b) (hnext : ∀ x ∈ a :: l, k'.next x = k.next x)
    (hprev : ∀ x ∈ l ++ [b], k'.prev x = k.prev x) : Path k' a l b := by
  induction l generalizing a with
  | nil =>
    refine ⟨?_, ?_⟩
    · rw [hnext a mem_cons_self, p.1]
    · rw [hprev b (by simp), p.2]
  | cons x l ih =>
    refine ⟨?_, ?_, ih p.2.2 (fun y hy => ?_) fun y hy => ?_⟩
    · rw [hnext a mem_cons_self, p.1]
    · rw [hprev x mem_cons_self, p.2.1]
    · exact hnext y (mem_cons_of_mem a hy)
    · exact hprev y (mem_cons_of_mem x hy)

theorem append (p : Path k a l₁ x) (q : Path k x l₂ b) : Path k a (l₁ ++ x :: l₂) b := by
  induction l₁ generalizing a with
  | nil => exact ⟨p.1, p.2, q⟩
  | cons y l₁ ih => exact ⟨p.1, p.2.1, ih p.2.2⟩

/-- The way back. -/
theorem reverse (p : Path k a l b) : Path ⟨k.prev, k.next⟩ b l.reverse a := by
  induction l generalizing a with
  | nil => exact ⟨p.2, p.1⟩
  | cons x l ih =>
    rw [reverse_cons]
    exact (ih p.2.2).append ⟨p.2.1, p.1⟩

theorem next_mem (p : Path k a l b) : k.next a ∈ l ++ [b] := by
  cases l with
  | nil =>
    rw [p.1]
    exact mem_singleton_self b
  | cons x l =>
    rw [p.1]
    exact mem_cons_self

/-- Around a node of the path. -/
theorem around (p : Path k a (l₁ ++ x :: l₂) b) : k.prev x ∈ a :: l₁ ∧ k.next x ∈ l₂ ++ [b] := by
  induction l₁ generalizing a with
  | nil =>
    refine ⟨?_, p.2.2.next_mem⟩
    rw [p.2.1]
    exact mem_singleton_self a
  | cons y l₁ ih =>
    obtain ⟨hprev, hnext⟩ := ih p.2.2
    exact ⟨mem_cons_of_mem a hprev, hnext⟩

end Path

section

variable [DecidableEq N]

/-- `b->next->prev = b->prev; b->prev->next = b->next`. -/
def Links.unlink (k : Links N) (b : N) : Links N :=
  let prev := update k.prev (k.next b) (k.prev b)
  ⟨update k.next (prev b) (k.next b), prev⟩

/-- `b->next = h->next; b->prev = h; h->next->prev = b; h->next = b`. -/
def Links.insert (k : Links N) (h b : N) : Links N :=
  let next := update k.next b (k.next h)
  let prev := update k.prev b h
  ⟨update next h b, update prev (next h) b⟩

/-- A node is taken out of a path. -/
theorem Path.unlink (p : Path k a (l₁ ++ b :: l₂) d) (hnodup : (a :: (l₁ ++ b :: l₂)).Nodup)
    (hd : d ∉ l₁ ++ b :: l₂) :
    Path ⟨update k.next (k.prev b) (k.next b),
      update k.prev (k.next b) (k.prev b)⟩ a (l₁ ++ l₂) d := by
  induction l₁ generalizing a with
  | nil =>
    obtain ⟨-, hprev, q⟩ := p
    obtain ⟨ha, hb⟩ := nodup_cons.1 hnodup
    rw [hprev]
    cases l₂ with
    | nil =>
      rw [q.1]
      exact ⟨update_self .., update_self ..⟩
    | cons x l₂ =>
      rw [q.1]
      refine ⟨update_self .., update_self .., q.2.2.congr (fun y hy => ?_)
        fun y hy => ?_⟩
      · refine update_of_ne ?_ ..
        rintro rfl
        exact ha (mem_cons_of_mem b hy)
      · refine update_of_ne ?_ ..
        rintro rfl
        rcases mem_append.1 hy with hy | hy
        · exact (nodup_cons.1 (nodup_cons.1 hb).2).1 hy
        · rw [mem_singleton.1 hy] at hd
          simp at hd
  | cons y l₁ ih =>
    obtain ⟨hnext, hprev, q⟩ := p
    obtain ⟨ha, hrest⟩ := nodup_cons.1 hnodup
    obtain ⟨hpb, hnb⟩ := q.around
    have hsub : ∀ z ∈ y :: l₁, z ∈ y :: (l₁ ++ b :: l₂) := fun z hz => by
      rcases mem_cons.1 hz with rfl | hz
      · exact mem_cons_self
      · exact mem_cons_of_mem y (mem_append_left _ hz)
    refine ⟨?_, ?_, ih q hrest fun hmem => hd (mem_cons_of_mem y hmem)⟩
    · refine (update_of_ne ?_ ..).trans hnext
      rintro rfl
      exact ha (hsub _ hpb)
    · refine (update_of_ne ?_ ..).trans hprev
      rintro rfl
      rcases mem_append.1 hnb with hmem | hmem
      · refine (nodup_cons.1 hrest).1 (mem_append_right l₁ ?_)
        exact mem_cons_of_mem b hmem
      · rw [← mem_singleton.1 hmem] at hd
        exact hd mem_cons_self

theorem Cycle.unlink (c : Cycle k h (l₁ ++ b :: l₂)) : Cycle (k.unlink b) h (l₁ ++ l₂) := by
  obtain ⟨hh, hl⟩ := nodup_cons.1 c.nodup
  have hne : b ≠ k.next b := by
    intro heq
    have hnext := c.path.around.2
    rw [← heq, mem_append, mem_singleton] at hnext
    rcases hnext with hmem | rfl
    · exact (nodup_cons.1 (nodup_append.1 hl).2.1).1 hmem
    · exact hh (mem_append_right l₁ mem_cons_self)
  refine ⟨?_, c.nodup.sublist ?_⟩
  · have hpath := c.path.unlink c.nodup hh
    unfold Links.unlink
    simp only [update_of_ne hne]
    exact hpath
  · exact ((sublist_cons_self b l₂).append_left l₁).cons_cons h

theorem Cycle.insert (c : Cycle k h l) (hb : b ∉ h :: l) : Cycle (k.insert h b) h (b :: l) := by
  rw [mem_cons, not_or] at hb
  obtain ⟨hbh, hbl⟩ := hb
  obtain ⟨hh, hl⟩ := nodup_cons.1 c.nodup
  have hnext : k.next h ≠ b := by
    intro heq
    have hmem := c.path.next_mem
    rw [heq, mem_append, mem_singleton] at hmem
    exact hmem.elim hbl hbh
  refine ⟨?_, ?_⟩
  · unfold Links.insert
    simp only [update_of_ne (Ne.symm hbh)]
    refine ⟨update_self .., ?_, ?_⟩
    · exact (update_of_ne hnext.symm ..).trans (update_self ..)
    · have hb' : update (update k.next b (k.next h)) h b b = k.next h := by
        rw [update_of_ne hbh, update_self]
      have p := c.path
      cases l with
      | nil =>
        refine ⟨hb'.trans p.1, ?_⟩
        simp only [p.1]
        exact update_self ..
      | cons x l =>
        refine ⟨hb'.trans p.1, ?_, p.2.2.congr (fun y hy => ?_) fun y hy => ?_⟩
        · simp only [p.1]
          exact update_self ..
        · have hyh : y ≠ h := fun heq => hh (heq ▸ hy)
          have hyb : y ≠ b := fun heq => hbl (heq ▸ hy)
          exact (update_of_ne hyh ..).trans (update_of_ne hyb ..)
        · have hyb : y ≠ b := by
            rintro rfl
            rcases mem_append.1 hy with hy | hy
            · exact hbl (mem_cons_of_mem x hy)
            · exact hbh (mem_singleton.1 hy)
          have hyx : y ≠ k.next h := by
            rw [p.1]
            rintro rfl
            rcases mem_append.1 hy with hy | hy
            · exact (nodup_cons.1 hl).1 hy
            · exact hh (mem_singleton.1 hy ▸ mem_cons_self)
          exact (update_of_ne hyx ..).trans (update_of_ne hyb ..)
  · refine nodup_cons.2 ⟨?_, nodup_cons.2 ⟨hbl, hl⟩⟩
    rw [mem_cons, not_or]
    exact ⟨Ne.symm hbh, hh⟩

/-! ### Loops over the list -/

/-- `for(x = …; x != h; x = link(x)) if(p(x)) …`: the first node with `p`, if there is one before
`h` is reached.  `none` if this takes more than `turns` turns. -/
def scan (link : N → N) (h : N) (p : N → Bool) : ℕ → N → Option (Option N)
  | 0, _ => none
  | turns + 1, x =>
    if x = h then some none
    else if p x then some (some x)
    else scan link h p turns (link x)

theorem Path.scan (q : Path k a l h) (hh : h ∉ l) (p : N → Bool) {turns : ℕ}
    (hturns : l.length < turns) : scan k.next h p turns (k.next a) = some (l.find? p) := by
  induction l generalizing a turns with
  | nil =>
    obtain ⟨turns, rfl⟩ := Nat.exists_eq_succ_of_ne_zero (Nat.ne_of_gt hturns)
    rw [q.1, Dlist.scan, if_pos rfl]
    rfl
  | cons x l ih =>
    rw [length_cons] at hturns
    obtain ⟨turns, rfl⟩ := Nat.exists_eq_succ_of_ne_zero (Nat.ne_of_gt (Nat.zero_lt_of_lt hturns))
    rw [mem_cons, not_or] at hh
    rw [q.1, Dlist.scan, if_neg (Ne.symm hh.1), find?_cons]
    cases p x with
    | true => rfl
    | false => exact ih q.2.2 hh.2 (Nat.lt_of_succ_lt_succ hturns)

/-- Along `next` from the head. -/
theorem Cycle.scan_next (c : Cycle k h l) (p : N → Bool) {turns : ℕ} (hturns : l.length < turns) :
    scan k.next h p turns (k.next h) = some (l.find? p) :=
  c.path.scan (nodup_cons.1 c.nodup).1 p hturns

/-- Along `prev` from the head. -/
theorem Cycle.scan_prev (c : Cycle k h l) (p : N → Bool) {turns : ℕ} (hturns : l.length < turns) :
    scan k.prev h p turns (k.prev h) = some (l.reverse.find? p) := by
  refine c.path.reverse.scan ?_ p (by rwa [length_reverse])
  rw [mem_reverse]
  exact (nodup_cons.1 c.nodup).1

end

end Dlist
