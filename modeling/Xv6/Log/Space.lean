import Xv6.Log.Group
import Mathlib.Algebra.BigOperators.Group.Finset.Piecewise
import Mathlib.Algebra.Order.BigOperators.Group.Finset

/-!
# Reservation of log space

`begin_op` admits an operation only if `log.lh.n + (log.outstanding + 1) * MAXOPBLOCKS` is at
most `LOGSIZE`.  The log that `mkfs` lays out has `nlog = LOGSIZE` blocks and one of them is the
header, so it holds one block less than `begin_op` counts on, and `log_write` panics when that
many are used.

What an operation may still log is its *reserve*; while operations run, the header in memory and
the reserves together stay within the log.
-/

namespace Xv6.Log

open Function Transition Finset List

/-- `nlog` of `mkfs.c`: the blocks of the on-disk log, the header among them. -/
def nlog : ℤ := LOGSIZE

/-- How many different blocks a list names. -/
def distinct (l : List BlockNo) : ℕ := l.toFinset.card

variable {l : List BlockNo} {b : BlockNo}

theorem distinct_append_of_mem (h : b ∈ l) :
    distinct (l ++ [b]) = distinct l := by
  unfold distinct
  congr 1
  ext a
  simp only [toFinset_append, toFinset_cons, toFinset_nil, mem_union,
    mem_toFinset, mem_insert, notMem_empty, or_false, or_iff_left_iff_imp]
  rintro rfl
  exact h

theorem distinct_append_of_notMem (h : b ∉ l) :
    distinct (l ++ [b]) = distinct l + 1 := by
  unfold distinct
  have hb : b ∉ l.toFinset := by rwa [mem_toFinset]
  have hins : (l ++ [b]).toFinset = insert b l.toFinset := by
    rw [toFinset_append]
    exact union_comm _ _
  rw [hins, card_insert_of_notMem hb]

variable {P : Type} [DecidableEq P]

/-- The step leaves the operation that takes it with at most `m` different blocks logged. -/
def Group.AtMost (m : ℕ) (s : Group P) (a : Act P) : Prop :=
  match a with
  | .logWrite p b =>
    match s.pc p with
    | .op l => distinct (l ++ [b]) ≤ m
    | _ => True
  | _ => True

instance (m : ℕ) (s : Group P) (a : Act P) : Decidable (Group.AtMost m s a) := by
  unfold Group.AtMost
  split
  · split <;> infer_instance
  · infer_instance

/-! ### Reserves -/

/-- The different blocks an operation may still log. -/
def Kind.reserve (m : ℕ) : Kind → ℕ
  | .op l => m - distinct l
  | _ => 0

theorem Kind.reserve_le (m : ℕ) (k : Kind) : k.reserve m ≤ m := by
  cases k <;> simp [reserve]

/-- The reserves of all processes. -/
def reserve (m : ℕ) (κ : P → Kind) : P → ℕ := fun p => (κ p).reserve m

theorem reserve_update (m : ℕ) (κ : P → Kind) (p : P) (k : Kind) :
    reserve m (update κ p k) = update (reserve m κ) p (k.reserve m) :=
  comp_update _ _ _ _

/-- The header in memory and the reserves of the operations leave two of the `LOGSIZE` blocks
over: with `m` below `MAXOPBLOCKS` every admitted operation has left one unused, and an
operation that finds the log empty leaves more. -/
def Reserved (m : ℕ) (o : ℤ) (lh : List BlockNo) (κ : P → Kind) : Prop :=
  ∃ S : Finset P, (∀ p, p ∈ S ↔ ∃ l, κ p = .op l) ∧ (S.card : ℤ) = o ∧
    lh.length + ∑ p ∈ S, reserve m κ p + 2 ≤ LOGSIZE

namespace Reserved

variable {m : ℕ} {o : ℤ} {lh l : List BlockNo} {κ : P → Kind} {p : P}

omit [DecidableEq P] in
theorem length_lt (h : Reserved m o lh κ) : lh.length + 2 ≤ LOGSIZE := by
  obtain ⟨S, -, -, hsum⟩ := h
  omega

omit [DecidableEq P] in
theorem one_le (h : Reserved m o lh κ) (hp : κ p = .op l) : 1 ≤ o := by
  obtain ⟨S, hS, rfl, -⟩ := h
  have : 0 < S.card := card_pos.2 ⟨p, (hS p).2 ⟨l, hp⟩⟩
  omega

/-- `begin_op` returns: what it tested bounds the header and every reserve, the new one
included. -/
theorem enter (h : Reserved m o lh κ) (hm : m < MAXOPBLOCKS) (hp : κ p = .outside)
    (hempty : o = 0 → lh = []) (hroom : (lh.length : ℤ) + (o + 1) * MAXOPBLOCKS ≤ LOGSIZE) :
    Reserved m (o + 1) lh (update κ p (.op [])) := by
  obtain ⟨S, hS, rfl, -⟩ := h
  have hpS : p ∉ S := by rw [hS]; simp [hp]
  refine ⟨insert p S, fun q => ?_, by rw [card_insert_of_notMem hpS]; push_cast; rfl, ?_⟩
  · rw [mem_insert, hS, update_apply]
    split_ifs with hq <;> simp [hq]
  have hnew : (Kind.op []).reserve m = m := by simp [Kind.reserve, distinct]
  rw [sum_insert hpS, reserve_update, update_self,
    sum_update_of_notMem hpS, hnew]
  have hsum : ∑ q ∈ S, reserve m κ q ≤ S.card * m := by
    exact Finset.sum_le_card_nsmul S _ m fun q _ => Kind.reserve_le m (κ q)
  simp only [MAXOPBLOCKS, LOGSIZE] at hm hroom ⊢
  rcases Nat.eq_zero_or_pos S.card with h0 | h0
  · have := hempty (by rw [h0]; rfl)
    subst this
    rw [h0] at hsum
    simp only [length_nil]
    omega
  · have hle : S.card * m ≤ S.card * 9 := Nat.mul_le_mul_left _ (by omega)
    push_cast at hroom
    omega

/-- `log_write`: a block that is new in the header is new to the operation, which pays for it. -/
theorem log (h : Reserved m o lh κ) (hp : κ p = .op l)
    (hlogged : b ∈ l → b ∈ lh) (hm : distinct (l ++ [b]) ≤ m) :
    Reserved m o (if b ∈ lh then lh else lh ++ [b]) (update κ p (.op (l ++ [b]))) := by
  obtain ⟨S, hS, rfl, hsum⟩ := h
  have hpS : p ∈ S := (hS p).2 ⟨l, hp⟩
  refine ⟨S, fun q => ?_, rfl, ?_⟩
  · rw [hS, update_apply]
    split_ifs with hq
    · subst hq; simp [hp]
    · rfl
  rw [reserve_update, sum_update_of_mem hpS]
  rw [← sum_sdiff (singleton_subset_iff.2 hpS), Finset.sum_singleton] at hsum
  have hold : reserve m κ p = m - distinct l := by simp [reserve, Kind.reserve, hp]
  have hnew : (Kind.op (l ++ [b])).reserve m = m - distinct (l ++ [b]) := rfl
  rw [hold] at hsum
  rw [hnew]
  by_cases hb : b ∈ l
  · rw [if_pos (hlogged hb), distinct_append_of_mem hb]
    omega
  · have hd := distinct_append_of_notMem hb
    rw [hd] at hm
    rw [hd]
    split_ifs
    · omega
    · rw [length_append, length_singleton]
      omega

/-- `end_op`: the rest of the reserve is given back. -/
theorem leave (h : Reserved m o lh κ) (hp : κ p = .op l) {k : Kind} (hk : ∀ l, k ≠ .op l) :
    Reserved m (o - 1) lh (update κ p k) := by
  obtain ⟨S, hS, rfl, hsum⟩ := h
  have hpS : p ∈ S := (hS p).2 ⟨l, hp⟩
  refine ⟨S.erase p, fun q => ?_, ?_, ?_⟩
  · rw [mem_erase, hS, update_apply]
    split_ifs with hq <;> simp [hq, hk]
  · have := card_erase_add_one hpS
    omega
  · rw [reserve_update, sum_update_of_notMem (notMem_erase p S)]
    have := sum_le_sum_of_subset (f := reserve m κ) (Finset.erase_subset p S)
    omega

/-- A process that is in no operation has no reserve; the header may become shorter. -/
theorem keep (h : Reserved m o lh κ) (hp : ∀ l, κ p ≠ .op l) {k : Kind} (hk : ∀ l, k ≠ .op l)
    {lh' : List BlockNo} (hlen : lh'.length ≤ lh.length) : Reserved m o lh' (update κ p k) := by
  obtain ⟨S, hS, rfl, hsum⟩ := h
  have hpS : p ∉ S := by rw [hS]; simp [hp]
  refine ⟨S, fun q => ?_, rfl, ?_⟩
  · rw [hS, update_apply]
    split_ifs with hq
    · subst hq; simp [hp, hk]
    · rfl
  · rw [reserve_update, sum_update_of_notMem hpS]
    omega

end Reserved

/-! ### The invariant -/

namespace Group

/-- There is room in the log for whatever the admitted operations may still log. -/
structure Room (m : ℕ) (s : Group P) : Prop where
  inv : Inv s
  reserved : Reserved m s.outstanding s.lh s.kind
  drained : s.committing = false → s.outstanding = 0 → s.lh = [] -- A group starts with an empty log
  /-- The last steps of `commit` have an empty header in memory. -/
  erased : ∀ p, s.pc p = .eraseHead ∨ s.pc p = .finish → s.lh = []
  noPanic : s.panic = none

variable {m : ℕ} {s s' : Group P} {p : P}

omit [DecidableEq P] in
theorem room_init : Room m (init : Group P) where
  inv := inv_init
  reserved :=
    ⟨∅, by simp [kind, init, Pc.kind], by simp [init], by simp [init, LOGSIZE, MAXOPBLOCKS]⟩
  drained := fun _ _ => rfl
  erased := fun _ _ => rfl
  noPanic := rfl

omit [DecidableEq P] in
/-- `wakeup` moves no process into the last steps of `commit`. -/
theorem pc_wakeup_last (q : P) (h : s.wakeup.pc q = .eraseHead ∨ s.wakeup.pc q = .finish) :
    s.pc q = .eraseHead ∨ s.pc q = .finish := by
  simp only [wakeup] at h
  split_ifs at h with hq
  · simp at h
  · exact h

/-- After a move of `p`, a process in the last steps of `commit` was there before or is `p`. -/
theorem pc_goto_last {pc : Pc} {q : P}
    (h : (s.goto p pc).pc q = .eraseHead ∨ (s.goto p pc).pc q = .finish) :
    (s.pc q = .eraseHead ∨ s.pc q = .finish) ∨ pc = .eraseHead ∨ pc = .finish := by
  simp only [goto, update_apply] at h
  split_ifs at h
  · exact Or.inr h
  · exact Or.inl h

theorem Room.goto (h : Room m s) {pc : Pc} (hk : s.kind p = pc.kind)
    (hlast : pc = .eraseHead ∨ pc = .finish → s.lh = []) : Room m (s.goto p pc) where
  inv := h.inv.goto hk
  reserved := by
    rw [kind_goto, ← hk, update_eq_self]
    exact h.reserved
  drained := h.drained
  erased := fun q hq => (pc_goto_last hq).elim (h.erased q) hlast
  noPanic := h.noPanic

theorem room_beginOp (hm : m < MAXOPBLOCKS) (h : Room m s) (hp : s.kind p = .outside) :
    Room m (s.beginOp p) := by
  have hinv := inv_beginOp h.inv hp
  unfold beginOp at hinv ⊢
  by_cases hc : s.committing
  · rw [if_pos hc]
    exact h.goto hp (by simp)
  rw [if_neg hc] at hinv ⊢
  by_cases hfull : (s.lh.length : ℤ) + (s.outstanding + 1) * MAXOPBLOCKS > LOGSIZE
  · rw [if_pos hfull]
    exact h.goto hp (by simp)
  rw [if_neg hfull] at hinv ⊢
  rw [Bool.not_eq_true] at hc
  refine ⟨hinv, ?_, ?_, ?_, h.noPanic⟩
  · rw [kind_goto]
    exact h.reserved.enter hm hp (h.drained hc) (not_lt.1 hfull)
  · intro _ ho
    obtain ⟨S, -, hcard, -⟩ := h.reserved
    have ho' : s.outstanding + 1 = 0 := ho
    omega
  · intro q hq
    exact (pc_goto_last hq).elim (h.erased q) (by simp)

/-- No `log_write` of an operation that stays within its reserve panics. -/
theorem room_logWrite (h : Room m s) (hp : s.kind p = .op l)
    (hm : distinct (l ++ [b]) ≤ m) : Room m (s.logWrite nlog p l b) := by
  have hinv := inv_logWrite nlog h.inv hp b
  have hlt := h.reserved.length_lt
  have hone := h.reserved.one_le hp
  have hbig : ¬ (LOGSIZE ≤ s.lh.length ∨ nlog - 1 ≤ s.lh.length) := by
    unfold nlog
    omega
  have hc := h.inv.core.committing_of_op hp
  have hni : ∀ q, s.kind q ≠ .install := by
    have hcore := h.inv.core
    rw [hc] at hcore
    exact hcore.ne_install
  unfold logWrite at hinv ⊢
  rw [if_neg hbig, if_neg (by omega)] at hinv ⊢
  refine ⟨hinv, ?_, ?_, ?_, h.noPanic⟩
  · rw [kind_goto]
    refine h.reserved.log hp (fun hb => ?_) hm
    exact (h.inv.core.blocks hni b).2 (Or.inr ⟨p, l, hp, hb⟩)
  · intro _ ho
    have ho' : s.outstanding = 0 := ho
    omega
  · -- no process is in `commit` while an operation runs
    intro q hq
    rcases pc_goto_last hq with hq | hq
    · have hcom : (s.kind q).Commits := by
        have hq : s.pc q = .eraseHead ∨ s.pc q = .finish := hq
        rcases hq with hq | hq <;> simp [kind, hq, Pc.kind, Kind.Commits]
      have := h.inv.core.committing.2 ⟨q, hcom⟩
      rw [hc] at this
      cases this
    · simp at hq

theorem room_endOp (h : Room m s) (hp : s.kind p = .op l) :
    Room m (s.endOp p l) := by
  have hinv := inv_endOp h.inv hp
  have hc := h.inv.core.committing_of_op hp
  unfold endOp at hinv ⊢
  simp only [hc, Bool.false_eq_true, if_false] at hinv ⊢
  by_cases ho : s.outstanding - 1 = 0
  · rw [if_pos ho] at hinv ⊢
    refine ⟨hinv, ?_, ?_, ?_, h.noPanic⟩
    · rw [kind_goto]
      exact h.reserved.leave hp (by simp [Pc.kind])
    · intro hf
      cases hf
    · intro q hq
      exact (pc_goto_last hq).elim (h.erased q) (by simp)
  · rw [if_neg ho] at hinv ⊢
    refine ⟨hinv, ?_, fun _ h0 => absurd h0 ho, ?_, h.noPanic⟩
    · rw [kind_goto, kind_wakeup]
      exact h.reserved.leave hp (by simp [Pc.kind])
    · intro q hq
      exact (pc_goto_last hq).elim (fun hq => h.erased q (pc_wakeup_last q hq)) (by simp)

theorem room_commitStep (h : Room m s) (hs : s.commitStep p = some s') : Room m s' := by
  have hinv := inv_commitStep h.inv hs
  unfold commitStep at hs
  cases hpc : s.pc p with
  | commit =>
    rw [hpc] at hs
    cases hs
    refine h.goto (by split_ifs <;> simp [kind, hpc, Pc.kind]) fun hlast => ?_
    split_ifs at hlast with h0
    · simp at hlast
    · exact length_eq_zero_iff.1 (by omega)
  | writeLog tail | install tail =>
    rw [hpc] at hs
    cases hs
    exact h.goto (by split_ifs <;> simp [kind, hpc, Pc.kind]) (by split_ifs <;> simp)
  | writeHead =>
    rw [hpc] at hs
    cases hs
    refine ⟨hinv, ?_, h.drained, ?_, h.noPanic⟩
    · rw [kind_goto]
      exact h.reserved.keep (by simp [kind, hpc, Pc.kind]) (by simp [Pc.kind]) le_rfl
    · intro q hq
      exact (pc_goto_last hq).elim (h.erased q) (by simp)
  | clear =>
    rw [hpc] at hs
    cases hs
    refine ⟨hinv, ?_, fun _ _ => rfl, fun _ _ => rfl, h.noPanic⟩
    rw [kind_goto]
    exact h.reserved.keep (by simp [kind, hpc, Pc.kind]) (by simp [Pc.kind]) (Nat.zero_le _)
  | eraseHead =>
    rw [hpc] at hs
    cases hs
    exact h.goto (by simp [kind, hpc, Pc.kind]) fun _ => h.erased p (Or.inl hpc)
  | finish =>
    rw [hpc] at hs
    cases hs
    have hlh := h.erased p (Or.inr hpc)
    refine ⟨hinv, ?_, fun _ _ => hlh, fun _ _ => hlh, h.noPanic⟩
    rw [kind_goto, kind_wakeup]
    exact h.reserved.keep (by simp [kind, hpc, Pc.kind]) (by simp [Pc.kind]) le_rfl
  | idle | begin | asleep | op l => simp [hpc] at hs

theorem room_step (hm : m < MAXOPBLOCKS) (h : Room m s) (a : Act P) (hG : AtMost m s a)
    (hs : step nlog s a = some s') : Room m s' := by
  unfold step at hs
  split_ifs at hs
  cases a with
  | beginOp q =>
    simp only at hs
    split_ifs at hs with hq
    cases hs
    exact h.goto (by simp [kind, hq, Pc.kind]) (by simp)
  | tryBegin q =>
    simp only at hs
    split_ifs at hs with hq
    cases hs
    exact room_beginOp hm h (by simp [kind, hq, Pc.kind])
  | logWrite q b =>
    simp only at hs
    split at hs
    · rename_i l hq
      cases hs
      simp only [AtMost, hq] at hG
      exact room_logWrite h (by simp [kind, hq, Pc.kind]) hG
    · cases hs
  | endOp q =>
    simp only at hs
    split at hs
    · rename_i l hq
      cases hs
      exact room_endOp h (by simp [kind, hq, Pc.kind])
    · cases hs
  | commitStep q => exact room_commitStep h hs

/-- **Log space.** On the log `mkfs` writes, in every run whose operations each log fewer than
`MAXOPBLOCKS` different blocks, `log_write` reaches none of its panics and the header never
names more blocks than the on-disk log holds beside it. -/
theorem log_space_reserved {tr : List (Act P)}
    (h : Reach (step nlog) (AtMost (MAXOPBLOCKS - 1)) init tr s) :
    s.panic = none ∧ (s.lh.length : ℤ) ≤ nlog - 1 := by
  have hroom : Room (MAXOPBLOCKS - 1) s :=
    h.state_invariant room_init fun s a s' hi hG hs => room_step (by decide) hi a hG hs
  refine ⟨hroom.noPanic, ?_⟩
  have := hroom.reserved.length_lt
  unfold nlog
  omega

/-- Three operations begin. -/
def threeBegin : List (Act (Fin 3)) :=
  (finRange 3).flatMap fun p => [.beginOp p, .tryBegin p]

/-- Each of the three logs `k` blocks that nobody else logs. -/
def threeLog (k : ℕ) : List (Act (Fin 3)) :=
  (finRange 3).flatMap fun p => (List.range k).map fun i => .logWrite p (100 * p.val + i)

theorem log_space_reserved_nine :
    ∃ s, runWhen (step nlog) (AtMost (MAXOPBLOCKS - 1)) init (threeBegin ++ threeLog 9)
        = some s ∧
      s.lh.length = 27 ∧ s.panic = none ∧ (s.lh.length : ℤ) ≤ nlog - 1 := by
  obtain ⟨s, hs, hlen⟩ :
      ∃ s ∈ runWhen (step nlog) (AtMost (MAXOPBLOCKS - 1)) init (threeBegin ++ threeLog 9),
      s.lh.length = 27 := by decide
  exact ⟨s, hs, hlen, log_space_reserved (reach_of_runWhen hs)⟩

/-- Three operations that log `MAXOPBLOCKS` blocks each are admitted together, and the last
`log_write` panics. -/
theorem log_write_too_big :
    ∃ tr s, Reach (step nlog) (AtMost MAXOPBLOCKS) (init : Group (Fin 3)) tr s ∧
      s.panic = some .tooBig := by
  obtain ⟨s, hs, hp⟩ :
      ∃ s ∈ runWhen (step nlog) (AtMost MAXOPBLOCKS) init (threeBegin ++ threeLog 10),
      s.panic = some .tooBig := by decide
  exact ⟨_, s, reach_of_runWhen hs, hp⟩

end Group

end Xv6.Log
