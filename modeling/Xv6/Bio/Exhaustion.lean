import Xv6.Bio.Blocks

/-!
# Running out of buffers

`bget` finds a buffer as long as there are fewer references than buffers.  Nothing keeps processes
that read files from having more: each has a buffer while it waits for the disk, and there may be
`NPROC` of them, but only `NBUF` buffers.
-/

namespace Xv6.Bcache

open Bio Tally Transition Finset

variable {T D : Type} [DecidableEq T] [Fintype T] {s : Bcache T D} {t : T} {k : Key}
  {data : BufId → D} {disk : BitVec 32 → D} {tr : List (Act T D)}

/-- The references that there are: pins, locks, and threads that wait for a lock or have just given
it back. -/
def busy (s : Bcache T D) : ℕ :=
  ∑ b, s.pins b + (univ.filter fun b => (s.locked b).isSome).card +
    (univ.filter fun t => (s.pos t).ref.isSome).card

omit [DecidableEq T] in
theorem sum_refs (s : Bcache T D) : ∑ b, s.refs b = s.busy := by
  have hlock : ∑ b, lockRef s.locked b =
      ((univ.filter fun b => (s.locked b).isSome).card : ℤ) := by
    unfold lockRef
    rw [sum_boole]
  have hone : ∀ r : Option BufId, ∑ b, ind r b = if r.isSome then 1 else 0 := by
    intro r
    cases r with
    | none => simp
    | some c => simp [ind_some]
  have hpos : ∑ b, (tally s.pos fun p => ind p.ref b) =
      ((univ.filter fun t => (s.pos t).ref.isSome).card : ℤ) := by
    unfold tally
    rw [sum_comm]
    simp only [hone]
    rw [sum_boole]
  unfold refs busy
  rw [sum_add_distrib, sum_add_distrib, hlock, hpos]
  push_cast
  rfl

omit [DecidableEq T] in
/-- With fewer references than buffers, a buffer has none. -/
theorem Counted.exists_free (h : s.Counted) (hbusy : s.busy < NBUF) :
    ∃ b, (s.buf b).refcnt = 0 := by
  by_contra hnone
  have hone : ∀ b ∈ univ, (1 : ℤ) ≤ s.refs b := fun b _ => by
    have hb : (s.buf b).refcnt ≠ 0 := fun hzero => hnone ⟨b, hzero⟩
    rw [← h b]
    omega
  have hsum := sum_le_sum hone
  rw [s.sum_refs, sum_const, card_univ, Fintype.card_fin, nsmul_eq_mul,
    mul_one] at hsum
  omega

/-- **`bget` finds a buffer**, for any calls so far, if there are fewer references than buffers. -/
theorem bget_finds_buffer (h : Reach step Releases (start data disk) tr s)
    (hbusy : s.busy < NBUF) : ∃ s', s.bget t k = .ok s' := by
  have hinv := inv_of_reach h
  obtain ⟨l, hcycle, hall⟩ := hinv.listed
  have hlen := length_le_of_cycle hcycle
  unfold bget
  rw [find_next hcycle hlen]
  cases l.find? fun b => (s.buf b).key = k with
  | some b => exact ⟨_, rfl⟩
  | none =>
    simp only [find_prev hcycle hlen]
    obtain ⟨b, hb⟩ := hinv.counted.exists_free hbusy
    cases hr : l.reverse.find? fun b => (s.buf b).refcnt = 0 with
    | some c => exact ⟨_, rfl⟩
    | none =>
      have hnone := List.find?_eq_none.1 hr b (List.mem_reverse.2 (hall b))
      simp [hb] at hnone

/-- A block is pinned and locked, and a second thread waits for it. -/
def inUse : List (Act (Fin 3) ℕ) :=
  [.bread 0 ⟨1, 5⟩, .go 0, .go 0, .go 0, .go 0, .bpin 0 oldest, .bread 1 ⟨1, 5⟩]

theorem bget_finds_buffer_inUse : ∃ s s' : Bcache (Fin 3) ℕ,
    Reach step Releases (start (fun _ => 0) fun _ => 0) inUse.reverse s ∧ s.busy = 3 ∧
    s.bget 2 ⟨1, 6⟩ = .ok s' := by
  obtain ⟨s, hs, hbusy⟩ :
      ∃ s ∈ runWhen step Releases (start (fun _ => 0) fun _ => 0 : Bcache (Fin 3) ℕ) inUse,
      s.busy = 3 := by decide +kernel
  have hreach := reach_of_runWhen hs
  obtain ⟨s', hs'⟩ := bget_finds_buffer (t := 2) (k := ⟨1, 6⟩) hreach (by rw [hbusy]; decide)
  exact ⟨s, s', hreach, hbusy, hs'⟩

/-- As many readers as there are buffers, each waiting for the disk to read its own block. -/
def readers : List (Act (Fin 31) ℕ) :=
  (List.finRange NBUF).flatMap fun b =>
    [.bread b.castSucc ⟨1, BitVec.ofNat 32 (100 + b.val)⟩, .go b.castSucc, .go b.castSucc]

def panicOf (r : Except Panic (Option (Bcache T D))) : Option Panic :=
  match r with
  | .error e => some e
  | .ok _ => none

/-- The next reader finds no buffer. -/
theorem readers_exhaust_buffers : ∃ s : Bcache (Fin 31) ℕ,
    Reach step Releases (start (fun _ => 0) fun _ => 0) readers.reverse s ∧
    panicOf (s.exec (.bread 30 ⟨1, 130⟩)) = some .noBuffers := by
  obtain ⟨s, hs, heq⟩ :
      ∃ s ∈ runWhen step Releases (start (fun _ => 0) fun _ => 0 : Bcache (Fin 31) ℕ) readers,
      panicOf (s.exec (.bread 30 ⟨1, 130⟩)) = some .noBuffers := by decide +kernel
  exact ⟨s, reach_of_runWhen hs, heq⟩

end Xv6.Bcache
