import Xv6.Bio.Model
import Xv6.Lib.Tally

/-!
# The representation of the buffer cache

`Change` says what each step does.  From it come the invariants: the list goes through all the
buffers, no block is cached twice, `refcnt` counts the references, and a buffer stays what it is for
as long as there are any.
-/

namespace Xv6

open Function List Option

namespace Bio

/-- The buffer that a thread has counted and has no lock of. -/
def Pos.ref : Pos → Option BufId
  | .lockWait b _ | .released b => some b
  | _ => none

/-- The buffer that a thread has locked and is at work with in the cache. -/
def Pos.holds : Pos → Option BufId
  | .got b _ | .read b _ | .filled b _ | .write b => some b
  | _ => none

/-- The buffer that `bread` is about to return, and what it was asked for. -/
def Pos.wants : Pos → Option (BufId × Key)
  | .lockWait b k | .got b k | .read b k | .filled b k => some (b, k)
  | _ => none

theorem Pos.ref_or_holds {p : Pos} {b : BufId} {k : Key} (h : p.wants = some (b, k)) :
    p.ref = some b ∨ p.holds = some b := by
  cases p <;> cases h
  · exact .inl rfl
  · exact .inr rfl
  · exact .inr rfl
  · exact .inr rfl

end Bio

namespace Bcache

open Bio Tally

variable {T D : Type} {s s' : Bcache T D} {a : Act T D} {t u : T} {b c : BufId} {k : Key}

/-! ### The list -/

theorem find_next {l : List BufId} (h : Dlist.Cycle s.link none (l.map some))
    (hlen : l.length ≤ NBUF) (p : BufId → Bool) : find s.link.next p = some (l.find? p) := by
  have hturns : (l.map some).length < NBUF + 1 := by rw [length_map]; omega
  have hscan := h.scan_next (fun x => x.any p) hturns
  rw [find, hscan, map_some, find?_map, show (fun x : Node => x.any p) ∘ some = p from rfl]
  cases l.find? p <;> rfl

theorem find_prev {l : List BufId} (h : Dlist.Cycle s.link none (l.map some))
    (hlen : l.length ≤ NBUF) (p : BufId → Bool) :
    find s.link.prev p = some (l.reverse.find? p) := by
  have hturns : (l.map some).length < NBUF + 1 := by rw [length_map]; omega
  have hscan := h.scan_prev (fun x => x.any p) hturns
  rw [find, hscan, map_some, ← map_reverse, find?_map,
    show (fun x : Node => x.any p) ∘ some = p from rfl]
  cases l.reverse.find? p <;> rfl

/-- The list goes through all the buffers. -/
def Listed (s : Bcache T D) : Prop :=
  ∃ l : List BufId, Dlist.Cycle s.link none (l.map some) ∧ ∀ b, b ∈ l

theorem length_le_of_cycle {k : Dlist.Links Node} {l : List BufId}
    (h : Dlist.Cycle k none (l.map some)) : l.length ≤ NBUF := by
  have hnodup : l.Nodup := (nodup_cons.1 h.nodup).2.of_map some
  simpa using hnodup.length_le_card

theorem binit_cycle (l : List BufId) {k : Dlist.Links Node} {l0 : List BufId}
    (h : Dlist.Cycle k none (l0.map some)) (hl : l.Nodup) (hdis : ∀ b ∈ l, b ∉ l0) :
    Dlist.Cycle (l.foldl (fun k b => k.insert none (some b)) k) none
      ((l.reverse ++ l0).map some) := by
  induction l generalizing k l0 with
  | nil => exact h
  | cons b l ih =>
    obtain ⟨hb, hl⟩ := nodup_cons.1 hl
    rw [reverse_cons, append_assoc, singleton_append, foldl_cons]
    refine ih ?_ hl fun c hc hmem => ?_
    · refine h.insert ?_
      simpa using hdis b mem_cons_self
    · rcases mem_cons.1 hmem with rfl | hmem
      · exact hb hc
      · exact hdis c (mem_cons_of_mem b hc) hmem

theorem listed_start (data : BufId → D) (disk : BitVec 32 → D) :
    (start data disk : Bcache T D).Listed := by
  have hnil : Dlist.Cycle (⟨fun _ => none, fun _ => none⟩ : Dlist.Links Node) none
      (([] : List BufId).map some) := ⟨⟨rfl, rfl⟩, by simp⟩
  have h := binit_cycle (finRange NBUF) hnil (nodup_finRange NBUF) fun _ _ => nofun
  exact ⟨_, h, fun b => by simp⟩

/-- The end of `brelse` puts the buffer in front. -/
theorem Listed.front (h : s.Listed) (b : BufId) :
    ∃ l : List BufId, Dlist.Cycle ((s.link.unlink (some b)).insert none (some b)) none
      (l.map some) ∧ ∀ c, c ∈ l := by
  obtain ⟨l, hcycle, hall⟩ := h
  obtain ⟨l1, l2, rfl⟩ := append_of_mem (hall b)
  rw [map_append, map_cons] at hcycle
  have hnot : some b ∉ none :: (l1.map some ++ l2.map some) := by
    have hnodup := (nodup_middle.1 (nodup_cons.1 hcycle.nodup).2)
    rw [mem_cons, not_or]
    exact ⟨nofun, (nodup_cons.1 hnodup).1⟩
  refine ⟨b :: (l1 ++ l2), ?_, fun c => ?_⟩
  · rw [map_cons, map_append]
    exact hcycle.unlink.insert hnot
  · have hc := hall c
    simp only [mem_append, mem_cons] at hc ⊢
    tauto

/-! ### What a step does -/

section

variable [DecidableEq T]

/-- `s'` is what the action makes of `s`. -/
inductive Change (s : Bcache T D) : Act T D → Bcache T D → Prop
  /-- The block is cached. -/
  | hit (t : T) (b : BufId) (k : Key) : s.pos t = .user → (s.buf b).key = k →
      Change s (.bread t k)
        ((s.setBuf b { s.buf b with refcnt := (s.buf b).refcnt + 1 }).goto t (.lockWait b k))
  /-- A buffer is recycled for the block. -/
  | recycle (t : T) (b : BufId) (k : Key) : s.pos t = .user → (∀ c, (s.buf c).key ≠ k) →
      (s.buf b).refcnt = 0 →
      Change s (.bread t k)
        ({ s.setBuf b ⟨false, k, 1, (s.buf b).data⟩ with
          written := update s.written b none }.goto t (.lockWait b k))
  | lock (t : T) (b : BufId) (k : Key) : s.pos t = .lockWait b k → s.locked b = none →
      Change s (.go t)
        ({ s with locked := update s.locked b (some t) }.goto t (.got b k))
  | ready (t : T) (b : BufId) (k : Key) : s.pos t = .got b k → (s.buf b).valid = true →
      Change s (.go t) (s.goto t .user)
  | miss (t : T) (b : BufId) (k : Key) : s.pos t = .got b k → (s.buf b).valid = false →
      Change s (.go t) (s.goto t (.read b k))
  | fill (t : T) (b : BufId) (k : Key) : s.pos t = .read b k →
      Change s (.go t)
        ((s.setBuf b { s.buf b with data := s.disk (s.buf b).key.blockno }).goto t
          (.filled b k))
  | valid (t : T) (b : BufId) (k : Key) : s.pos t = .filled b k →
      Change s (.go t) ((s.setBuf b { s.buf b with valid := true }).goto t .user)
  | bwrite (t : T) (b : BufId) : s.pos t = .user → s.locked b = some t →
      Change s (.bwrite t b) (s.goto t (.write b))
  | wrote (t : T) (b : BufId) : s.pos t = .write b →
      Change s (.go t)
        ({ s with
          disk := update s.disk (s.buf b).key.blockno (s.buf b).data }.goto t .user)
  | unlock (t : T) (b : BufId) : s.pos t = .user → s.locked b = some t →
      Change s (.brelse t b)
        ({ s with locked := update s.locked b none }.goto t (.released b))
  | drop (t : T) (b : BufId) (link : Dlist.Links Node) : s.pos t = .released b →
      (s.Listed → ∃ l : List BufId, Dlist.Cycle link none (l.map some) ∧ ∀ c, c ∈ l) →
      Change s (.go t)
        { (s.setBuf b { s.buf b with refcnt := (s.buf b).refcnt - 1 }).goto t .user with
          link := link }
  | pin (t : T) (b : BufId) : s.pos t = .user →
      Change s (.bpin t b)
        { s.setBuf b { s.buf b with refcnt := (s.buf b).refcnt + 1 } with
          pins := update s.pins b (s.pins b + 1) }
  | unpin (t : T) (b : BufId) : 0 < s.pins b → s.pos t = .user →
      Change s (.bunpin t b)
        { s.setBuf b { s.buf b with refcnt := (s.buf b).refcnt - 1 } with
          pins := update s.pins b (s.pins b - 1) }
  | store (t : T) (b : BufId) (d : D) : s.pos t = .user → s.locked b = some t →
      Change s (.store t b d)
        { s.setBuf b { s.buf b with data := d } with
          written := update s.written b (some d) }

theorem bget_change (hl : s.Listed) (hpos : s.pos t = .user) (hs : s.bget t k = .ok s') :
    s.Change (.bread t k) s' := by
  obtain ⟨l, hcycle, hall⟩ := hl
  have hlen := length_le_of_cycle hcycle
  unfold bget at hs
  rw [find_next hcycle hlen] at hs
  cases hf : l.find? fun b => (s.buf b).key = k with
  | some b =>
    rw [hf] at hs
    cases hs
    exact .hit t b k hpos (by simpa using find?_some hf)
  | none =>
    rw [hf] at hs
    simp only [find_prev hcycle hlen] at hs
    have hmiss : ∀ c, (s.buf c).key ≠ k := fun c => by
      simpa using find?_eq_none.1 hf c (hall c)
    cases hr : l.reverse.find? fun b => (s.buf b).refcnt = 0 with
    | none =>
      rw [hr] at hs
      cases hs
    | some b =>
      rw [hr] at hs
      cases hs
      exact .recycle t b k hpos hmiss (by simpa using find?_some hr)

theorem go_change (hs : s.go t = some s') : s.Change (.go t) s' := by
  unfold go at hs
  cases hpos : s.pos t <;> rw [hpos] at hs
  case user =>
    cases hs
  case lockWait b k =>
    simp only at hs
    split_ifs at hs with hfree
    cases hs
    exact .lock t b k hpos hfree
  case got b k =>
    cases hs
    split_ifs with hv
    · exact .ready t b k hpos hv
    · exact .miss t b k hpos (Bool.not_eq_true _ ▸ hv)
  case read b k =>
    cases hs
    exact .fill t b k hpos
  case filled b k =>
    cases hs
    exact .valid t b k hpos
  case write b =>
    cases hs
    exact .wrote t b hpos
  case released b =>
    cases hs
    simp only [release]
    split_ifs
    · exact .drop t b _ hpos fun hl => hl.front b
    · exact .drop t b s.link hpos fun hl => hl

theorem step_change (hl : s.Listed) (hr : s.Releases a) (hs : s.step a = some s') :
    s.Change a s' := by
  unfold step at hs
  cases a with
  | bread t k =>
    simp only [exec] at hs
    split_ifs at hs with hpos
    · cases hb : s.bget t k with
      | error e =>
        rw [hb] at hs
        cases hs
      | ok s1 =>
        rw [hb] at hs
        cases hs
        exact bget_change hl hpos hb
    · cases hs
  | go t => exact go_change hs
  | bwrite t b =>
    simp only [exec] at hs
    split_ifs at hs with hpos hlock
    · cases hs
    · cases hs
    · cases hs
      exact .bwrite t b (not_not.1 hpos) (not_not.1 hlock)
  | brelse t b =>
    simp only [exec] at hs
    split_ifs at hs with hpos hlock
    · cases hs
    · cases hs
    · cases hs
      exact .unlock t b (not_not.1 hpos) (not_not.1 hlock)
  | bpin t b =>
    simp only [exec] at hs
    split_ifs at hs with hpos
    · cases hs
      exact .pin t b hpos
    · cases hs
  | bunpin t b =>
    simp only [exec] at hs
    split_ifs at hs with hpos
    · cases hs
      exact .unpin t b hr hpos
    · cases hs
  | store t b d =>
    simp only [exec] at hs
    split_ifs at hs with hpos
    · cases hs
      exact .store t b d hpos.1 hpos.2
    · cases hs

end

/-! ### References -/

section

variable [Fintype T]

/-- One for a buffer that is locked. -/
def lockRef (locked : BufId → Option T) (b : BufId) : ℤ := if (locked b).isSome then 1 else 0

/-- The references to a buffer: pins, its lock, and threads on the way to or from it. -/
def refs (s : Bcache T D) (b : BufId) : ℤ :=
  s.pins b + lockRef s.locked b + tally s.pos fun p => ind p.ref b

/-- `refcnt` counts them. -/
def Counted (s : Bcache T D) : Prop := ∀ b, ((s.buf b).refcnt : ℤ) = s.refs b

theorem tally_ref_nonneg (s : Bcache T D) (b : BufId) :
    0 ≤ tally s.pos fun p => ind p.ref b := tally_nonneg fun _ => ind_nonneg

omit [Fintype T] in
theorem lockRef_nonneg (locked : BufId → Option T) (b : BufId) : 0 ≤ lockRef locked b := by
  unfold lockRef
  split_ifs <;> decide

theorem Counted.pos_of_locked (h : s.Counted) (hl : s.locked b = some t) :
    0 < (s.buf b).refcnt := by
  have hb := h b
  have htally := s.tally_ref_nonneg b
  rw [refs, lockRef, hl, isSome_some, if_pos rfl] at hb
  omega

theorem Counted.pos_of_ref (h : s.Counted) (hr : (s.pos t).ref = some b) :
    0 < (s.buf b).refcnt := by
  have hb := h b
  have hlock := lockRef_nonneg s.locked b
  have hone : 1 ≤ tally s.pos fun p => ind p.ref b :=
    one_le_tally (k := t) (fun _ => ind_nonneg) (by rw [hr, ind_self])
  rw [refs] at hb
  omega

theorem Counted.pos_of_pins (h : s.Counted) (hp : 0 < s.pins b) : 0 < (s.buf b).refcnt := by
  have hb := h b
  have hlock := lockRef_nonneg s.locked b
  have htally := s.tally_ref_nonneg b
  rw [refs] at hb
  omega

omit [Fintype T] in
theorem refcnt_update (s : Bcache T D) (b c : BufId) (v : Buf D) :
    (update s.buf b v c).refcnt =
      update (fun b => (s.buf b).refcnt) b v.refcnt c := by
  by_cases hc : c = b
  · subst hc
    simp
  · simp [hc]

omit [Fintype T] in
theorem lockRef_some (hfree : s.locked b = none) (t : T) (c : BufId) :
    lockRef (update s.locked b (some t)) c = lockRef s.locked c + ind (some b) c := by
  unfold lockRef
  by_cases hc : c = b
  · subst hc
    simp [hfree]
  · simp [hc, ind_some, Ne.symm hc]

omit [Fintype T] in
theorem lockRef_none (hlock : s.locked b = some t) (c : BufId) :
    lockRef (update s.locked b none) c = lockRef s.locked c - ind (some b) c := by
  unfold lockRef
  by_cases hc : c = b
  · subst hc
    simp [hlock]
  · simp [hc, ind_some, Ne.symm hc]

variable [DecidableEq T]

/-- A thread that refers to buffer `q` goes on with a reference to `r`. -/
theorem tally_goto {p p0 : Pos} {q r : Option BufId} (hpos : s.pos t = p0) (hq : p0.ref = q)
    (hr : p.ref = r) (b : BufId) : (tally (update s.pos t p) fun p => ind p.ref b) =
      (tally s.pos fun p => ind p.ref b) + (ind r b - ind q b) := by
  rw [tally_update, hpos, hq, hr]

theorem Counted.step (h : s.Counted) (hc : s.Change a s') : s'.Counted := by
  intro c
  have hold := h c
  rw [refs] at hold
  unfold refs
  cases hc with
  | hit t b k hpos _ =>
    show ((update s.buf b _ c).refcnt : ℤ) = s.pins c + lockRef s.locked c +
      tally (update s.pos t _) _
    rw [refcnt_update, cast_update_succ, tally_goto (q := none) (r := some b) hpos rfl rfl]
    simp only [ind_none]
    omega
  | recycle t b k hpos _ hzero =>
    show ((update s.buf b _ c).refcnt : ℤ) = s.pins c + lockRef s.locked c +
      tally (update s.pos t _) _
    have hone : (1 : ℕ) = (s.buf b).refcnt + 1 := by rw [hzero]
    rw [refcnt_update, hone, cast_update_succ, tally_goto (q := none) (r := some b) hpos rfl rfl]
    simp only [ind_none]
    omega
  | lock t b k hpos hfree =>
    show ((s.buf c).refcnt : ℤ) = s.pins c +
      lockRef (update s.locked b (some t)) c +
      tally (update s.pos t _) _
    rw [lockRef_some hfree, tally_goto (q := some b) (r := none) hpos rfl rfl]
    simp only [ind_none]
    omega
  | ready t b k hpos | miss t b k hpos | bwrite t b hpos _ | wrote t b hpos =>
    show ((s.buf c).refcnt : ℤ) = s.pins c + lockRef s.locked c + tally (update s.pos t _) _
    rw [tally_goto (q := none) (r := none) hpos rfl rfl]
    simp only [ind_none]
    omega
  | fill t b k hpos | valid t b k hpos =>
    show ((update s.buf b _ c).refcnt : ℤ) = s.pins c + lockRef s.locked c +
      tally (update s.pos t _) _
    rw [refcnt_update, update_eq_self, tally_goto (q := none) (r := none) hpos rfl rfl]
    simp only [ind_none]
    omega
  | unlock t b hpos hlock =>
    show ((s.buf c).refcnt : ℤ) = s.pins c +
      lockRef (update s.locked b none) c +
      tally (update s.pos t _) _
    rw [lockRef_none hlock, tally_goto (q := none) (r := some b) hpos rfl rfl]
    simp only [ind_none]
    omega
  | drop t b link hpos _ =>
    show ((update s.buf b _ c).refcnt : ℤ) = s.pins c + lockRef s.locked c +
      tally (update s.pos t _) _
    have href : 0 < (s.buf b).refcnt := h.pos_of_ref (t := t) (by rw [hpos]; rfl)
    rw [refcnt_update, cast_update_pred (n := fun b => (s.buf b).refcnt) href,
      tally_goto (q := some b) (r := none) hpos rfl rfl]
    simp only [ind_none]
    omega
  | pin t b =>
    show ((update s.buf b _ c).refcnt : ℤ) = (update s.pins b _ c : ℕ) +
      lockRef s.locked c + tally s.pos _
    rw [refcnt_update, cast_update_succ, cast_update_succ]
    omega
  | unpin t b hpins =>
    show ((update s.buf b _ c).refcnt : ℤ) = (update s.pins b _ c : ℕ) +
      lockRef s.locked c + tally s.pos _
    have href := h.pos_of_pins hpins
    rw [refcnt_update, cast_update_pred (n := fun b => (s.buf b).refcnt) href,
      cast_update_pred hpins]
    omega
  | store t b d _ _ =>
    show ((update s.buf b _ c).refcnt : ℤ) = s.pins c + lockRef s.locked c + tally s.pos _
    rw [refcnt_update, update_eq_self]
    exact hold

end

end Bcache
end Xv6
