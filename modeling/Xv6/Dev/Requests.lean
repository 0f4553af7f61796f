import Xv6.Dev.Virtio
import Xv6.Lib.Outcome

/-!
# Requests in flight

The chains of the requests that the device has been told of are disjoint, and their descriptors are
the ones that are not free.  The head of a chain goes from the avail ring through the device to the
used ring, and from there to `virtio_disk_intr`, which clears `b->disk` of the buffer of that
request; it is in exactly one of these places until then.
-/

namespace Xv6.Virtio

open Function List Chain Pos Option

variable {T B : Type} {s s' : Virtio T B}

/-- The chain is linked in the descriptor table. -/
structure Chain.Linked (c : Chain) (desc : ℕ → Desc) : Prop where
  first : (desc c.i0).flags &&& descNext ≠ 0 ∧ (desc c.i0).next = c.i1
  second : (desc c.i1).flags &&& descNext ≠ 0 ∧ (desc c.i1).next = c.i2
  third : (desc c.i2).flags &&& descNext = 0

/-- Thread `t` waits for a request with buffer `b` and chain `c`. -/
def Flight (s : Virtio T B) (t : T) (b : B) (c : Chain) : Prop := (s.pos t).flight = some (b, c)

/-- `as` are the heads in the avail ring, `us` those in the used ring. -/
structure Inv (s : Virtio T B) (as us : List ℕ) : Prop where
  avail : Ring.Holds NUM s.avail s.devIdx s.availIdx as
  used : Ring.Holds NUM s.used s.seen s.usedIdx us
  nodup : (as ++ s.taken ++ us).Nodup
  /-- A head in one of the places belongs to a request that is not done. -/
  head : ∀ i ∈ as ++ s.taken ++ us, ∃ t b c, s.Flight t b c ∧ c.i0 = i ∧ s.disk b = true
  /-- A request that is not done has its head in one of the places. -/
  placed : ∀ t b c, s.Flight t b c → s.disk b = true → c.i0 ∈ as ++ s.taken ++ us
  completed : ∀ t b c, s.Flight t b c → (s.completed t = true ↔ c.i0 ∈ us ∨ s.disk b = false)
  linked : ∀ t b c, s.Flight t b c → c.Linked s.desc
  chain : ∀ t b c, s.Flight t b c → c.list.Nodup ∧ ∀ i ∈ c.list, i < NUM
  info : ∀ t b c, s.Flight t b c →
    (s.info c.i0).b = some b ∧ (s.completed t = true → (s.info c.i0).status = 0)
  disjoint : ∀ t u b b' c c', s.Flight t b c → s.Flight u b' c' → t ≠ u → c.list.Disjoint c'.list
  free : ∀ i < NUM, s.free i = false ↔ ∃ t b c, s.Flight t b c ∧ i ∈ c.list
  bufs : ∀ t u b, (s.pos t).buf = some b → (s.pos u).buf = some b → t = u

theorem num_dvd : NUM ∣ 2 ^ 16 := by decide

theorem num_lt : NUM < 2 ^ 16 := by decide

theorem Chain.i0_mem (c : Chain) : c.i0 ∈ c.list := mem_cons_self

theorem Pos.buf_of_flight {p : Pos B} {b : B} {c : Chain} (h : p.flight = some (b, c)) :
    p.buf = some b := by
  cases p <;> cases h <;> rfl

theorem Pos.buf_eq_none {p : Pos B} : p.buf = none ↔ p = .idle := by
  cases p <;> simp [buf]

theorem Chain.Linked.congr {c : Chain} {desc desc' : ℕ → Desc} (h : c.Linked desc)
    (heq : ∀ i ∈ c.list, desc' i = desc i) : c.Linked desc' := by
  have h0 : desc' c.i0 = desc c.i0 := heq _ (by simp [list])
  have h1 : desc' c.i1 = desc c.i1 := heq _ (by simp [list])
  have h2 : desc' c.i2 = desc c.i2 := heq _ (by simp [list])
  refine ⟨?_, ?_, ?_⟩
  · rw [h0]
    exact h.first
  · rw [h1]
    exact h.second
  · rw [h2]
    exact h.third

theorem inv_start (a u : BitVec 16) : (start a u : Virtio T B).Inv [] [] where
  avail := Ring.holds_nil a
  used := Ring.holds_nil u
  nodup := nodup_nil
  head _ hi := absurd hi not_mem_nil
  placed _ _ _ h := nomatch h
  completed _ _ _ h := nomatch h
  linked _ _ _ h := nomatch h
  chain _ _ _ h := nomatch h
  info _ _ _ h := nomatch h
  disjoint _ _ _ _ _ _ h := nomatch h
  free _ _ := by
    refine ⟨(fun h => nomatch h), ?_⟩
    rintro ⟨t, b, c, h, -⟩
    cases h
  bufs _ _ _ h := nomatch h

/-- A list of different numbers below `n` that lacks one of them is shorter than `n`. -/
theorem length_lt_of_nodup {l : List ℕ} {n i : ℕ} (hl : l.Nodup) (hlt : ∀ j ∈ l, j < n) (hi : i < n)
    (hnot : i ∉ l) : l.length < n := by
  have hnodup : (i :: l).Nodup := nodup_cons.2 ⟨hnot, hl⟩
  have hsub : (i :: l).toFinset ⊆ Finset.range n := by
    intro j hj
    rcases mem_cons.1 (List.mem_toFinset.1 hj) with rfl | hj
    · exact Finset.mem_range.2 hi
    · exact Finset.mem_range.2 (hlt j hj)
  have hcard := Finset.card_le_card hsub
  rw [toFinset_card_of_nodup hnodup, Finset.card_range, length_cons] at hcard
  exact hcard

namespace Inv

variable {as us : List ℕ} {t u : T} {b b' : B} {c c' : Chain}

theorem flight_unique (h : s.Inv as us) {i : ℕ} (ht : s.Flight t b c) (hu : s.Flight u b' c')
    (hi : i ∈ c.list) (hi' : i ∈ c'.list) : t = u ∧ b = b' ∧ c = c' := by
  have htu : t = u := by
    by_contra hne
    exact h.disjoint t u b b' c c' ht hu hne hi hi'
  subst htu
  cases ht.symm.trans hu
  exact ⟨rfl, rfl, rfl⟩

theorem head_lt (h : s.Inv as us) {i : ℕ} (hi : i ∈ as ++ s.taken ++ us) : i < NUM := by
  obtain ⟨t, b, c, hf, rfl, -⟩ := h.head i hi
  exact (h.chain t b c hf).2 _ c.i0_mem

theorem not_mem_of_free (h : s.Inv as us) {i : ℕ} (hi : i < NUM) (hfree : s.free i = true)
    (ht : s.Flight t b c) : i ∉ c.list := by
  intro hmem
  have hnot := (h.free i hi).2 ⟨t, b, c, ht, hmem⟩
  rw [hfree] at hnot
  cases hnot

/-- Nothing changes but the lock, free descriptors, and positions with the same requests and
buffers. -/
theorem move (h : s.Inv as us)
    (hrest : { s with pos := s'.pos, lock := s'.lock, desc := s'.desc } = s')
    (hdesc : ∀ i < NUM, s.free i = false → s'.desc i = s.desc i)
    (hpos : ∀ t, (s'.pos t).flight = (s.pos t).flight)
    (hbuf : ∀ t u b, (s'.pos t).buf = some b → (s'.pos u).buf = some b → t = u) :
    s'.Inv as us := by
  have hflight : ∀ t b c, s'.Flight t b c ↔ s.Flight t b c := fun t b c => by
    unfold Flight
    rw [hpos]
  have hlinked : ∀ t b c, s.Flight t b c → c.Linked s'.desc := fun t b c hf => by
    refine (h.linked t b c hf).congr fun i hi => hdesc i ((h.chain t b c hf).2 i hi) ?_
    exact (h.free i ((h.chain t b c hf).2 i hi)).2 ⟨t, b, c, hf, hi⟩
  rw [← hrest] at hflight hlinked ⊢
  exact
    { avail := h.avail
      used := h.used
      nodup := h.nodup
      head := fun i hi => by
        obtain ⟨t, b, c, hf, hrest⟩ := h.head i hi
        exact ⟨t, b, c, (hflight t b c).2 hf, hrest⟩
      placed := fun t b c hf => h.placed t b c ((hflight t b c).1 hf)
      completed := fun t b c hf => h.completed t b c ((hflight t b c).1 hf)
      linked := fun t b c hf => hlinked t b c ((hflight t b c).1 hf)
      chain := fun t b c hf => h.chain t b c ((hflight t b c).1 hf)
      info := fun t b c hf => h.info t b c ((hflight t b c).1 hf)
      disjoint := fun t u b b' c c' ht hu =>
        h.disjoint t u b b' c c' ((hflight t b c).1 ht) ((hflight u b' c').1 hu)
      free := fun i hi => by
        refine (h.free i hi).trans ⟨?_, ?_⟩
        · rintro ⟨t, b, c, hf, hmem⟩
          exact ⟨t, b, c, (hflight t b c).2 hf, hmem⟩
        · rintro ⟨t, b, c, hf, hmem⟩
          exact ⟨t, b, c, (hflight t b c).1 hf, hmem⟩
      bufs := hbuf }

end Inv

/-! ### Descriptors -/

theorem Pos.flight_wakeFree (p : Pos B) : p.wakeFree.flight = p.flight := by
  cases p <;> rfl

theorem Pos.buf_wakeFree (p : Pos B) : p.wakeFree.buf = p.buf := by
  cases p <;> rfl

/-- The descriptors `l` have been freed. -/
structure Freed (s s' : Virtio T B) (l : List ℕ) : Prop where
  rest : s' = { s with desc := s'.desc, free := s'.free, pos := s'.pos }
  desc : ∀ i, i ∉ l → s'.desc i = s.desc i
  isFree : ∀ i ∈ l, s'.free i = true
  free : ∀ i, i ∉ l → s'.free i = s.free i
  flight : ∀ t, (s'.pos t).flight = (s.pos t).flight
  buf : ∀ t, (s'.pos t).buf = (s.pos t).buf

theorem Freed.trans {u : Virtio T B} {l l' : List ℕ} (h : Freed s s' l) (h' : Freed s' u l') :
    Freed s u (l ++ l') where
  rest := by
    rw [h'.rest, h.rest]
  desc i hi := by
    rw [mem_append, not_or] at hi
    rw [h'.desc i hi.2, h.desc i hi.1]
  isFree i hi := by
    by_cases hi' : i ∈ l'
    · exact h'.isFree i hi'
    · rw [h'.free i hi']
      exact h.isFree i ((mem_append.1 hi).resolve_right hi')
  free i hi := by
    rw [mem_append, not_or] at hi
    rw [h'.free i hi.2, h.free i hi.1]
  flight t := (h'.flight t).trans (h.flight t)
  buf t := (h'.buf t).trans (h.buf t)

theorem freeDesc_spec {i : ℕ} (hi : i < NUM) (hfree : s.free i = false) :
    ∃ s', s.freeDesc i = .ok s' ∧ Freed s s' [i] := by
  refine ⟨_, by rw [freeDesc, if_neg (not_le.2 hi), hfree]; rfl, rfl, fun j hj => ?_,
    fun j hj => ?_, fun j hj => ?_, fun t => flight_wakeFree _, fun t => buf_wakeFree _⟩
  · exact update_of_ne (fun heq => hj (mem_singleton.2 heq)) ..
  · rw [mem_singleton.1 hj]
    exact update_self ..
  · exact update_of_ne (fun heq => hj (mem_singleton.2 heq)) ..

/-- `free_chain` on a chain. -/
theorem freeChain_spec {c : Chain} (hl : c.Linked s.desc) (hn : c.list.Nodup)
    (hlt : ∀ i ∈ c.list, i < NUM) (hfree : ∀ i ∈ c.list, s.free i = false) :
    ∃ s', freeChain NUM s c.i0 = .ok s' ∧ Freed s s' c.list := by
  have hmem0 : c.i0 ∈ c.list := by simp [list]
  have hmem1 : c.i1 ∈ c.list := by simp [list]
  have hmem2 : c.i2 ∈ c.list := by simp [list]
  have hne : c.i0 ≠ c.i1 ∧ c.i0 ≠ c.i2 ∧ c.i1 ≠ c.i2 := by
    simpa [list, and_assoc] using hn
  obtain ⟨hne01, hne02, hne12⟩ := hne
  obtain ⟨s1, hs1, hf1⟩ := freeDesc_spec (hlt _ hmem0) (hfree _ hmem0)
  have hfree1 : s1.free c.i1 = false := by
    rw [hf1.free _ (by simpa using hne01.symm), hfree _ hmem1]
  obtain ⟨s2, hs2, hf2⟩ := freeDesc_spec (hlt _ hmem1) hfree1
  have hf12 := hf1.trans hf2
  have hfree2 : s2.free c.i2 = false := by
    rw [hf12.free _ (by simp [hne02.symm, hne12.symm]), hfree _ hmem2]
  obtain ⟨s3, hs3, hf3⟩ := freeDesc_spec (hlt _ hmem2) hfree2
  have hd1 : s1.desc c.i1 = s.desc c.i1 := hf1.desc _ (by simpa using hne01.symm)
  have hd2 : s2.desc c.i2 = s.desc c.i2 := hf12.desc _ (by simp [hne02.symm, hne12.symm])
  refine ⟨s3, ?_, hf12.trans hf3⟩
  -- three turns of the loop
  show freeChain 8 s c.i0 = .ok s3
  rw [freeChain]
  simp only [hs1, Except.bind, if_pos hl.first.1, hl.first.2]
  rw [freeChain]
  simp only [hs2, Except.bind, hd1, if_pos hl.second.1, hl.second.2]
  rw [freeChain]
  simp only [hs3, Except.bind, hd2, hl.third, ne_eq, not_true_eq_false, if_false]

theorem allocDesc_spec {i : ℕ} (h : s.allocDesc = some (i, s')) :
    i < NUM ∧ s.free i = true ∧ s' = { s with free := update s.free i false } := by
  obtain ⟨j, hj, heq⟩ := map_eq_some_iff.1 h
  cases heq
  exact ⟨mem_range.1 (mem_of_find?_eq_some hj), find?_some hj, rfl⟩

/-- A failed `alloc3_desc` gives back what it has taken. -/
structure Undone (s s' : Virtio T B) : Prop where
  rest : { s with desc := s'.desc, pos := s'.pos } = s'
  desc : ∀ i, s.free i = false → s'.desc i = s.desc i
  flight : ∀ t, (s'.pos t).flight = (s.pos t).flight
  buf : ∀ t, (s'.pos t).buf = (s.pos t).buf

theorem Freed.undone {free : ℕ → Bool} {l : List ℕ} (h : Freed { s with free := free } s' l)
    (hl : ∀ i ∈ l, s.free i = true) (hfree : ∀ i, i ∉ l → free i = s.free i) : Undone s s' where
  rest := by
    have hsame : s'.free = s.free := by
      funext i
      by_cases hi : i ∈ l
      · rw [h.isFree i hi, hl i hi]
      · exact (h.free i hi).trans (hfree i hi)
    have hrest := h.rest
    rw [hsame] at hrest
    exact hrest.symm
  desc i hi := h.desc i fun hmem => by
    rw [hl i hmem] at hi
    cases hi
  flight := h.flight
  buf := h.buf

/-- `alloc3_desc`: three different free descriptors are taken, or none. -/
theorem alloc3Desc_spec (s : Virtio T B) :
    (∃ c, c.list.Nodup ∧ (∀ i ∈ c.list, i < NUM ∧ s.free i = true) ∧
      s.alloc3Desc =
        .ok (some c, { s with free := fun i => if i ∈ c.list then false else s.free i })) ∨
    ∃ s', s.alloc3Desc = .ok (none, s') ∧ Undone s s' := by
  unfold alloc3Desc
  cases h0 : s.allocDesc with
  | none => exact .inr ⟨s, rfl, rfl, fun _ _ => rfl, fun _ => rfl, fun _ => rfl⟩
  | some r0 =>
    obtain ⟨i0, s0⟩ := r0
    obtain ⟨hi0, hfree0, rfl⟩ := allocDesc_spec h0
    simp only
    cases h1 : ({ s with free := update s.free i0 false } : Virtio T B).allocDesc with
    | none =>
      obtain ⟨s', hs', hf⟩ := freeDesc_spec hi0
        (s := { s with free := update s.free i0 false }) (update_self ..)
      refine .inr ⟨s', by simp only [hs']; rfl, hf.undone ?_ ?_⟩
      · intro i hi
        rw [mem_singleton.1 hi]
        exact hfree0
      · intro i hi
        exact update_of_ne (fun heq => hi (mem_singleton.2 heq)) ..
    | some r1 =>
      obtain ⟨i1, s1⟩ := r1
      obtain ⟨hi1, hfree1, rfl⟩ := allocDesc_spec h1
      change update s.free i0 false i1 = true at hfree1
      have hne1 : i1 ≠ i0 := by
        rintro rfl
        rw [update_self] at hfree1
        cases hfree1
      rw [update_of_ne hne1] at hfree1
      set f1 := update (update s.free i0 false) i1 false with hf1
      have hf1_of_ne : ∀ i, i ≠ i0 → i ≠ i1 → f1 i = s.free i := fun i h0 h1 => by
        rw [hf1, update_of_ne h1, update_of_ne h0]
      have hf1_i0 : f1 i0 = false := by
        rw [hf1, update_of_ne hne1.symm, update_self]
      have hf1_i1 : f1 i1 = false := update_self ..
      simp only
      cases h2 : ({ s with free := f1 } : Virtio T B).allocDesc with
      | none =>
        obtain ⟨u, hu, hfu⟩ := freeDesc_spec (s := { s with free := f1 }) hi0 hf1_i0
        obtain ⟨s', hs', hfs'⟩ := freeDesc_spec (s := u) hi1
          ((hfu.free i1 (by simpa using hne1)).trans hf1_i1)
        refine .inr ⟨s', by simp only [hu, hs', Except.bind]; rfl, (hfu.trans hfs').undone ?_ ?_⟩
        · intro i hi
          simp only [singleton_append, mem_cons, not_mem_nil, or_false] at hi
          rcases hi with rfl | rfl
          · exact hfree0
          · exact hfree1
        · intro i hi
          simp only [singleton_append, mem_cons, not_mem_nil, or_false, not_or] at hi
          exact hf1_of_ne i hi.1 hi.2
      | some r2 =>
        obtain ⟨i2, s2⟩ := r2
        obtain ⟨hi2, hfree2, rfl⟩ := allocDesc_spec h2
        change f1 i2 = true at hfree2
        have hne20 : i2 ≠ i0 := by
          rintro rfl
          rw [hf1_i0] at hfree2
          cases hfree2
        have hne21 : i2 ≠ i1 := by
          rintro rfl
          rw [hf1_i1] at hfree2
          cases hfree2
        rw [hf1_of_ne i2 hne20 hne21] at hfree2
        refine .inl ⟨⟨i0, i1, i2⟩, ?_, ?_, ?_⟩
        · simp [list, hne1.symm, hne20.symm, hne21.symm]
        · simp only [list, mem_cons, not_mem_nil, or_false]
          rintro i (rfl | rfl | rfl)
          · exact ⟨hi0, hfree0⟩
          · exact ⟨hi1, hfree1⟩
          · exact ⟨hi2, hfree2⟩
        · have hsame : update f1 i2 false =
              fun i => if i ∈ (⟨i0, i1, i2⟩ : Chain).list then false else s.free i := by
            funext i
            simp only [list, mem_cons, not_mem_nil, or_false]
            split_ifs with hi
            · rcases hi with rfl | rfl | rfl
              · rw [update_of_ne hne20.symm, hf1_i0]
              · rw [update_of_ne hne21.symm, hf1_i1]
              · exact update_self ..
            · simp only [not_or] at hi
              rw [update_of_ne hi.2.2, hf1_of_ne i hi.1 hi.2.1]
          rw [← hsame]

/-! ### Steps -/

namespace Inv

variable {as us : List ℕ} {t u : T} {b b' : B} {c c' : Chain} {i : ℕ}

theorem take (h : s.Inv as us) (hs : s.take = some s') : ∃ as', s'.Inv as' us := by
  unfold Virtio.take at hs
  split_ifs at hs with hempty
  cases hs
  obtain ⟨i, as', rfl⟩ := exists_cons_of_ne_nil
    fun hnil => hempty ((h.avail.empty_iff num_lt).2 hnil)
  have hmem : ∀ j, j ∈ as' ++ i :: s.taken ++ us ↔ j ∈ i :: as' ++ s.taken ++ us := fun j => by
    simp only [mem_append, mem_cons]
    tauto
  have hperm : (as' ++ i :: s.taken ++ us).Perm (i :: as' ++ s.taken ++ us) := by
    simp only [append_assoc, cons_append]
    exact perm_middle
  refine ⟨as', ?_⟩
  rw [h.avail.first]
  exact
    { avail := h.avail.pop num_dvd
      used := h.used
      nodup := hperm.nodup_iff.2 h.nodup
      head := fun j hj => h.head j ((hmem j).1 hj)
      placed := fun t b c hf hd => (hmem _).2 (h.placed t b c hf hd)
      completed := h.completed
      linked := h.linked
      chain := h.chain
      info := h.info
      disjoint := h.disjoint
      free := h.free
      bufs := h.bufs }

theorem complete (h : s.Inv as us) (hs : s.complete i = some s') : ∃ us', s'.Inv as us' := by
  unfold Virtio.complete at hs
  split_ifs at hs with htaken
  cases hs
  have hperm : (as ++ s.taken.erase i ++ (us ++ [i])).Perm (as ++ s.taken ++ us) := by
    have hmid : (s.taken.erase i ++ (us ++ [i])).Perm (s.taken ++ us) := by
      rw [← append_assoc]
      refine (perm_append_singleton i _).trans ?_
      rw [← cons_append]
      exact (perm_cons_erase htaken).symm.append_right us
    rw [append_assoc, append_assoc]
    exact hmid.append_left as
  have hi : i ∈ as ++ s.taken ++ us :=
    mem_append_left _ (mem_append_right _ htaken)
  have hnot : i ∉ us := fun hmem => by
    have hdis := (nodup_append.1 h.nodup).2.2
    exact hdis i (mem_append_right _ htaken) i hmem rfl
  have hlt : us.length < NUM := by
    refine length_lt_of_nodup (nodup_append.1 h.nodup).2.1 (fun j hj => ?_) (h.head_lt hi) hnot
    exact h.head_lt (mem_append_right _ hj)
  refine ⟨us ++ [i], ?_⟩
  exact
    { avail := h.avail
      used := h.used.push num_dvd hlt i
      nodup := hperm.nodup_iff.2 h.nodup
      head := fun j hj => h.head j (hperm.mem_iff.1 hj)
      placed := fun t b c hf hd => hperm.mem_iff.2 (h.placed t b c hf hd)
      completed := fun t b c hf => by
        have hf' : (s.pos t).flight = some (b, c) := hf
        simp only [hf', map_some, some.injEq, mem_append, mem_singleton]
        split_ifs with hci
        · simp [hci]
        · rw [h.completed t b c hf]
          simp [hci]
      linked := h.linked
      chain := h.chain
      info := fun t b c hf => by
        have hf' : (s.pos t).flight = some (b, c) := hf
        obtain ⟨hb, hstatus⟩ := h.info t b c hf
        by_cases hci : c.i0 = i
        · simp only [hci, update_self]
          exact ⟨by rw [← hci]; exact hb, fun _ => trivial⟩
        · simp only [hf', map_some, some.injEq, if_neg hci, update_of_ne hci]
          exact ⟨hb, hstatus⟩
      disjoint := h.disjoint
      free := h.free
      bufs := h.bufs }

/-- What the handler finds in the used ring: the head of a completed request. -/
theorem used_head (h : s.Inv as us) (hne : s.seen ≠ s.usedIdx) :
    ∃ t b c us', us = c.i0 :: us' ∧ s.Flight t b c ∧ s.disk b = true ∧ s.completed t = true ∧
      s.used (s.seen.toNat % NUM) = c.i0 ∧ (s.info c.i0).b = some b ∧
      (s.info c.i0).status = 0 := by
  obtain ⟨i, us', rfl⟩ := exists_cons_of_ne_nil
    fun hnil => hne ((h.used.empty_iff num_lt).2 hnil)
  have hmem : i ∈ as ++ s.taken ++ i :: us' := mem_append_right _ mem_cons_self
  obtain ⟨t, b, c, hf, rfl, hdisk⟩ := h.head i hmem
  have hdone := (h.completed t b c hf).2 (.inl mem_cons_self)
  obtain ⟨hb, hstatus⟩ := h.info t b c hf
  exact ⟨t, b, c, us', rfl, hf, hdisk, hdone, h.used.first, hb, hstatus hdone⟩

end Inv

theorem Pos.flight_wakeBuf [DecidableEq B] (b : B) (p : Pos B) :
    (p.wakeBuf b).flight = p.flight := by
  cases p with
  | waitSleep b' c =>
    simp only [wakeBuf]
    split_ifs <;> rfl
  | _ => rfl

theorem Pos.buf_wakeBuf [DecidableEq B] (b : B) (p : Pos B) : (p.wakeBuf b).buf = p.buf := by
  cases p with
  | waitSleep b' c =>
    simp only [wakeBuf]
    split_ifs <;> rfl
  | _ => rfl

section

variable [DecidableEq B] {as us : List ℕ} {t u : T} {b b' : B} {c c' : Chain} {i : ℕ}

/-- A turn of the handler: `b->disk` of a completed request is cleared. -/
theorem Inv.handle (h : s.Inv as us) : ∃ s', s.handle = .ok s' ∧ ∃ us', s'.Inv as us' := by
  unfold Virtio.handle
  by_cases hempty : s.seen = s.usedIdx
  · refine ⟨{ s with lock := none }, by rw [if_pos hempty], us, ?_⟩
    exact h.move rfl (fun _ _ _ => rfl) (fun _ => rfl) h.bufs
  obtain ⟨t, b, c, us', rfl, hf, hdisk, hdone, hid, hb, hstatus⟩ := h.used_head hempty
  rw [if_neg hempty]
  simp only [hid, hstatus, hb, ne_eq, not_true_eq_false, if_false]
  refine ⟨_, rfl, us', ?_⟩
  have hnot : c.i0 ∉ as ++ s.taken ++ us' := by
    have hperm : (as ++ s.taken ++ c.i0 :: us').Perm (c.i0 :: (as ++ s.taken ++ us')) :=
      perm_middle
    exact (nodup_cons.1 (hperm.nodup_iff.1 h.nodup)).1
  have hmem : ∀ j, j ∈ as ++ s.taken ++ c.i0 :: us' ↔ j = c.i0 ∨ j ∈ as ++ s.taken ++ us' :=
    fun j => perm_middle.mem_iff.trans mem_cons
  -- the other requests have other buffers and heads
  have hother : ∀ {u b' c'}, s.Flight u b' c' → u ≠ t → b' ≠ b ∧ c'.i0 ≠ c.i0 := by
    intro u b' c' hu hne
    refine ⟨?_, fun heq => ?_⟩
    · rintro rfl
      exact hne (h.bufs u t b' (buf_of_flight hu) (buf_of_flight hf))
    · refine hne (h.flight_unique hu hf c'.i0_mem ?_).1
      rw [heq]
      exact c.i0_mem
  have hsame : ∀ {b' c'}, s.Flight t b' c' → b' = b ∧ c' = c := by
    intro b' c' hu
    cases hu.symm.trans hf
    exact ⟨rfl, rfl⟩
  have hflight : ∀ u b' c',
      ({ s with pos := fun u => (s.pos u).wakeBuf b } : Virtio T B).Flight u b' c' ↔
        s.Flight u b' c' := fun u b' c' => by
    unfold Flight
    rw [flight_wakeBuf]
  exact
    { avail := h.avail
      used := h.used.pop num_dvd
      nodup := (nodup_cons.1 (perm_middle.nodup_iff.1 h.nodup)).2
      head := fun j hj => by
        obtain ⟨u, b', c', hu, rfl, hd⟩ := h.head j ((hmem j).2 (.inr hj))
        have hne : u ≠ t := by
          rintro rfl
          rw [(hsame hu).2] at hj
          exact hnot hj
        refine ⟨u, b', c', (hflight u b' c').2 hu, rfl, ?_⟩
        exact (update_of_ne (hother hu hne).1 ..).trans hd
      placed := fun u b' c' hu hd => by
        have hu := (hflight u b' c').1 hu
        have hne : u ≠ t := by
          rintro rfl
          rw [(hsame hu).1] at hd
          simp at hd
        have hd' : s.disk b' = true := (update_of_ne (hother hu hne).1 ..).symm.trans hd
        exact ((hmem _).1 (h.placed u b' c' hu hd')).resolve_left (hother hu hne).2
      completed := fun u b' c' hu => by
        have hu := (hflight u b' c').1 hu
        by_cases hne : u = t
        · subst hne
          obtain ⟨rfl, rfl⟩ := hsame hu
          simp [hdone]
        · have hb' := (hother hu hne).1
          rw [h.completed u b' c' hu, mem_cons, or_iff_right (hother hu hne).2]
          simp only [update_of_ne hb']
      linked := fun u b' c' hu => h.linked u b' c' ((hflight u b' c').1 hu)
      chain := fun u b' c' hu => h.chain u b' c' ((hflight u b' c').1 hu)
      info := fun u b' c' hu => h.info u b' c' ((hflight u b' c').1 hu)
      disjoint := fun u v b' b'' c' c'' hu hv =>
        h.disjoint u v b' b'' c' c'' ((hflight u b' c').1 hu) ((hflight v b'' c'').1 hv)
      free := fun j hj => by
        refine (h.free j hj).trans ⟨?_, ?_⟩
        · rintro ⟨u, b', c', hu, hmem⟩
          exact ⟨u, b', c', (hflight u b' c').2 hu, hmem⟩
        · rintro ⟨u, b', c', hu, hmem⟩
          exact ⟨u, b', c', (hflight u b' c').1 hu, hmem⟩
      bufs := fun u v b' hu hv => by
        simp only [buf_wakeBuf] at hu hv
        exact h.bufs u v b' hu hv }

variable [DecidableEq T]

/-- A request is published with three descriptors that were free. -/
theorem Inv.publish (h : s.Inv as us) (write : Bool) (hnone : (s.pos t).flight = none)
    (hbuf : (s.pos t).buf = some b) (hnodup : c.list.Nodup)
    (hfree : ∀ i ∈ c.list, i < NUM ∧ s.free i = true) :
    (({ s with free := fun i => if i ∈ c.list then false else s.free i } : Virtio T B).publish
      t b write c).Inv (as ++ [c.i0]) us := by
  set s' := ({ s with free := fun i => if i ∈ c.list then false else s.free i } :
    Virtio T B).publish t b write c with hs'
  have hself : s'.Flight t b c := by
    show (update s.pos t (.wait b c) t).flight = some (b, c)
    rw [update_self]
    rfl
  have hpos : ∀ u, u ≠ t → s'.pos u = s.pos u := fun u hu => update_of_ne hu ..
  have hold : ∀ {u b' c'}, u ≠ t → (s'.Flight u b' c' ↔ s.Flight u b' c') := fun hu => by
    unfold Flight
    rw [hpos _ hu]
  have hthis : ∀ {b' c'}, s'.Flight t b' c' → b' = b ∧ c' = c := fun hf => by
    cases hf.symm.trans hself
    exact ⟨rfl, rfl⟩
  -- requests of other threads
  have hbuf' : ∀ {u b' c'}, u ≠ t → s.Flight u b' c' → b' ≠ b := by
    rintro u b' c' hu hf rfl
    exact hu (h.bufs u t b' (buf_of_flight hf) hbuf)
  have hdis : ∀ {u b' c'}, s.Flight u b' c' → ∀ i ∈ c.list, i ∉ c'.list := fun hf i hi =>
    h.not_mem_of_free (hfree i hi).1 (hfree i hi).2 hf
  have hnot : ∀ {u b' c'}, s.Flight u b' c' → u ≠ t := by
    rintro u b' c' hf rfl
    cases hf.symm.trans hnone
  have hdesc : ∀ i, i ∉ c.list → s'.desc i = s.desc i := fun i hi => by
    simp only [list, mem_cons, not_mem_nil, or_false, not_or] at hi
    simp only [hs', Virtio.publish, Virtio.goto, update_of_ne hi.1,
      update_of_ne hi.2.1, update_of_ne hi.2.2]
  have hnew : c.i0 ∉ as ++ s.taken ++ us := fun hmem => by
    obtain ⟨u, b', c', hf, heq, -⟩ := h.head c.i0 hmem
    refine hdis hf c.i0 c.i0_mem ?_
    rw [← heq]
    exact c'.i0_mem
  have hperm : (as ++ [c.i0] ++ s.taken ++ us).Perm (c.i0 :: (as ++ s.taken ++ us)) := by
    simp only [append_assoc, singleton_append]
    exact perm_middle
  have hlt : as.length < NUM := by
    have has := (nodup_append.1 (nodup_append.1 h.nodup).1).1
    refine length_lt_of_nodup has (fun j hj => h.head_lt ?_) (hfree _ c.i0_mem).1 fun hmem =>
      hnew ?_
    · exact mem_append_left _ (mem_append_left _ hj)
    · exact mem_append_left _ (mem_append_left _ hmem)
  have hdisk : ∀ {b'}, b' ≠ b → s'.disk b' = s.disk b' := fun hb => update_of_ne hb ..
  have hdone : ∀ {u}, u ≠ t → s'.completed u = s.completed u := fun hu =>
    update_of_ne hu ..
  have hne : c.i0 ≠ c.i1 ∧ c.i0 ≠ c.i2 ∧ c.i1 ≠ c.i2 := by
    simpa [list, and_assoc] using hnodup
  exact
    { avail := h.avail.push num_dvd hlt c.i0
      used := h.used
      nodup := hperm.nodup_iff.2 (nodup_cons.2 ⟨hnew, h.nodup⟩)
      head := fun i hi => by
        rcases mem_cons.1 (hperm.mem_iff.1 hi) with rfl | hi
        · exact ⟨t, b, c, hself, rfl, update_self ..⟩
        · obtain ⟨u, b', c', hf, heq, hd⟩ := h.head i hi
          have hu := hnot hf
          exact ⟨u, b', c', (hold hu).2 hf, heq, (hdisk (hbuf' hu hf)).trans hd⟩
      placed := fun u b' c' hf hd => by
        refine hperm.mem_iff.2 ?_
        by_cases hu : u = t
        · subst hu
          rw [(hthis hf).2]
          exact mem_cons_self
        · have hf := (hold hu).1 hf
          rw [hdisk (hbuf' hu hf)] at hd
          exact mem_cons_of_mem _ (h.placed u b' c' hf hd)
      completed := fun u b' c' hf => by
        by_cases hu : u = t
        · subst hu
          obtain ⟨rfl, rfl⟩ := hthis hf
          have hfalse : s'.completed u = false := update_self ..
          have htrue : s'.disk b' = true := update_self ..
          have hus : c'.i0 ∉ us := fun hmem => hnew (mem_append_right _ hmem)
          simp [hfalse, htrue, hus]
        · have hf := (hold hu).1 hf
          rw [hdone hu, hdisk (hbuf' hu hf)]
          exact h.completed u b' c' hf
      linked := fun u b' c' hf => by
        by_cases hu : u = t
        · subst hu
          obtain ⟨rfl, rfl⟩ := hthis hf
          refine ⟨?_, ?_, ?_⟩
          · simp only [hs', Virtio.publish, Virtio.goto, update_of_ne hne.1,
              update_of_ne hne.2.1, update_self]
            exact ⟨by decide, trivial⟩
          · simp only [hs', Virtio.publish, Virtio.goto, update_of_ne hne.2.2,
              update_self]
            cases write <;> exact ⟨by decide, trivial⟩
          · simp only [hs', Virtio.publish, Virtio.goto, update_self]
            decide
        · have hf := (hold hu).1 hf
          refine (h.linked u b' c' hf).congr fun i hi => hdesc i fun hmem => ?_
          exact hdis hf i hmem hi
      chain := fun u b' c' hf => by
        by_cases hu : u = t
        · subst hu
          obtain ⟨rfl, rfl⟩ := hthis hf
          exact ⟨hnodup, fun i hi => (hfree i hi).1⟩
        · exact h.chain u b' c' ((hold hu).1 hf)
      info := fun u b' c' hf => by
        by_cases hu : u = t
        · subst hu
          obtain ⟨rfl, rfl⟩ := hthis hf
          have hinfo : s'.info c'.i0 = ⟨some b', 0xff⟩ := update_self ..
          have hfalse : s'.completed u = false := update_self ..
          rw [hinfo, hfalse]
          exact ⟨rfl, fun hf => nomatch hf⟩
        · have hf := (hold hu).1 hf
          have hi0 : c'.i0 ≠ c.i0 := fun heq => hdis hf c.i0 c.i0_mem (heq ▸ c'.i0_mem)
          have hinfo : s'.info c'.i0 = s.info c'.i0 := update_of_ne hi0 ..
          rw [hinfo, hdone hu]
          exact h.info u b' c' hf
      disjoint := fun u v b1 b2 c1 c2 hu hv huv => by
        by_cases hut : u = t
        · subst hut
          rw [(hthis hu).2]
          exact fun i hi => hdis ((hold (Ne.symm huv)).1 hv) i hi
        · by_cases hvt : v = t
          · subst hvt
            rw [(hthis hv).2]
            exact fun i hi hi' => hdis ((hold hut).1 hu) i hi' hi
          · exact h.disjoint u v b1 b2 c1 c2 ((hold hut).1 hu) ((hold hvt).1 hv) huv
      free := fun i hi => by
        show (if i ∈ c.list then false else s.free i) = false ↔ _
        split_ifs with hmem
        · exact ⟨fun _ => ⟨t, b, c, hself, hmem⟩, fun _ => rfl⟩
        · rw [h.free i hi]
          constructor
          · rintro ⟨u, b', c', hf, hi'⟩
            exact ⟨u, b', c', (hold (hnot hf)).2 hf, hi'⟩
          · rintro ⟨u, b', c', hf, hi'⟩
            by_cases hu : u = t
            · subst hu
              rw [(hthis hf).2] at hi'
              exact absurd hi' hmem
            · exact ⟨u, b', c', (hold hu).1 hf, hi'⟩
      bufs := fun u v b' hu hv => by
        have hkeep : ∀ w, (s'.pos w).buf = (s.pos w).buf := fun w => by
          by_cases hw : w = t
          · subst hw
            rw [hbuf]
            exact buf_of_flight hself
          · rw [hpos w hw]
        rw [hkeep] at hu hv
        exact h.bufs u v b' hu hv }

omit [DecidableEq B] in
theorem Inv.finish (h : s.Inv as us) (hf : s.Flight t b c) (hdisk : s.disk b = false) :
    ∃ s', s.finish t c = .ok s' ∧ s'.Inv as us ∧ s'.avail = s.avail ∧ s'.disk = s.disk ∧
      ∀ u, s'.pos u = .idle → u = t ∨ s.pos u = .idle := by
  obtain ⟨hnodup, hlt⟩ := h.chain t b c hf
  set s0 : Virtio T B := { s with info := update s.info c.i0 ⟨none, (s.info c.i0).status⟩ }
    with hs0
  obtain ⟨s1, hs1, hfreed⟩ := freeChain_spec (s := s0) (h.linked t b c hf) hnodup hlt
    fun i hi => (h.free i (hlt i hi)).2 ⟨t, b, c, hf, hi⟩
  refine ⟨({ s1 with lock := none } : Virtio T B).goto t .idle, ?_, ?_⟩
  · rw [Virtio.finish, ← hs0, hs1]
    rfl
  obtain ⟨p, hp⟩ : ∃ p, p = update s1.pos t .idle := ⟨_, rfl⟩
  have hrest : ({ s1 with lock := none } : Virtio T B).goto t .idle =
      { s with
        info := update s.info c.i0 ⟨none, (s.info c.i0).status⟩
        desc := s1.desc
        free := s1.free
        lock := none
        pos := p } := by
    rw [Virtio.goto, ← hp, hfreed.rest]
  rw [hrest]
  refine ⟨?_, rfl, rfl, fun u hu => ?_⟩
  swap
  · by_cases hut : u = t
    · exact .inl hut
    · refine .inr (buf_eq_none.1 ?_)
      rw [← hfreed.buf u, buf_eq_none]
      change p u = .idle at hu
      rwa [hp, update_of_ne hut] at hu
  have hself : (p t).flight = none := by
    rw [hp, update_self]
    rfl
  have hother : ∀ u, u ≠ t → (p u).flight = (s.pos u).flight := fun u hu => by
    rw [hp, update_of_ne hu]
    exact hfreed.flight u
  have hflight : ∀ {u b' c'}, (p u).flight = some (b', c') → u ≠ t ∧ s.Flight u b' c' := by
    intro u b' c' hu
    have hne : u ≠ t := by
      rintro rfl
      cases hu.symm.trans hself
    exact ⟨hne, (hother u hne).symm.trans hu⟩
  have hback : ∀ {u b' c'}, u ≠ t → s.Flight u b' c' → (p u).flight = some (b', c') :=
    fun hu hf => (hother _ hu).trans hf
  have hdis : ∀ {u b' c'}, u ≠ t → s.Flight u b' c' → ∀ i ∈ c'.list, i ∉ c.list :=
    fun hu hf' i hi hi' => h.disjoint _ t _ b _ c hf' hf hu hi hi'
  have hbuf : ∀ u b', (p u).buf = some b' → (s.pos u).buf = some b' := fun u b' hu => by
    rw [hp] at hu
    by_cases hut : u = t
    · rw [hut, update_self] at hu
      cases hu
    · rw [update_of_ne hut] at hu
      exact (hfreed.buf u).symm.trans hu
  exact
    { avail := h.avail
      used := h.used
      nodup := h.nodup
      head := fun i hi => by
        obtain ⟨u, b', c', hu, heq, hd⟩ := h.head i hi
        have hne : u ≠ t := by
          rintro rfl
          cases hu.symm.trans hf
          rw [hdisk] at hd
          cases hd
        exact ⟨u, b', c', hback hne hu, heq, hd⟩
      placed := fun u b' c' hu => h.placed u b' c' (hflight hu).2
      completed := fun u b' c' hu => h.completed u b' c' (hflight hu).2
      linked := fun u b' c' hu => by
        obtain ⟨hne, hu⟩ := hflight hu
        exact (h.linked u b' c' hu).congr fun i hi => hfreed.desc i (hdis hne hu i hi)
      chain := fun u b' c' hu => h.chain u b' c' (hflight hu).2
      info := fun u b' c' hu => by
        obtain ⟨hne, hu⟩ := hflight hu
        have hi0 : c'.i0 ≠ c.i0 := fun heq =>
          hdis hne hu c'.i0 c'.i0_mem (by rw [heq]; exact c.i0_mem)
        simp only [update_of_ne hi0]
        exact h.info u b' c' hu
      disjoint := fun u v b1 b2 c1 c2 hu hv =>
        h.disjoint u v b1 b2 c1 c2 (hflight hu).2 (hflight hv).2
      free := fun i hi => by
        by_cases hmem : i ∈ c.list
        · rw [show s1.free i = true from hfreed.isFree i hmem]
          refine ⟨(fun hf => nomatch hf), ?_⟩
          rintro ⟨u, b', c', hu, hi'⟩
          obtain ⟨hne, hu⟩ := hflight hu
          exact absurd hmem (hdis hne hu i hi')
        · rw [show s1.free i = s.free i from hfreed.free i hmem, h.free i hi]
          constructor
          · rintro ⟨u, b', c', hu, hi'⟩
            refine ⟨u, b', c', hback ?_ hu, hi'⟩
            rintro rfl
            cases hu.symm.trans hf
            exact hmem hi'
          · rintro ⟨u, b', c', hu, hi'⟩
            exact ⟨u, b', c', (hflight hu).2, hi'⟩
      bufs := fun u v b' hu hv => h.bufs u v b' (hbuf u b' hu) (hbuf v b' hv) }

end

end Xv6.Virtio
