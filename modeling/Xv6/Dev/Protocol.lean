import Xv6.Dev.Requests

/-!
# The protocol between driver and device

Every step keeps the invariant of the requests in flight, leaves the entries of the avail ring that
the device has not taken, and ends a call only if its request has been completed.
-/

namespace Xv6.Virtio

open Function Transition Pos

variable {T B : Type} [DecidableEq T] [DecidableEq B] {s s' : Virtio T B} {as us : List ℕ}
  {t : T} {b : B} {c : Chain} {a : Act T B}

/-- What a step leaves to the device and to the calls. -/
structure Respects (s : Virtio T B) (a : Act T B) (s' : Virtio T B) : Prop where
  /-- Entries of the avail ring that the device has not taken. -/
  avail : ∀ k < (s.availIdx - s.devIdx).toNat,
    s'.avail ((s.devIdx.toNat + k) % NUM) = s.avail ((s.devIdx.toNat + k) % NUM)
  cleared : ∀ b, s.disk b = true → s'.disk b = false →
    a = .handle ∧ ∃ t c, s.Flight t b c ∧ s.completed t = true
  returns : ∀ t, s.pos t ≠ .idle → s'.pos t = .idle → s.completed t = true

/-- A step after which the driver still respects the device. -/
structure Good (s : Virtio T B) (a : Act T B) (s' : Virtio T B) : Prop where
  inv : ∃ as us, s'.Inv as us
  respects : s.Respects a s'

omit [DecidableEq T] [DecidableEq B] in
/-- Neither the avail ring nor `b->disk` is touched, and no call ends. -/
theorem Respects.of_same (havail : s'.avail = s.avail) (hdisk : s'.disk = s.disk)
    (hpos : ∀ t, s'.pos t = .idle → s.pos t = .idle) : s.Respects a s' where
  avail k _ := by rw [havail]
  cleared b ht hf := by
    rw [hdisk, ht] at hf
    cases hf
  returns t hne hidle := absurd (hpos t hidle) hne

variable {p : Pos B}

omit [DecidableEq B] in
theorem idle_of_goto (hp : p ≠ .idle) {u : T} (h : (s.goto t p).pos u = .idle) :
    s.pos u = .idle := by
  by_cases hu : u = t
  · subst hu
    exact absurd ((update_self (f := s.pos) ..).symm.trans h) hp
  · exact (update_of_ne hu ..).symm.trans h

section

variable (h : s.Inv as us) (hflight : p.flight = (s.pos t).flight) (hbuf : p.buf = (s.pos t).buf)

include h hflight hbuf

omit [DecidableEq B] in
theorem Inv.goto (lock : Option (Holder T)) :
    (({ s with lock := lock } : Virtio T B).goto t p).Inv as us := by
  have hkeep : ∀ u, (update s.pos t p u).flight = (s.pos u).flight ∧
      (update s.pos t p u).buf = (s.pos u).buf := fun u => by
    by_cases hu : u = t
    · subst hu
      rw [update_self]
      exact ⟨hflight, hbuf⟩
    · rw [update_of_ne hu]
      exact ⟨rfl, rfl⟩
  refine h.move rfl (fun _ _ _ => rfl) (fun u => (hkeep u).1) fun u v b hu hv => ?_
  exact h.bufs u v b ((hkeep u).2.symm.trans hu) ((hkeep v).2.symm.trans hv)

omit [DecidableEq B] in
theorem Inv.goto_good (hp : p ≠ .idle) (lock : Option (Holder T)) :
    s.Good a (({ s with lock := lock } : Virtio T B).goto t p) where
  inv := ⟨as, us, h.goto hflight hbuf lock⟩
  respects := .of_same rfl rfl fun _ hu => idle_of_goto hp hu

omit [DecidableEq B] in
theorem Inv.acquire_good (hp : p ≠ .idle) (hs : s.acquire t p = some s') :
    s.Good a s' := by
  unfold Virtio.acquire at hs
  split_ifs at hs
  cases hs
  exact h.goto_good hflight hbuf hp _

end

/-- A new entry of the avail ring is not one that the device has still to take. -/
theorem Inv.publish_good (h : s.Inv as us) {write : Bool} (hpos : s.pos t = .alloc b write)
    (hnodup : c.list.Nodup) (hfree : ∀ i ∈ c.list, i < NUM ∧ s.free i = true) :
    s.Good a (({ s with free := fun i => if i ∈ c.list then false else s.free i } :
      Virtio T B).publish t b write c) := by
  have hinv := h.publish write (by rw [hpos]; rfl) (by rw [hpos]; rfl) hnodup hfree
  refine ⟨⟨_, _, hinv⟩, ?_, ?_, ?_⟩
  · intro k hk
    rw [h.avail.toNat_sub num_lt] at hk
    have hlt : as.length + 1 ≤ NUM := by
      simpa using hinv.avail.length_le
    have hcell : s.availIdx.toNat % NUM = (s.devIdx.toNat + as.length) % NUM := by
      rw [h.avail.stop, Ring.toNat_mod num_dvd]
    refine update_of_ne ?_ ..
    show (s.devIdx.toNat + k) % NUM ≠ s.availIdx.toNat % NUM
    rw [hcell]
    exact Ring.cell_ne hk (by omega)
  · intro b' ht hf
    by_cases hb : b' = b
    · subst hb
      cases (update_self (f := s.disk) ..).symm.trans hf
    · cases ht.symm.trans ((update_of_ne hb ..).symm.trans hf)
  · intro u hne hidle
    exact absurd (idle_of_goto (by nofun) hidle) hne

theorem Inv.go (h : s.Inv as us) : ∃ r, s.go t = .ok r ∧ ∀ s', r = some s' → s.Good a s' := by
  unfold Virtio.go
  cases hpos : s.pos t with
  | idle | allocSleep b write | waitSleep b c => exact ⟨none, rfl, fun _ hr => nomatch hr⟩
  | call b write | allocWoken b write | waitWoken b c =>
    refine ⟨_, rfl, fun s' hs => ?_⟩
    exact h.acquire_good (by rw [hpos]; rfl) (by rw [hpos]; rfl) (by nofun) hs
  | alloc b write =>
    rcases s.alloc3Desc_spec with ⟨c, hnodup, hfree, hc⟩ | ⟨s1, hs1, hundone⟩
    · refine ⟨_, by rw [hc]; rfl, fun s' hs => ?_⟩
      cases hs
      exact h.publish_good hpos hnodup hfree
    · refine ⟨_, by rw [hs1]; rfl, fun s' hs => ?_⟩
      cases hs
      have hinv : s1.Inv as us := by
        refine h.move ?_ (fun i _ => hundone.desc i) hundone.flight fun u v b' hu hv => ?_
        · rw [← hundone.rest]
        · rw [hundone.buf] at hu hv
          exact h.bufs u v b' hu hv
      have hsleep : (({ s1 with lock := none } : Virtio T B).goto t (.allocSleep b write)).Inv
          as us := by
        refine hinv.goto ?_ ?_ none
        · rw [hundone.flight, hpos]
          rfl
        · rw [hundone.buf, hpos]
          rfl
      refine ⟨⟨as, us, hsleep⟩, .of_same ?_ ?_ fun u hu => ?_⟩
      · show s1.avail = s.avail
        rw [← hundone.rest]
      · show s1.disk = s.disk
        rw [← hundone.rest]
      · have hidle := idle_of_goto (s := { s1 with lock := none }) (by nofun) hu
        rw [← buf_eq_none, ← hundone.buf u]
        exact buf_eq_none.2 hidle
  | wait b c =>
    simp only
    have hf : s.Flight t b c := by
      unfold Flight
      rw [hpos]
      rfl
    cases hdisk : s.disk b with
    | true =>
      refine ⟨_, if_pos rfl, fun s' hs => ?_⟩
      cases hs
      exact h.goto_good (by rw [hpos]; rfl) (by rw [hpos]; rfl) (by nofun) none
    | false =>
      obtain ⟨s1, hs1, hinv, havail, hdisk', hidle⟩ := h.finish hf hdisk
      refine ⟨some s1, ?_, fun s' hs => ?_⟩
      · rw [if_neg Bool.false_ne_true, hs1]
        rfl
      cases hs
      refine ⟨⟨as, us, hinv⟩, fun k _ => by rw [havail], fun b' ht hf' => ?_, fun u hne hu => ?_⟩
      · rw [hdisk', ht] at hf'
        cases hf'
      · rcases hidle u hu with rfl | hu
        · exact (h.completed u b c hf).2 (.inr hdisk)
        · exact absurd hu hne

omit [DecidableEq T] in
theorem handle_cases (hs : s.handle = .ok s') : s.seen = s.usedIdx ∧ s' = { s with lock := none } ∨
    s.seen ≠ s.usedIdx ∧ ∃ b, (s.info (s.used (s.seen.toNat % NUM))).b = some b ∧
      s' = { s with
        disk := update s.disk b false
        pos := fun t => (s.pos t).wakeBuf b
        seen := s.seen + 1 } := by
  unfold Virtio.handle at hs
  split_ifs at hs with hempty
  · cases hs
    exact .inl ⟨hempty, rfl⟩
  · simp only at hs
    split_ifs at hs
    split at hs
    · cases hs
    · rename_i b hb
      cases hs
      exact .inr ⟨hempty, b, hb, rfl⟩

section

variable (h : s.Inv as us)

include h

omit [DecidableEq T] in
/-- A turn of the handler clears `b->disk` of a completed request. -/
theorem Inv.handle_turn (hne : s.seen ≠ s.usedIdx) (hs : s.handle = .ok s') :
    ∃ t b c, s.Flight t b c ∧ c.i0 = s.used (s.seen.toNat % NUM) ∧ s.completed t = true ∧
      s.disk b = true ∧ s'.disk = update s.disk b false := by
  obtain ⟨t, b, c, -, -, hf, hdisk, hdone, hid, hb, -⟩ := h.used_head hne
  rcases handle_cases hs with ⟨heq, -⟩ | ⟨-, b', hb', rfl⟩
  · exact absurd heq hne
  · rw [hid] at hb'
    cases hb.symm.trans hb'
    exact ⟨t, b, c, hf, hid.symm, hdone, hdisk, rfl⟩

omit [DecidableEq T] in
theorem Inv.handle_good (hs : s.handle = .ok s') : s.Good .handle s' := by
  have hinv : ∃ as us, s'.Inv as us := by
    obtain ⟨s1, hs1, us', hinv⟩ := h.handle
    cases hs1.symm.trans hs
    exact ⟨as, us', hinv⟩
  refine ⟨hinv, ?_⟩
  rcases handle_cases hs with ⟨-, rfl⟩ | ⟨hne, b', -, hs'⟩
  · exact .of_same rfl rfl fun _ hu => hu
  · refine ⟨fun k _ => by rw [hs'], fun b ht hf => ⟨rfl, ?_⟩, fun t hne hu => absurd ?_ hne⟩
    · obtain ⟨t, b1, c, hflight, -, hdone, -, hdisk⟩ := h.handle_turn hne hs
      rw [hdisk] at hf
      by_cases hb : b = b1
      · subst hb
        exact ⟨t, c, hflight, hdone⟩
      · rw [update_of_ne hb, ht] at hf
        cases hf
    · rw [hs', ← buf_eq_none, buf_wakeBuf] at hu
      exact buf_eq_none.1 hu

omit [DecidableEq B] in
theorem Inv.virtioDiskRw {write : Bool} (hidle : s.pos t = .idle)
    (hown : ∀ u, (s.pos u).buf ≠ some b) : (s.goto t (.call b write)).Inv as us := by
  have hkeep : ∀ u b', (update s.pos t (.call b write) u).buf = some b' →
      u = t ∧ b' = b ∨ (s.pos u).buf = some b' := fun u b' hu => by
    by_cases hut : u = t
    · rw [hut, update_self] at hu
      cases hu
      exact .inl ⟨hut, rfl⟩
    · rw [update_of_ne hut] at hu
      exact .inr hu
  refine h.move rfl (fun _ _ _ => rfl) (fun u => ?_) fun u v b' hu hv => ?_
  · by_cases hut : u = t
    · subst hut
      show (update s.pos u (.call b write) u).flight = _
      rw [update_self, hidle]
      rfl
    · show (update s.pos t (.call b write) u).flight = _
      rw [update_of_ne hut]
  · rcases hkeep u b' hu with ⟨rfl, rfl⟩ | hu' <;> rcases hkeep v b' hv with ⟨rfl, hb⟩ | hv'
    · rfl
    · exact absurd hv' (hown v)
    · exact absurd (hb ▸ hu') (hown u)
    · exact h.bufs u v b' hu' hv'

theorem Inv.exec (hown : s.OwnBuffer a) :
    ∃ r, s.exec a = .ok r ∧ ∀ s', r = some s' → s.Good a s' := by
  cases a with
  | virtioDiskRw t b write =>
    refine ⟨_, rfl, fun s' hs => ?_⟩
    split_ifs at hs with hidle
    cases hs
    refine ⟨⟨as, us, h.virtioDiskRw hidle hown⟩, .of_same rfl rfl fun u hu => ?_⟩
    exact idle_of_goto (by nofun) hu
  | go t => exact h.go
  | intr =>
    refine ⟨_, rfl, fun s' hs => ?_⟩
    split_ifs at hs
    cases hs
    refine ⟨⟨as, us, ?_⟩, .of_same rfl rfl fun _ hu => hu⟩
    exact h.move rfl (fun _ _ _ => rfl) (fun _ => rfl) h.bufs
  | handle =>
    by_cases hlock : s.lock = some .intr
    · obtain ⟨s1, hs1, -⟩ := h.handle
      refine ⟨some s1, ?_, fun s' hs => ?_⟩
      · rw [Virtio.exec, if_pos hlock, hs1]
        rfl
      cases hs
      exact h.handle_good hs1
    · exact ⟨none, if_neg hlock, fun _ hs => nomatch hs⟩
  | take =>
    refine ⟨_, rfl, fun s' hs => ?_⟩
    obtain ⟨as', hinv⟩ := h.take hs
    unfold Virtio.take at hs
    split_ifs at hs
    cases hs
    exact ⟨⟨as', us, hinv⟩, .of_same rfl rfl fun _ hu => hu⟩
  | complete i =>
    refine ⟨_, rfl, fun s' hs => ?_⟩
    obtain ⟨us', hinv⟩ := h.complete hs
    unfold Virtio.complete at hs
    split_ifs at hs
    cases hs
    exact ⟨⟨as, us', hinv⟩, .of_same rfl rfl fun _ hu => hu⟩
  | rouse t =>
    refine ⟨_, rfl, fun s' hs => ?_⟩
    cases hpos : s.pos t <;> rw [hpos] at hs <;> cases hs <;>
      exact h.goto_good (by rw [hpos]; rfl) (by rw [hpos]; rfl) (by nofun) s.lock

theorem Inv.step (hown : s.OwnBuffer a) (hs : s.step a = some s') :
    s.Good a s' := by
  obtain ⟨r, hr, hgood⟩ := h.exec hown
  refine hgood s' ?_
  rw [Virtio.step, hr] at hs
  exact hs

end

theorem inv_of_reach {x y : BitVec 16} {tr : List (Act T B)}
    (h : Reach step OwnBuffer (start x y) tr s) : ∃ as us, s.Inv as us := by
  refine h.state_invariant (I := fun s : Virtio T B => ∃ as us, s.Inv as us)
    ⟨[], [], inv_start x y⟩ ?_
  rintro s a s' ⟨as, us, hinv⟩ hown hs
  exact (hinv.step hown hs).inv

/-- For any number of calls, and any order of completions and interrupts. -/
theorem virtio_protocol {x y : BitVec 16} {tr : List (Act T B)}
    (h : Reach step OwnBuffer (start x y) tr s) : -- the descriptors
    (∀ t b c, s.Flight t b c → c.list.Nodup ∧ ∀ i ∈ c.list, i < NUM) ∧
    (∀ t u b b' c c', s.Flight t b c → s.Flight u b' c' → t ≠ u → c.list.Disjoint c'.list) ∧
    (∀ i < NUM, s.free i = false ↔ ∃ t b c, s.Flight t b c ∧ i ∈ c.list) ∧ -- a turn of the handler
    (∀ s', s.seen ≠ s.usedIdx → s.handle = .ok s' →
      ∃ t b c, s.Flight t b c ∧ c.i0 = s.used (s.seen.toNat % NUM) ∧ s.completed t = true ∧
        s.disk b = true ∧ s'.disk = update s.disk b false) ∧
    -- any next step
    (∀ a, s.OwnBuffer a → ∃ r, s.exec a = .ok r ∧ ∀ s', r = some s' → s.Respects a s') := by
  obtain ⟨as, us, hinv⟩ := inv_of_reach h
  refine ⟨hinv.chain, hinv.disjoint, hinv.free, fun s' => hinv.handle_turn, fun a hown => ?_⟩
  obtain ⟨r, hr, hgood⟩ := hinv.exec hown
  exact ⟨r, hr, fun s' hs => (hgood s' hs).respects⟩

instance [Fintype T] (s : Virtio T B) (a : Act T B) : Decidable (s.OwnBuffer a) :=
  match a with
  | .virtioDiskRw _ b _ => inferInstanceAs (Decidable (∀ u, (s.pos u).buf ≠ some b))
  | .go _ | .intr | .handle | .take | .complete _ | .rouse _ => .isTrue trivial

/-- Three calls while there are descriptors for two requests; the second request is completed
first, and the ring indices wrap around. -/
def threeCalls : List (Act (Fin 3) (Fin 3)) :=
  [.virtioDiskRw 0 0 true, .go 0, .go 0, .go 0, .virtioDiskRw 1 1 false, .go 1, .go 1, .go 1,
    .virtioDiskRw 2 2 false, .go 2, .go 2, .take, .take, .complete 3, .intr, .handle, .handle,
    .go 1, .go 1, .go 2]

theorem virtio_protocol_three : ∃ s : Virtio (Fin 3) (Fin 3),
    Reach step OwnBuffer (start (-1) (-1)) threeCalls.reverse s ∧
    s.pos 0 = .waitSleep 0 ⟨0, 1, 2⟩ ∧ s.pos 1 = .idle ∧ s.pos 2 = .alloc 2 false ∧
    s.disk 0 = true ∧ s.availIdx = 1 ∧
    ∃ r, s.exec (.go 2) = .ok r ∧ ∀ s', r = some s' → s.Respects (.go 2) s' := by
  obtain ⟨s, hs, h0, h1, h2, hdisk, hidx⟩ :
      ∃ s ∈ runWhen step OwnBuffer (start (-1) (-1)) threeCalls, s.pos 0 = .waitSleep 0 ⟨0, 1, 2⟩ ∧
      s.pos 1 = .idle ∧ s.pos 2 = .alloc 2 false ∧ s.disk 0 = true ∧
      s.availIdx = 1 := by decide
  have hreach := reach_of_runWhen hs
  exact ⟨s, hreach, h0, h1, h2, hdisk, hidx,
    (virtio_protocol hreach).2.2.2.2 (.go 2) trivial⟩

end Xv6.Virtio
