import Xv6.Bio.Cache

/-!
# Blocks and buffers

A buffer is recycled only when nothing refers to it, so a thread that has chosen a buffer in `bget`
finds it unchanged when it gets the lock, and no block is ever in two buffers.  With all calls for
one device, the data of a valid buffer is what was last put into it, or else what is on the disk.
-/

namespace Xv6.Bcache

open Function Transition List Option
open Bio Tally

variable {T D : Type} [DecidableEq T] [Fintype T] {s s' : Bcache T D} {a : Act T D} {t u : T}
  {b c : BufId} {k : Key} {d : BitVec 32}

structure Inv (s : Bcache T D) : Prop where
  listed : s.Listed
  counted : s.Counted
  unique : ∀ b c, (s.buf b).key = (s.buf c).key → (s.buf b).key.dev ≠ 0 → b = c
  want : ∀ t b k, (s.pos t).wants = some (b, k) → (s.buf b).key = k
  hold : ∀ t b, (s.pos t).holds = some b → s.locked b = some t

namespace Inv

omit [DecidableEq T] in
theorem start (data : BufId → D) (disk : BitVec 32 → D) :
    (Bcache.start data disk : Bcache T D).Inv where
  listed := listed_start data disk
  counted b := by
    have hzero : (tally (Bcache.start data disk : Bcache T D).pos fun p => ind p.ref b) = 0 :=
      tally_eq_zero fun _ => rfl
    rw [refs, hzero]
    rfl
  unique _ _ _ hdev := absurd rfl hdev
  want _ _ _ h := nomatch h
  hold _ _ h := nomatch h

omit [DecidableEq T] in
theorem refcnt_pos (h : s.Inv) (hw : (s.pos t).wants = some (b, k)) : 0 < (s.buf b).refcnt := by
  rcases Pos.ref_or_holds hw with href | hhold
  · exact h.counted.pos_of_ref href
  · exact h.counted.pos_of_locked (h.hold t b hhold)

end Inv

omit [Fintype T] in
theorem Listed.step (h : s.Listed) (hc : s.Change a s') : s'.Listed := by
  cases hc with
  | drop t b link _ hlink => exact hlink h
  | _ => exact h

omit [DecidableEq T] [Fintype T] in
theorem key_update {v : Buf D} (hv : v.key = (s.buf b).key) (c : BufId) :
    (update s.buf b v c).key = (s.buf c).key := by
  by_cases hc : c = b
  · subst hc
    rw [update_self, hv]
  · rw [update_of_ne hc]

omit [Fintype T] in
/-- The keys are as before, or a buffer without references is recycled. -/
theorem Change.keys (hc : s.Change a s') : (∀ b, (s'.buf b).key = (s.buf b).key) ∨
    ∃ b k, (s.buf b).refcnt = 0 ∧ (∀ c, (s.buf c).key ≠ k) ∧ (s'.buf b).key = k ∧
      (s'.buf b).valid = false ∧ ∀ c, c ≠ b → s'.buf c = s.buf c := by
  cases hc with
  | recycle t b k _ hmiss hzero =>
    refine .inr ⟨b, k, hzero, hmiss, ?_, ?_, fun c hc => update_of_ne hc ..⟩
    · exact congrArg Buf.key (update_self (f := s.buf) ..)
    · exact congrArg Buf.valid (update_self (f := s.buf) ..)
  | hit | fill | valid | drop | pin | unpin | store => exact .inl fun c => key_update (by rfl) c
  | lock | ready | miss | bwrite | wrote | unlock => exact .inl fun _ => rfl

omit [Fintype T] in
/-- **A buffer with references is not recycled.** -/
theorem Change.key_of_pos (hc : s.Change a s') (hb : 0 < (s.buf b).refcnt) :
    (s'.buf b).key = (s.buf b).key := by
  rcases hc.keys with hsame | ⟨c, k, hzero, -, -, -, hother⟩
  · exact hsame b
  · have hne : b ≠ c := by
      rintro rfl
      omega
    rw [hother b hne]

theorem Inv.unique_step (h : s.Inv) (hc : s.Change a s') (b c : BufId)
    (heq : (s'.buf b).key = (s'.buf c).key) (hdev : (s'.buf b).key.dev ≠ 0) : b = c := by
  rcases hc.keys with hsame | ⟨r, k, -, hmiss, hkey, -, hother⟩
  · rw [hsame] at heq hdev
    rw [hsame] at heq
    exact h.unique b c heq hdev
  · by_cases hb : b = r
    · by_cases hcr : c = r
      · rw [hb, hcr]
      · rw [hb, hkey, hother c hcr] at heq
        exact absurd heq.symm (hmiss c)
    · by_cases hcr : c = r
      · rw [hcr, hkey, hother b hb] at heq
        exact absurd heq (hmiss b)
      · rw [hother b hb, hother c hcr] at heq
        rw [hother b hb] at hdev
        exact h.unique b c heq hdev

omit [Fintype T] in
/-- What a thread wants after the step: as before, or what it has just asked for. -/
theorem Change.wants (hc : s.Change a s') (hw : (s'.pos u).wants = some (b, k)) :
    (s.pos u).wants = some (b, k) ∨ a = .bread u k ∧ (s'.buf b).key = k := by
  cases hc with
  | hit t b' k' hpos hkey =>
    change (update s.pos t _ u).wants = _ at hw
    by_cases hu : u = t
    · subst hu
      rw [update_self] at hw
      cases hw
      exact .inr ⟨rfl, (key_update (by rfl) b).trans hkey⟩
    · rw [update_of_ne hu] at hw
      exact .inl hw
  | recycle t b' k' hpos _ _ =>
    change (update s.pos t _ u).wants = _ at hw
    by_cases hu : u = t
    · subst hu
      rw [update_self] at hw
      cases hw
      exact .inr ⟨rfl, congrArg Buf.key (update_self (f := s.buf) ..)⟩
    · rw [update_of_ne hu] at hw
      exact .inl hw
  | lock t b' k' hpos _ | miss t b' k' hpos | fill t b' k' hpos =>
    change (update s.pos t _ u).wants = _ at hw
    by_cases hu : u = t
    · subst hu
      rw [update_self] at hw
      cases hw
      exact .inl (by rw [hpos]; rfl)
    · rw [update_of_ne hu] at hw
      exact .inl hw
  | ready t | valid t | bwrite t | wrote t | unlock t | drop t =>
    change (update s.pos t _ u).wants = _ at hw
    by_cases hu : u = t
    · subst hu
      rw [update_self] at hw
      cases hw
    · rw [update_of_ne hu] at hw
      exact .inl hw
  | pin | unpin | store => exact .inl hw

theorem Inv.want_step (h : s.Inv) (hc : s.Change a s') (u : T) (b : BufId) (k : Key)
    (hw : (s'.pos u).wants = some (b, k)) : (s'.buf b).key = k := by
  rcases hc.wants hw with hw | ⟨-, hkey⟩
  · rw [hc.key_of_pos (h.refcnt_pos hw)]
    exact h.want u b k hw
  · exact hkey

/-- A thread goes on with a buffer that it has locked, or with none. -/
theorem Inv.hold_goto (h : s.Inv) {p : Pos} (hp : ∀ b, p.holds = some b → s.locked b = some t)
    (hh : (update s.pos t p u).holds = some b) : s.locked b = some u := by
  by_cases hu : u = t
  · subst hu
    rw [update_self] at hh
    exact hp b hh
  · rw [update_of_ne hu] at hh
    exact h.hold u b hh

theorem Inv.hold_step (h : s.Inv) (hc : s.Change a s') (u : T) (b : BufId)
    (hh : (s'.pos u).holds = some b) : s'.locked b = some u := by
  cases hc with
  | lock t c k hpos hfree =>
    change (update s.pos t _ u).holds = _ at hh
    show update s.locked c (some t) b = some u
    by_cases hu : u = t
    · subst hu
      rw [update_self] at hh
      cases hh
      exact update_self ..
    · rw [update_of_ne hu] at hh
      have hlock := h.hold u b hh
      rw [update_of_ne, hlock]
      rintro rfl
      rw [hfree] at hlock
      cases hlock
  | unlock t c hpos hlock =>
    have hu : s.locked b = some u := h.hold_goto (by nofun) hh
    show update s.locked c none b = some u
    rw [update_of_ne, hu]
    rintro rfl
    -- the lock is held by one thread only
    cases hlock.symm.trans hu
    change (update s.pos u _ u).holds = _ at hh
    rw [update_self] at hh
    cases hh
  | miss t c k hpos | fill t c k hpos =>
    refine h.hold_goto (fun b hb => ?_) hh
    exact h.hold t b (by rw [hpos]; exact hb)
  | bwrite t c hpos hlock =>
    refine h.hold_goto (fun b hb => ?_) hh
    cases hb
    exact hlock
  | hit | recycle | ready | valid | wrote | drop =>
    exact h.hold_goto (by nofun) hh
  | pin | unpin | store => exact h.hold u b hh

theorem Inv.change (h : s.Inv) (hc : s.Change a s') : s'.Inv where
  listed := h.listed.step hc
  counted := h.counted.step hc
  unique := h.unique_step hc
  want := h.want_step hc
  hold := h.hold_step hc

/-! ### Devices -/

/-- The call names device `d`. -/
def Act.OnDevice (d : BitVec 32) : Act T D → Prop
  | .bread _ k => k.dev = d
  | _ => True

/-- What is wanted and locked is on device `d`. -/
structure OnDevice (d : BitVec 32) (s : Bcache T D) : Prop where
  want : ∀ t b k, (s.pos t).wants = some (b, k) → k.dev = d
  locked : ∀ t b, s.locked b = some t → (s.buf b).key.dev = d

omit [Fintype T] in
theorem Change.locked (hc : s.Change a s') (hl : s'.locked b = some u) :
    s.locked b = some u ∨ ∃ k, (s.pos u).wants = some (b, k) := by
  cases hc with
  | lock t c k hpos _ =>
    change update s.locked c (some t) b = some u at hl
    by_cases hb : b = c
    · subst hb
      rw [update_self] at hl
      cases hl
      exact .inr ⟨k, by rw [hpos]; rfl⟩
    · rw [update_of_ne hb] at hl
      exact .inl hl
  | unlock t c _ _ =>
    change update s.locked c none b = some u at hl
    by_cases hb : b = c
    · subst hb
      rw [update_self] at hl
      cases hl
    · rw [update_of_ne hb] at hl
      exact .inl hl
  | _ => exact .inl hl

theorem OnDevice.step (h : s.Inv) (hdev : s.OnDevice d) (hc : s.Change a s')
    (ha : a.OnDevice d) : s'.OnDevice d where
  want u b k hw := by
    rcases hc.wants hw with hw | ⟨rfl, -⟩
    · exact hdev.want u b k hw
    · exact ha
  locked u b hl := by
    rcases hc.locked hl with hl | ⟨k, hw⟩
    · rw [hc.key_of_pos (h.counted.pos_of_locked hl)]
      exact hdev.locked u b hl
    · rw [hc.key_of_pos (h.refcnt_pos hw), h.want u b k hw]
      exact hdev.want u b k hw

/-! ### Data -/

/-- The data of buffer `b` is what was last put into it since it is for its block, or else what is
on the disk. -/
def Current (s : Bcache T D) (b : BufId) : Prop :=
  (s.buf b).data = (s.written b).getD (s.disk (s.buf b).key.blockno)

/-- What is known of the buffer that a thread reads from the disk. -/
def Fits (s : Bcache T D) : Pos → Prop
  | .read b _ => (s.buf b).valid = false
  | .filled b _ => (s.buf b).valid = false ∧ s.Current b
  | _ => True

/-- What is in the buffers, if all calls are for device `d`. -/
structure Coherent (d : BitVec 32) (s : Bcache T D) : Prop where
  valid : ∀ b, (s.buf b).valid = true → (s.buf b).key.dev = d ∧ s.Current b
  fresh : ∀ b, (s.buf b).valid = false → s.written b = none
  fits : ∀ t, s.Fits (s.pos t)
  /-- A buffer is locked by a thread that `bread` has returned it to, or is about to. -/
  held : ∀ t b, s.locked b = some t → (s.buf b).valid = true ∨ ∃ k, (s.pos t).wants = some (b, k)

/-- Buffer `b` has the same data, and the disk the same block. -/
structure Same (d : BitVec 32) (s s' : Bcache T D) (b : BufId) : Prop where
  buf : ∃ n, s'.buf b = { s.buf b with refcnt := n }
  written : s'.written b = s.written b
  disk : (s.buf b).key.dev = d →
    s'.disk (s.buf b).key.blockno = s.disk (s.buf b).key.blockno

namespace Same

omit [DecidableEq T] [Fintype T]

theorem valid (h : Same d s s' b) : (s'.buf b).valid = (s.buf b).valid := by
  obtain ⟨n, hn⟩ := h.buf
  rw [hn]

theorem current (h : Same d s s' b) (hb : (s.buf b).key.dev = d) (hcur : s.Current b) :
    (s'.buf b).key.dev = d ∧ s'.Current b := by
  obtain ⟨n, hn⟩ := h.buf
  rw [Current, hn, h.written, h.disk hb]
  exact ⟨hb, hcur⟩

theorem of_eq (hbuf : s'.buf = s.buf) (hwritten : s'.written = s.written)
    (hdisk : s'.disk = s.disk) (c : BufId) : Same d s s' c :=
  ⟨⟨_, congrFun hbuf c⟩, congrFun hwritten c, fun _ => congrFun hdisk _⟩

theorem of_update {n : ℕ} (hbuf : s'.buf = update s.buf b { s.buf b with refcnt := n })
    (hwritten : s'.written = s.written) (hdisk : s'.disk = s.disk) (c : BufId) :
    Same d s s' c where
  buf := by
    rw [hbuf]
    by_cases hc : c = b
    · subst hc
      exact ⟨n, update_self ..⟩
    · exact ⟨(s.buf c).refcnt, update_of_ne hc ..⟩
  written := congrFun hwritten c
  disk _ := congrFun hdisk _

end Same

section

variable (hd : d ≠ 0) (h : s.Inv) (hdev : s.OnDevice d) (hcoh : s.Coherent d)

include hd h in
omit [DecidableEq T] in
/-- Different buffers in use on the device are for different blocks. -/
theorem Inv.blockno_ne (hb : (s.buf b).key.dev = d) (hc : (s.buf c).key.dev = d) (hne : b ≠ c) :
    (s.buf b).key.blockno ≠ (s.buf c).key.blockno := by
  intro heq
  refine hne (h.unique b c ?_ (by rw [hb]; exact hd))
  cases hkb : (s.buf b).key
  cases hkc : (s.buf c).key
  rw [hkb] at hb heq
  rw [hkc] at hc heq
  cases hb
  cases hc
  cases heq
  rfl

include h hdev hcoh in
/-- Thread `t` goes to `p`: a buffer that does not keep its data is locked by `t` or by nobody. -/
theorem Coherent.of_step {p : Pos} (hpos : s'.pos = update s.pos t p)
    (hlock : ∀ u b, u ≠ t → s'.locked b = some u → s.locked b = some u)
    (hbuf : ∀ b, Same d s s' b ∨ (∀ u, s.locked b = some u → u = t) ∧
      ((s'.buf b).valid = true → (s'.buf b).key.dev = d ∧ s'.Current b) ∧
      ((s'.buf b).valid = false → s'.written b = none))
    (hfits : s'.Fits p)
    (hheld : ∀ b, s'.locked b = some t → (s'.buf b).valid = true ∨ ∃ k, p.wants = some (b, k)) :
    s'.Coherent d where
  valid b hv := by
    rcases hbuf b with hsame | ⟨-, hnew, -⟩
    · rw [hsame.valid] at hv
      obtain ⟨hb, hcur⟩ := hcoh.valid b hv
      exact hsame.current hb hcur
    · exact hnew hv
  fresh b hv := by
    rcases hbuf b with hsame | ⟨-, -, hnew⟩
    · rw [hsame.valid] at hv
      rw [hsame.written]
      exact hcoh.fresh b hv
    · exact hnew hv
  fits u := by
    rw [hpos]
    by_cases hu : u = t
    · rw [hu, update_self]
      exact hfits
    rw [update_of_ne hu]
    have hother : ∀ b, (s.pos u).holds = some b →
        Same d s s' b ∧ (s.buf b).key.dev = d := fun b hb => by
      have hl := h.hold u b hb
      exact ⟨(hbuf b).resolve_right fun hnew => hu (hnew.1 u hl), hdev.locked u b hl⟩
    have hold := hcoh.fits u
    cases hp : s.pos u with
    | read b k =>
      rw [hp] at hold hother
      exact (hother b rfl).1.valid.trans hold
    | filled b k =>
      rw [hp] at hold hother
      obtain ⟨hsame, hb⟩ := hother b rfl
      exact ⟨hsame.valid.trans hold.1, (hsame.current hb hold.2).2⟩
    | _ => trivial
  held u b hl := by
    rw [hpos]
    by_cases hu : u = t
    · subst hu
      rw [update_self]
      exact hheld b hl
    · have hl := hlock u b hu hl
      rw [update_of_ne hu, ((hbuf b).resolve_right fun hnew => hu (hnew.1 u hl)).valid]
      exact hcoh.held u b hl

include h hdev hcoh in
/-- A step that changes counts, locks and links only. -/
theorem Coherent.of_same {p : Pos} (hpos : s'.pos = update s.pos t p)
    (hlock : ∀ u b, u ≠ t → s'.locked b = some u → s.locked b = some u)
    (hbuf : ∀ b, Same d s s' b) (hfits : s'.Fits p)
    (hheld : ∀ b, s'.locked b = some t → (s.buf b).valid = true ∨ ∃ k, p.wants = some (b, k)) :
    s'.Coherent d :=
  hcoh.of_step h hdev hpos hlock (fun b => .inl (hbuf b)) hfits fun b hl =>
    (hheld b hl).imp_left (hbuf b).valid.trans

include h hdev hcoh in
/-- The step changes one buffer, which no other thread has locked. -/
theorem Coherent.of_write {p : Pos} (hpos : s'.pos = update s.pos t p)
    (hlocked : s'.locked = s.locked) (hothers : ∀ c, c ≠ b → Same d s s' c)
    (hown : s.locked b = some t ∨ ∀ u, s.locked b ≠ some u)
    (hvalid : (s'.buf b).valid = true → (s'.buf b).key.dev = d ∧ s'.Current b)
    (hfresh : (s'.buf b).valid = false → s'.written b = none) (hfits : s'.Fits p)
    (hself : s.locked b = some t → (s'.buf b).valid = true ∨ ∃ k, p.wants = some (b, k))
    (hheld : ∀ c, c ≠ b → s.locked c = some t → (s.buf c).valid = true) : s'.Coherent d := by
  refine hcoh.of_step h hdev hpos (fun u c _ hl => hlocked ▸ hl) (fun c => ?_) hfits fun c hl => ?_
  · by_cases hc : c = b
    · subst hc
      refine .inr ⟨fun u hu => ?_, hvalid, hfresh⟩
      exact hown.elim (fun hl => some.inj (hu.symm.trans hl)) fun hfree => absurd hu (hfree u)
    · exact .inl (hothers c hc)
  · rw [hlocked] at hl
    by_cases hc : c = b
    · subst hc
      exact hself hl
    · exact .inl ((hothers c hc).valid.trans (hheld c hc hl))

include hcoh in
omit [DecidableEq T] [Fintype T] in
/-- What a thread has locked while it reads nothing is valid. -/
theorem Coherent.valid_of_locked (ht : (s.pos t).wants = none) (hl : s.locked b = some t) :
    (s.buf b).valid = true := by
  refine (hcoh.held t b hl).resolve_right fun ⟨k, hk⟩ => ?_
  rw [ht] at hk
  cases hk

include hcoh in
omit [DecidableEq T] [Fintype T] in
/-- A thread that reads buffer `b` has locked nothing else that is not valid. -/
theorem Coherent.valid_or_eq {k : Key} (ht : (s.pos t).wants = some (b, k))
    (hl : s.locked c = some t) : (s.buf c).valid = true ∨ c = b := by
  refine (hcoh.held t c hl).imp_right fun ⟨k', hk⟩ => ?_
  rw [ht] at hk
  cases hk
  rfl

include hd h hdev hcoh

theorem Coherent.step (hc : s.Change a s') : s'.Coherent d := by
  have hkeep : ∀ t u b, u ≠ t → s.locked b = some u → s.locked b = some u := fun _ _ _ _ hl => hl
  cases hc with
  | hit t b k hpos _ | drop t b link hpos _ =>
    exact hcoh.of_same h hdev rfl (hkeep t) (Same.of_update rfl rfl rfl) trivial fun c hl =>
      .inl (hcoh.valid_of_locked (by rw [hpos]; rfl) hl)
  | pin t b hpos | unpin t b _ hpos =>
    exact hcoh.of_same h hdev (update_eq_self t s.pos).symm (hkeep t) (Same.of_update rfl rfl rfl)
      (by rw [hpos]; trivial) fun c hl => .inl (hcoh.valid_of_locked (by rw [hpos]; rfl) hl)
  | bwrite t b hpos _ =>
    exact hcoh.of_same h hdev rfl (hkeep t) (Same.of_eq rfl rfl rfl) trivial fun c hl =>
      .inl (hcoh.valid_of_locked (by rw [hpos]; rfl) hl)
  | lock t b k hpos hfree =>
    refine hcoh.of_same h hdev rfl (fun u c hu hl => ?_) (Same.of_eq rfl rfl rfl) trivial
      fun c hl => ?_
    · change update s.locked b (some t) c = some u at hl
      by_cases hc : c = b
      · rw [hc, update_self] at hl
        cases hl
        exact absurd rfl hu
      · rwa [update_of_ne hc] at hl
    · change update s.locked b (some t) c = some t at hl
      by_cases hc : c = b
      · exact .inr ⟨k, by rw [hc]; rfl⟩
      · rw [update_of_ne hc] at hl
        exact .inl ((hcoh.valid_or_eq (by rw [hpos]; rfl) hl).resolve_right hc)
  | ready t b k hpos hv | miss t b k hpos hv =>
    refine hcoh.of_same h hdev rfl (hkeep t) (Same.of_eq rfl rfl rfl)
      (by trivial) fun c hl => ?_
    rcases hcoh.valid_or_eq (by rw [hpos]; rfl) hl with hvalid | rfl
    · exact .inl hvalid
    · first | exact .inl hv | exact .inr ⟨k, rfl⟩
  | unlock t b hpos _ =>
    have hold : ∀ u c, update s.locked b none c = some u → s.locked c = some u := fun u c hl => by
      by_cases hc : c = b
      · rw [hc, update_self] at hl
        cases hl
      · rwa [update_of_ne hc] at hl
    exact hcoh.of_same h hdev rfl (fun u c _ hl => hold u c hl) (Same.of_eq rfl rfl rfl) trivial
      fun c hl => .inl (hcoh.valid_of_locked (by rw [hpos]; rfl) (hold t c hl))
  | recycle t b k hpos _ hzero =>
    have hfree : ∀ u, s.locked b ≠ some u := fun u hu => by
      have := h.counted.pos_of_locked hu
      omega
    refine hcoh.of_write h hdev rfl rfl
      (fun c hc => ⟨⟨_, update_of_ne hc ..⟩, update_of_ne hc .., fun _ => rfl⟩)
      (.inr hfree) (fun hv => ?_) (fun _ => update_self ..) trivial
      (fun hl => absurd hl (hfree t)) fun c _ hl => hcoh.valid_of_locked (by rw [hpos]; rfl) hl
    rw [show Bcache.buf _ b = _ from update_self (f := s.buf) ..] at hv
    cases hv
  | fill t b k hpos =>
    have hlock : s.locked b = some t := h.hold t b (by rw [hpos]; rfl)
    have hinvalid := hcoh.fits t
    rw [hpos] at hinvalid
    set s' : Bcache T D := (s.setBuf b { s.buf b with data := s.disk (s.buf b).key.blockno }).goto t
      (.filled b k)
    have hb : s'.buf b = { s.buf b with data := s.disk (s.buf b).key.blockno } := update_self ..
    have hvalid : (s'.buf b).valid = false := by
      rw [hb]
      exact hinvalid
    refine hcoh.of_write h hdev rfl rfl (fun c hc => ⟨⟨_, update_of_ne hc ..⟩, rfl, fun _ => rfl⟩)
      (.inl hlock) (fun hv => ?_) (fun _ => hcoh.fresh b hinvalid)
      ⟨hvalid, ?_⟩ (fun _ => .inr ⟨k, rfl⟩)
      fun c hc hl => (hcoh.valid_or_eq (by rw [hpos]; rfl) hl).resolve_right hc
    · rw [hvalid] at hv
      cases hv
    · rw [Current, hb, show s'.written b = none from hcoh.fresh b hinvalid]
      rfl
  | valid t b k hpos =>
    have hlock : s.locked b = some t := h.hold t b (by rw [hpos]; rfl)
    have hfits := hcoh.fits t
    rw [hpos] at hfits
    set s' : Bcache T D := (s.setBuf b { s.buf b with valid := true }).goto t .user
    have hb : s'.buf b = { s.buf b with valid := true } := update_self ..
    refine hcoh.of_write h hdev rfl rfl (fun c hc => ⟨⟨_, update_of_ne hc ..⟩, rfl, fun _ => rfl⟩)
      (.inl hlock) (fun _ => ?_) (fun hv => ?_) trivial
      (fun _ => .inl (by rw [hb]))
      fun c hc hl => (hcoh.valid_or_eq (by rw [hpos]; rfl) hl).resolve_right hc
    · rw [Current, hb]
      exact ⟨hdev.locked t b hlock, hfits.2⟩
    · rw [hb] at hv
      cases hv
  | wrote t b hpos =>
    have hlock : s.locked b = some t := h.hold t b (by rw [hpos]; rfl)
    have hheld : ∀ c, s.locked c = some t → (s.buf c).valid = true := fun c hl =>
      hcoh.valid_of_locked (by rw [hpos]; rfl) hl
    refine hcoh.of_write h hdev rfl rfl (fun c hc => ⟨⟨_, rfl⟩, rfl, fun hcd => update_of_ne
      (h.blockno_ne hd hcd (hdev.locked t b hlock) hc) ..⟩)
      (.inl hlock) (fun hv => ?_) (hcoh.fresh b) trivial
      (fun hl => .inl (hheld b hl)) fun c _ hl => hheld c hl
    obtain ⟨hbd, hcur⟩ := hcoh.valid b hv
    refine ⟨hbd, ?_⟩
    show (s.buf b).data = (s.written b).getD (update s.disk (s.buf b).key.blockno (s.buf b).data
      (s.buf b).key.blockno)
    rw [Current] at hcur
    cases hw : s.written b with
    | none => exact (update_self (f := s.disk) ..).symm
    | some v =>
      rw [hw] at hcur
      exact hcur
  | store t b v hpos hlock =>
    have hvalid := hcoh.valid_of_locked (by rw [hpos]; rfl) hlock
    set s' : Bcache T D := { s.setBuf b { s.buf b with data := v } with
      written := update s.written b (some v) }
    have hb : s'.buf b = { s.buf b with data := v } := update_self ..
    have hw : s'.written b = some v := update_self ..
    refine hcoh.of_write h hdev (update_eq_self t s.pos).symm rfl
      (fun c hc => ⟨⟨_, update_of_ne hc ..⟩, update_of_ne hc .., fun _ => rfl⟩)
      (.inl hlock) (fun _ => ?_) (fun hv => ?_)
      (by rw [hpos]; trivial) (fun _ => .inl (by rw [hb]; exact hvalid))
      fun c _ hl => hcoh.valid_of_locked (by rw [hpos]; rfl) hl
    · rw [Current, hb, hw]
      exact ⟨(hcoh.valid b hvalid).1, rfl⟩
    · rw [hb] at hv
      cases hv.symm.trans hvalid

end

/-! ### Runs -/

variable {data : BufId → D} {disk : BitVec 32 → D} {tr : List (Act T D)}

theorem inv_of_reach (h : Reach step Releases (start data disk) tr s) : s.Inv :=
  h.state_invariant (I := fun s : Bcache T D => s.Inv) (Inv.start data disk)
    fun _ _ _ hinv hr hs => hinv.change (step_change hinv.listed hr hs)

instance (s : Bcache T D) (a : Act T D) : Decidable (s.Releases a) :=
  match a with
  | .bunpin _ b => inferInstanceAs (Decidable (0 < s.pins b))
  | .bread _ _ | .go _ | .bwrite _ _ | .brelse _ _ | .bpin _ _ | .store _ _ _ => .isTrue trivial

/-- The first buffer that is recycled. -/
def oldest : BufId := ⟨0, by decide⟩

/-- A thread changes a block while another one waits for it. -/
def twoThreads : List (Act (Fin 2) ℕ) :=
  [.bread 0 ⟨1, 5⟩, .go 0, .go 0, .go 0, .go 0, .bread 1 ⟨1, 5⟩, .store 0 oldest 7, .bpin 0 oldest,
    .brelse 0 oldest, .go 1, .go 1, .go 0]

end Xv6.Bcache
