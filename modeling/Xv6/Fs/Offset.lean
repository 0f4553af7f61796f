import Xv6.Fs.FileAccess

/-!
# A shared offset loses and duplicates nothing

The processes that read and write through one open file take turns in the critical section of its
inode.  The invariant compares the offset, the parts of the file that were used, and the values
returned: the offset lags behind the parts by what the holder of the lock has yet to add, and the
values returned by what it has yet to return.
-/

namespace Xv6.FileAccess

open Function Transition List Fs
open Segment

variable {T : Type} {sb : Fs.Superblock} {f : OpenFile} {s₀ s s' : FileAccess T} {t u : T}
variable [DecidableEq T]

/-! ### The invariant -/

/-- The process holds the lock of the inode. -/
def Pos.holds : Pos → Bool
  | .idle | .lock _ => false
  | .transfer _ | .move _ _ | .unlock _ _ => true

/-- The bytes by which the offset has to be moved. -/
def Pos.unmoved : Pos → ℕ
  | .move _ r => r.toNat
  | _ => 0

/-- The bytes that the call has used and not returned. -/
def Pos.unreturned : Pos → ℕ
  | .move _ r | .unlock _ r => r.toNat
  | _ => 0

/-- What the holder of the lock is doing. -/
def holder (s : FileAccess T) : Pos := s.locked.elim .idle s.pos

def total (l : List (Span T)) : ℕ := (l.map Span.count).sum

/-- The parts follow each other from offset `o` on; the last one comes first in the list. -/
def Consecutive (o : ℕ) : List (Span T) → Prop
  | [] => True
  | sp :: l => sp.start = o + total l ∧ Consecutive o l

/-- A read writes nothing, and a write the bytes it returns. -/
def Span.Fits (sp : Span T) : Prop :=
  match sp.call with
  | .read _ _ => sp.bytes = []
  | .write _ n _ => sp.bytes.length = sp.count ∧ (sp.count = n.toNat ∨ sp.count = 0)

/-- Offset `k` is in the part that a call has written. -/
def Span.Writes (sp : Span T) (k : ℕ) : Prop := sp.start ≤ k ∧ k < sp.start + sp.bytes.length

/-- The bytes of a file hold what was written, and the rest is as it was. -/
structure Written (l₀ l : List Byte) (spans : List (Span T)) : Prop where
  held : ∀ sp ∈ spans, ∀ k < sp.bytes.length, l[sp.start + k]? = sp.bytes[k]?
  rest : ∀ k, (∀ sp ∈ spans, ¬ sp.Writes k) → l[k]? = l₀[k]?

structure Inv (sb : Fs.Superblock) (f : OpenFile) (s₀ s : FileAccess T) : Prop where
  ready : s.fs.Ready sb
  inode : f.ip < sb.ninodes
  ok : ∀ t, (s.pos t).Ok
  holds : ∀ t, (s.pos t).holds = true ↔ s.locked = some t
  loaded : ∀ t c, s.pos t = .transfer c → s.fs.valid f.ip = true
  bound : ∀ t c r, s.pos t = .move c r → 0 < r → s.off.toNat + r.toNat ≤ MAXFILE * BSIZE
  moved : s.off.toNat + s.holder.unmoved = s₀.off.toNat + total s.spans
  returned : total s.spans = (s.rets.map fun x => x.2.toNat).sum + s.holder.unreturned
  consecutive : Consecutive s₀.off.toNat s.spans
  fits : ∀ sp ∈ s.spans, sp.Fits
  written : Written (s₀.fs.contents sb f.ip) (s.fs.contents sb f.ip) s.spans
  /-- A call that used a part has its span, until it returns and afterwards. -/
  used : ∀ t c r, s.pos t = .move c r ∨ s.pos t = .unlock c r → 0 < r →
    ∃ sp ∈ s.spans, sp.who = t ∧ sp.call = c ∧ sp.count = r.toNat
  answered : ∀ x ∈ s.rets, 0 < x.2 → ∃ sp ∈ s.spans, sp.who = x.1 ∧ sp.count = x.2.toNat

variable {sp : Span T}

omit [DecidableEq T] in
theorem Span.Fits.length_le (h : sp.Fits) : sp.bytes.length ≤ sp.count := by
  unfold Fits at h
  split at h
  · rw [h]
    exact Nat.zero_le _
  · exact h.1.le

variable {o : ℕ}

omit [DecidableEq T] in
theorem Consecutive.stop_le {l : List (Span T)} (h : Consecutive o l) :
    ∀ sp ∈ l, sp.start + sp.count ≤ o + total l := by
  induction l with
  | nil => nofun
  | cons sp l ih =>
    intro sp' hmem
    have hsum : total (sp :: l) = sp.count + total l := by simp [total]
    rcases mem_cons.1 hmem with rfl | hmem
    · rw [h.1]
      omega
    · have := ih h.2 sp' hmem
      omega

variable {r : ℤ} {c : Call} {fs : Fs}

namespace Inv

omit [DecidableEq T] in
theorem holder_eq (h : Inv sb f s₀ s) (hp : (s.pos t).holds = true) : s.holder = s.pos t := by
  rw [holder, (h.holds t).1 hp]
  rfl

omit [DecidableEq T] in
theorem eq_of_holds (h : Inv sb f s₀ s) (ht : (s.pos t).holds = true)
    (hu : (s.pos u).holds = true) : u = t := by
  have h1 := (h.holds t).1 ht
  have h2 := (h.holds u).1 hu
  rw [h1] at h2
  exact (Option.some.inj h2).symm

variable {p : Pos}

section

variable (h : Inv sb f s₀ s)

include h

theorem holds_update (hp : (s.pos t).holds = p.holds) (u : T) :
    (update s.pos t p u).holds = true ↔ s.locked = some u := by
  by_cases hu : u = t
  · subst hu
    rw [update_self, ← hp]
    exact h.holds u
  · rw [update_of_ne hu]
    exact h.holds u

theorem ok_update (hp : p.Ok) (u : T) : (update s.pos t p u).Ok := by
  by_cases hu : u = t
  · subst hu
    rwa [update_self]
  · rw [update_of_ne hu]
    exact h.ok u

theorem holder_goto (ht : (s.pos t).holds = false) : (s.goto t p).holder = s.holder := by
  unfold holder goto
  cases hl : s.locked with
  | none => rfl
  | some u =>
    have hu : u ≠ t := by
      rintro rfl
      rw [(h.holds u).2 hl] at ht
      cases ht
    exact update_of_ne hu ..

/-- A process outside the critical section goes to another place outside it. -/
theorem outside (ht : (s.pos t).holds = false) (hp : p.holds = false)
    (hok : p.Ok) : Inv sb f s₀ (s.goto t p) := by
  have hother : ∀ u q, update s.pos t p u = q → q.holds = true → s.pos u = q := by
    intro u q hq hh
    by_cases hu : u = t
    · subst hu
      rw [update_self] at hq
      rw [hq, hh] at hp
      cases hp
    · rwa [update_of_ne hu] at hq
  exact
    { ready := h.ready
      inode := h.inode
      ok := h.ok_update hok
      holds := h.holds_update (ht.trans hp.symm)
      loaded := fun u c hu => h.loaded u c (hother u _ hu rfl)
      bound := fun u c r hu => h.bound u c r (hother u _ hu rfl)
      moved := by rw [h.holder_goto ht]; exact h.moved
      returned := by rw [h.holder_goto ht]; exact h.returned
      consecutive := h.consecutive
      fits := h.fits
      written := h.written
      used := fun u c r hu => h.used u c r
        (hu.imp (fun hu => hother u _ hu rfl) fun hu => hother u _ hu rfl)
      answered := h.answered }

/-- The call returns at once, without a byte read or written. -/
theorem refuse (hp : s.pos t = .idle) (hr : r ≤ 0) : Inv sb f s₀ (s.ret t r) := by
  have hidle : (s.pos t).holds = false := by rw [hp]; rfl
  have h' := h.outside (p := .idle) hidle rfl trivial
  exact
    { h' with
      returned := by
        have hret := h'.returned
        have hsum : ((s.ret t r).rets.map fun x => x.2.toNat).sum =
            r.toNat + (s.rets.map fun x => x.2.toNat).sum := by simp [ret]
        have hzero : r.toNat = 0 := by omega
        rw [hsum, hzero, Nat.zero_add]
        exact hret
      answered := by
        intro x hx hpos
        rcases mem_cons.1 hx with rfl | hx
        · exact absurd hpos (by simpa using hr)
        · exact h.answered x hx hpos }

/-- `ilock`. -/
theorem lock (hp : s.pos t = .lock c) (hfree : s.locked = none)
    (hload : s.fs.ilock sb f.ip = .ok fs) :
    Inv sb f s₀ { s.goto t (.transfer c) with fs := fs, locked := some t } := by
  obtain ⟨hready, hvalid, hcontents⟩ := ilock_ok h.ready h.inode hload
  have hnone : ∀ u, (s.pos u).holds = false := fun u => by
    rw [← Bool.not_eq_true, h.holds u, hfree]
    nofun
  -- nobody was in the critical section, so the process is alone there
  have honly : ∀ u q, update s.pos t (.transfer c) u = q → q.holds = true →
      q = .transfer c := by
    intro u q hq hh
    by_cases hu : u = t
    · subst hu
      rw [update_self] at hq
      exact hq.symm
    · rw [update_of_ne hu] at hq
      rw [← hq, hnone u] at hh
      cases hh
  have hholder : s.holder = .idle := by rw [holder, hfree]; rfl
  have hholder' : holder { s.goto t (.transfer c) with fs := fs, locked := some t } =
      .transfer c := update_self ..
  have hcall : c.Single := by
    have hok := h.ok t
    rwa [hp] at hok
  exact
    { ready := hready
      inode := h.inode
      ok := h.ok_update hcall
      holds := fun u => by
        by_cases hu : u = t
        · subst hu
          simp [goto, Pos.holds]
        · simp only [goto, update_of_ne hu, hnone u]
          simp [Ne.symm hu]
      loaded := fun _ _ _ => hvalid
      bound := fun u c' r hu => by cases honly u _ hu rfl
      moved := by
        have hmoved := h.moved
        rw [hholder] at hmoved
        rw [hholder']
        exact hmoved
      returned := by
        have hret := h.returned
        rw [hholder] at hret
        rw [hholder']
        exact hret
      consecutive := h.consecutive
      fits := h.fits
      written := by rw [hcontents]; exact h.written
      used := fun u c' r hu => by
        rcases hu with hu | hu
        · cases honly u _ hu rfl
        · cases honly u _ hu rfl
      answered := h.answered }

/-- The holder of the lock stays in the critical section. -/
theorem inside {q : Pos} (ht : (s.pos t).holds = true)
    (hq : update s.pos t p u = q) (hh : q.holds = true) : u = t ∧ q = p := by
  by_cases hu : u = t
  · subst hu
    rw [update_self] at hq
    exact ⟨rfl, hq.symm⟩
  · rw [update_of_ne hu] at hq
    exact absurd (h.eq_of_holds ht (hq ▸ hh)) hu

/-- `readi` or `writei` at the offset of the file. -/
theorem use {bytes : List Byte} (hp : s.pos t = .transfer c)
    (hready : fs.Ready sb) (hr : c.Yields r)
    (hbound : 0 < r → s.off.toNat + r.toNat ≤ MAXFILE * BSIZE)
    (hfits : Span.Fits ⟨t, c, s.off.toNat, r.toNat, bytes⟩)
    (hwritten : Written (s₀.fs.contents sb f.ip) (fs.contents sb f.ip)
    (⟨t, c, s.off.toNat, r.toNat, bytes⟩ :: s.spans)) :
    Inv sb f s₀ { s.use t c r bytes with fs := fs } := by
  have ht : (s.pos t).holds = true := by rw [hp]; rfl
  have hok : Pos.Ok (.move c r) := by
    have hok := h.ok t
    rw [hp] at hok
    exact ⟨hok, hr⟩
  have hlock := (h.holds t).1 ht
  have hholder : s.holder = .transfer c := (h.holder_eq ht).trans hp
  have hholder' : holder { s.use t c r bytes with fs := fs } = .move c r := by
    unfold holder FileAccess.use goto
    simp [hlock]
  have hmoved : s.off.toNat = s₀.off.toNat + total s.spans := by
    have hmoved := h.moved
    rwa [hholder] at hmoved
  have hsum : total ((s.use t c r bytes).spans) = r.toNat + total s.spans := by
    simp [FileAccess.use, total]
  exact
    { ready := hready
      inode := h.inode
      ok := h.ok_update hok
      holds := h.holds_update (ht.trans rfl)
      loaded := fun u c' hu => by cases (h.inside ht hu rfl).2
      bound := fun u c' r' hu hpos => by
        obtain ⟨rfl, heq⟩ := h.inside ht hu rfl
        cases heq
        exact hbound hpos
      moved := by
        rw [hholder', hsum]
        show s.off.toNat + r.toNat = _
        omega
      returned := by
        have hret := h.returned
        rw [hholder] at hret
        rw [hholder', hsum]
        show _ = (s.rets.map fun x => x.2.toNat).sum + r.toNat
        rw [hret]
        exact Nat.add_comm ..
      consecutive := ⟨hmoved, h.consecutive⟩
      fits := fun sp hsp => by
        rcases mem_cons.1 hsp with rfl | hsp
        · exact hfits
        · exact h.fits sp hsp
      written := hwritten
      used := fun u c' r' hu hpos => by
        rcases hu with hu | hu
        · obtain ⟨rfl, heq⟩ := h.inside ht hu rfl
          cases heq
          exact ⟨_, mem_cons_self, rfl, rfl, rfl⟩
        · cases (h.inside ht hu rfl).2
      answered := fun x hx hpos => by
        obtain ⟨sp, hsp, hfor⟩ := h.answered x hx hpos
        exact ⟨sp, mem_cons_of_mem _ hsp, hfor⟩ }

omit [DecidableEq T] in
/-- In the critical section the offset is behind all the parts used so far. -/
theorem stop_le_off (hp : s.pos t = .transfer c) :
    ∀ sp ∈ s.spans, sp.start + sp.bytes.length ≤ s.off.toNat := by
  intro sp hsp
  have hmoved := h.moved
  rw [h.holder_eq (t := t) (by rw [hp]; rfl), hp] at hmoved
  have hzero : (Pos.transfer c).unmoved = 0 := rfl
  have hstop := h.consecutive.stop_le sp hsp
  have hlen := (h.fits sp hsp).length_le
  omega

end

end Inv

omit [DecidableEq T] in
theorem Written.read {l0 l : List Byte} {spans : List (Span T)} (h : Written l0 l spans)
    (hsp : sp.bytes = []) : Written l0 l (sp :: spans) where
  held := by
    intro sp' hmem k hk
    rcases mem_cons.1 hmem with rfl | hmem
    · rw [hsp] at hk
      cases hk
    · exact h.held sp' hmem k hk
  rest := fun k hk => h.rest k fun sp' hmem => hk sp' (mem_cons_of_mem _ hmem)

omit [DecidableEq T] in
theorem Written.overwrite {l0 l : List Byte} {spans : List (Span T)} (h : Written l0 l spans)
    (sp : Span T) (hstart : sp.start ≤ l.length)
    (hbehind : ∀ sp' ∈ spans, sp'.start + sp'.bytes.length ≤ sp.start) :
    Written l0 (overwrite l sp.start sp.bytes) (sp :: spans) where
  held := by
    intro sp' hmem k hk
    rw [getElem?_overwrite hstart]
    rcases mem_cons.1 hmem with rfl | hmem
    · rw [if_pos (by omega), Nat.add_sub_cancel_left]
    · have := hbehind sp' hmem
      rw [if_neg (by omega)]
      exact h.held sp' hmem k hk
  rest := by
    intro k hk
    have hout : ¬ (sp.start ≤ k ∧ k < sp.start + sp.bytes.length) := hk sp mem_cons_self
    rw [getElem?_overwrite hstart, if_neg hout]
    exact h.rest k fun sp' hmem => hk sp' (mem_cons_of_mem _ hmem)

namespace Inv

section

variable (h : Inv sb f s₀ s)

include h

theorem read {addr : Word} {n : ℤ} {dst dst' : Fs.Dst}
    (hp : s.pos t = .transfer (.read addr n)) (hr : r ≠ -1)
    (hread : s.fs.readi sb f.ip dst s.off (BitVec.ofInt 32 n) = .ok ((r, dst'), fs)) :
    Inv sb f s₀ { s.use t (.read addr n) r [] with fs := fs } := by
  obtain ⟨hready, hcontents, hpos, hin⟩ := readi_ok h.ready (h.loaded t _ hp) hread hr
  refine h.use hp hready hpos (fun hlt => (hin hlt).trans (h.ready.2 _)) rfl ?_
  rw [hcontents]
  exact h.written.read rfl

theorem write {addr : Word} {n i : ℤ} {src : Fs.Src} {data : ℕ → Byte}
    (hp : s.pos t = .transfer (.write addr n i))
    (hsrc : src.Gives (BitVec.ofInt 32 (chunk n i)).toNat data)
    (hwrite : s.fs.writei sb f.ip src s.off (BitVec.ofInt 32 (chunk n i)) = .ok (r, fs)) :
    Inv sb f s₀
      { s.use t (.write addr n i) r (eitherCopyin 0 r.toNat src).1 with fs := fs } := by
  have hsingle := h.ok t
  rw [hp] at hsingle
  obtain ⟨rfl, hpos, hn⟩ := hsingle
  obtain ⟨hready, hcase⟩ := writei_ok h.ready (h.loaded t _ hp) hsrc hwrite
  rw [toNat_chunk hpos hn] at hsrc hcase
  rcases hcase with ⟨rfl, hcontents⟩ | ⟨rfl, hoff, hmax, hcontents⟩
  · -- nothing is written
    have hnone : (eitherCopyin 0 (-1 : ℤ).toNat src).1 = [] :=
      (show src.Gives 0 data from fun k hk => absurd hk (Nat.not_lt_zero k)).copied
    rw [hnone]
    refine h.use hp hready (.inr rfl) (fun hlt => absurd hlt (by decide)) ⟨rfl, .inr rfl⟩ ?_
    rw [hcontents]
    exact h.written.read rfl
  · have hall : (eitherCopyin 0 (n.toNat : ℤ).toNat src).1 = table n.toNat data := hsrc.copied
    rw [hall]
    refine h.use hp hready (.inl (by omega)) (fun _ => hmax) ⟨?_, .inl rfl⟩ ?_
    · rw [length_table]
      rfl
    · rw [hcontents]
      exact h.written.overwrite ⟨t, _, s.off.toNat, _, table n.toNat data⟩ hoff (h.stop_le_off hp)

/-- `f->off += r`. -/
theorem move (hp : s.pos t = .move c r) :
    Inv sb f s₀ { s.goto t (.unlock c r) with
      off := if r > 0 then s.off + BitVec.ofInt 32 r else s.off } := by
  have ht : (s.pos t).holds = true := by rw [hp]; rfl
  have hok : Pos.Ok (.unlock c r) := by
    have hok := h.ok t
    rwa [hp] at hok
  have hlock := (h.holds t).1 ht
  have hholder : s.holder = .move c r := (h.holder_eq ht).trans hp
  have hholder' : ∀ off, holder { s.goto t (.unlock c r) with off := off } = .unlock c r := by
    intro off
    unfold holder goto
    simp [hlock]
  have hoff : (if r > 0 then s.off + BitVec.ofInt 32 r else s.off).toNat =
      s.off.toNat + r.toNat := by
    have hlt := s.off.isLt
    have hmax : MAXFILE * BSIZE < 2 ^ 31 := by decide
    split_ifs with hpos
    · have hbound := h.bound t c r hp hpos
      rw [BitVec.toNat_add, BitVec.toNat_ofInt]
      omega
    · omega
  exact
    { ready := h.ready
      inode := h.inode
      ok := h.ok_update hok
      holds := h.holds_update (ht.trans rfl)
      loaded := fun u c' hu => by cases (h.inside ht hu rfl).2
      bound := fun u c' r' hu => by cases (h.inside ht hu rfl).2
      moved := by
        have hmoved := h.moved
        rw [hholder] at hmoved
        rw [hholder', hoff]
        exact hmoved
      returned := by
        have hret := h.returned
        rw [hholder] at hret
        rw [hholder']
        exact hret
      consecutive := h.consecutive
      fits := h.fits
      written := h.written
      used := fun u c' r' hu hpos => by
        rcases hu with hu | hu
        · cases (h.inside ht hu rfl).2
        · obtain ⟨rfl, heq⟩ := h.inside ht hu rfl
          cases heq
          exact h.used u c r (.inl hp) hpos
      answered := h.answered }

/-- `iunlock`, and the return. -/
theorem unlock (hp : s.pos t = .unlock c r) : Inv sb f s₀ { s.ret t r with locked := none } := by
  have ht : (s.pos t).holds = true := by rw [hp]; rfl
  have hholder : s.holder = .unlock c r := (h.holder_eq ht).trans hp
  have hnone : ∀ u, (update s.pos t .idle u).holds = false := by
    intro u
    rw [← Bool.not_eq_true]
    intro hu
    rw [(h.inside ht rfl hu).2] at hu
    cases hu
  have hnot : ∀ u q, update s.pos t .idle u = q → q.holds = false := fun u q hq =>
    hq ▸ hnone u
  exact
    { ready := h.ready
      inode := h.inode
      ok := h.ok_update trivial
      holds := fun u => by
        show (update s.pos t .idle u).holds = true ↔ none = some u
        rw [hnone u]
        simp
      loaded := fun u c' hu => by cases hnot u _ hu
      bound := fun u c' r' hu => by cases hnot u _ hu
      moved := by
        have hmoved := h.moved
        rw [hholder] at hmoved
        exact hmoved
      returned := by
        have hret := h.returned
        rw [hholder] at hret
        show total s.spans = (((t, r) :: s.rets).map fun x => x.2.toNat).sum + 0
        rw [map_cons, sum_cons, hret]
        exact Nat.add_comm ..
      consecutive := h.consecutive
      fits := h.fits
      written := h.written
      used := fun u c' r' hu => by
        rcases hu with hu | hu
        · cases hnot u _ hu
        · cases hnot u _ hu
      answered := fun x hx hpos => by
        rcases mem_cons.1 hx with rfl | hx
        · obtain ⟨sp, hsp, hwho, -, hcount⟩ := h.used t c r (.inr hp) hpos
          exact ⟨sp, hsp, hwho, hcount⟩
        · exact h.answered x hx hpos }

theorem change (hc : Change sb f s t s') : Inv sb f s₀ s' := by
  cases hc with
  | enter c hp hc => exact h.outside (by rw [hp]; rfl) rfl hc
  | refuse r hp hr => exact h.refuse hp hr
  | lock c fs hp hfree hload => exact h.lock hp hfree hload
  | read addr n r dst dst' fs hp hr hread => exact h.read hp hr hread
  | write addr n i r src data fs hp hsrc hwrite => exact h.write hp hsrc hwrite
  | move c r hp => exact h.move hp
  | unlock c r hp => exact h.unlock hp

end

end Inv

/-! ### All interleavings -/

/-- The file is open, and no process is in a call. -/
structure Start (sb : Fs.Superblock) (f : OpenFile) (s : FileAccess T) : Prop where
  ready : s.fs.Ready sb
  inode : f.ip < sb.ninodes
  locked : s.locked = none
  idle : ∀ t, s.pos t = .idle
  spans : s.spans = []
  rets : s.rets = []

omit [DecidableEq T] in
theorem Start.inv (h : Start sb f s₀) : Inv sb f s₀ s₀ where
  ready := h.ready
  inode := h.inode
  ok t := by rw [h.idle t]; trivial
  holds t := by
    rw [h.idle t, h.locked]
    exact ⟨nofun, nofun⟩
  loaded t c hp := by cases (h.idle t).symm.trans hp
  bound t c r hp := by cases (h.idle t).symm.trans hp
  moved := by
    rw [holder, h.locked, h.spans]
    rfl
  returned := by
    rw [holder, h.locked, h.spans, h.rets]
    rfl
  consecutive := by rw [h.spans]; trivial
  fits := by rw [h.spans]; nofun
  written := ⟨by rw [h.spans]; nofun, fun _ _ => rfl⟩
  used t c r hp := by
    rw [h.idle t] at hp
    rcases hp with hp | hp <;> cases hp
  answered := by rw [h.rets]; nofun

omit [DecidableEq T] in
theorem Consecutive.split {later earlier : List (Span T)}
    (h : Consecutive o (later ++ sp :: earlier)) : sp.start = o + total earlier := by
  induction later with
  | nil => exact h.1
  | cons _ later ih => exact ih h.2

omit [DecidableEq T] in
theorem Consecutive.pairwise {l : List (Span T)} (h : Consecutive o l) :
    l.Pairwise fun later earlier => earlier.start + earlier.count ≤ later.start := by
  induction l with
  | nil => exact .nil
  | cons sp l ih =>
    refine .cons (fun sp' hmem => ?_) (ih h.2)
    rw [h.1]
    exact h.2.stop_le sp' hmem

/-- **A shared offset loses and duplicates nothing.** Several processes read and write through one
open file, each write at most a chunk, and no copy fails.  Then the parts of the file that the calls
use follow each other from the offset at the start, in the order in which the calls hold the lock of
the inode, and so they are disjoint; a call that returns a count has used a part of that size;
between calls the offset is the offset at the start plus the sum of the counts returned; and the
file holds the bytes of each write at the part that the write used, and otherwise what it held at
the start. -/
theorem shared_offset (h₀ : Start sb f s₀) {tr : List (Act T)}
    (h : Reach (step sb f) (Copies sb f) s₀ tr s) :
    (∀ later sp earlier, s.spans = later ++ sp :: earlier →
      sp.start = s₀.off.toNat + (earlier.map Span.count).sum) ∧
    (s.spans.Pairwise fun later earlier => earlier.start + earlier.count ≤ later.start) ∧
    (∀ x ∈ s.rets, 0 < x.2 → ∃ sp ∈ s.spans, sp.who = x.1 ∧ sp.count = x.2.toNat) ∧
    ((∀ t, s.pos t = .idle) →
      s.off.toNat = s₀.off.toNat + (s.rets.map fun x => x.2.toNat).sum) ∧
    (∀ sp ∈ s.spans, sp.Fits ∧
      ∀ k < sp.bytes.length, (s.fs.contents sb f.ip)[sp.start + k]? = sp.bytes[k]?) ∧
    ∀ k, (∀ sp ∈ s.spans, ¬ sp.Writes k) →
      (s.fs.contents sb f.ip)[k]? = (s₀.fs.contents sb f.ip)[k]? := by
  have hinv : Inv sb f s₀ s := h.state_invariant h₀.inv fun _ _ _ hi hG hs =>
    let ⟨_, hc⟩ := step_change hi.ok hG hs
    hi.change hc
  refine ⟨fun later sp earlier heq => ?_, hinv.consecutive.pairwise, hinv.answered,
    fun hidle => ?_, fun sp hsp => ⟨hinv.fits sp hsp, hinv.written.held sp hsp⟩, hinv.written.rest⟩
  · have hchain := hinv.consecutive
    rw [heq] at hchain
    exact hchain.split
  · have hholder : s.holder = .idle := by
      unfold holder
      cases hl : s.locked with
      | none => rfl
      | some t => exact hidle t
    have hmoved := hinv.moved
    have hret := hinv.returned
    rw [hholder] at hmoved hret
    exact hmoved.trans (congrArg _ hret)

/-- Two processes with one file; user memory is a page that holds 0, 1, 2 and so on. -/
def twoSharing : FileAccess Bool where
  fs := boot smallImage
  off := 0
  locked := none
  pos := fun _ => .idle
  spans := []
  rets := []

def onePage : UserMem := fun va => if va = 0 then some fun k => BitVec.ofNat 8 k else none

/-- The writes of two processes overlap, then one of them reads at the end of the file. -/
def sharing : List (Act Bool) :=
  [.write true 5 2, .write false 9 1, .lock true, .transfer true onePage, .move true, .unlock true,
    .lock false, .read true 0 4, .transfer false onePage, .move false, .unlock false, .lock true,
    .transfer true onePage, .move true, .unlock true]

theorem start_twoSharing : Start smallDisk ⟨1, true, true⟩ twoSharing where
  ready := by
    have hempty : ∀ i < 2, twoSharing.fs.contents smallDisk i = [] := by decide
    refine ⟨inv_smallImage, fun i => ?_⟩
    by_cases hi : i < smallDisk.ninodes
    · rw [hempty i hi]
      decide
    · rw [contents, if_neg hi]
      decide
  inode := by decide
  locked := rfl
  idle _ := rfl
  spans := rfl
  rets := rfl

theorem shared_offset_two : ∃ s,
    Reach (step smallDisk ⟨1, true, true⟩) (Copies smallDisk ⟨1, true, true⟩)
      twoSharing sharing.reverse s ∧
    s.off = 3 ∧ s.rets = [(true, 0), (false, 1), (true, 2)] ∧
    s.fs.contents smallDisk 1 = [5, 6, 9] ∧
    s.spans.Pairwise fun later earlier => earlier.start + earlier.count ≤ later.start := by
  obtain ⟨s, hs, heq⟩ : ∃ s ∈ runWhen (step smallDisk ⟨1, true, true⟩) (Copies smallDisk ⟨1,
      true, true⟩) twoSharing sharing, s.off = 3 ∧ s.rets = [(true, 0), (false, 1), (true, 2)] ∧
      s.fs.contents smallDisk 1 = [5, 6, 9] := by decide
  have hreach := reach_of_runWhen hs
  obtain ⟨-, hdisjoint, -⟩ := shared_offset start_twoSharing hreach
  exact ⟨s, hreach, heq.1, heq.2.1, heq.2.2, hdisjoint⟩

end Xv6.FileAccess
