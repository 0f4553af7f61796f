import Xv6.File.Descriptors
import Xv6.Lib.Tally

/-!
# The reference counts of open files

The reference counts of files and inodes add up: a file is counted by the descriptors that hold it,
the threads that are about to close it and the references of other processes; an inode by the
working directory, the open files, the threads that look a path up or are about to put it, and
again the other processes.

Two kinds of slot are out of step with the counters: one that `exit` or `sys_chdir` has released
and not yet overwritten, and one that `sys_dup` has filled before `filedup`.  The counts stay right
as long as nobody else uses such a slot, which is the condition on the steps.
-/

namespace Xv6.Files

open Tally List Function

/-! ### Which slots a position depends on -/

inductive Slot
  | fd (fd : Fd)
  | cwd
  deriving DecidableEq, Repr

namespace Place

/-- The slots that are going to be written, or whose reference is yet to be counted. -/
def owns : Place → List Slot
  | .closeZero fd _ => [.fd fd]
  | .dupStore _ _ k => [.fd k]
  | .filedup _ _ k => [.fd k]
  | .chdirStore _ _ => [.cwd]
  | _ => []

/-- The slots whose reference has to stay for a while. -/
def reads : Place → List Slot
  | .dupScan _ src _ => [.fd src]
  | .dupStore _ src _ => [.fd src]
  | .filedup _ src _ => [.fd src]
  | .idup _ => [.cwd]
  | _ => []

def uses (k : Place) : List Slot := k.owns ++ k.reads

/-- The place is in `exit` or after it. -/
def exits : Place → Bool
  | .exitTest _ => true
  | .exitLoad _ => true
  | .exitZero _ _ => true
  | .exitCwd => true
  | .exitZeroCwd _ => true
  | .exited => true
  | _ => false

/-- A file that a slot points to without being counted. -/
def uncounted : Place → Option FileId
  | .exitZero _ f => f
  | .filedup f _ _ => some f
  | _ => none

/-- The slot that points to it. -/
def slot : Place → Option Fd
  | .exitZero fd _ => some fd
  | .filedup _ _ k => some k
  | _ => none

/-- An inode that `p->cwd` points to without being counted. -/
def stale : Place → Option InodeId
  | .exitZeroCwd old => old
  | .chdirStore old _ => old
  | _ => none

/-- The inode that a lookup holds. -/
def keeps : Place → Option InodeId
  | .ilock ip => some ip
  | .locked ip => some ip
  | .chdirCwd ip => some ip
  | .chdirStore _ ip => some ip
  | _ => none

/-- What the slots contain while a thread is at the place. -/
def Fits (s : State) : Place → Prop
  | .exitTest fd => ∀ fd' < fd, s.ofile fd' = none
  | .exitLoad fd => s.ofile fd ≠ none ∧ ∀ fd' < fd, s.ofile fd' = none
  | .exitZero fd f => s.ofile fd = f ∧ ∀ fd' < fd, s.ofile fd' = none
  | .exitCwd => ∀ fd, s.ofile fd = none
  | .exitZeroCwd old => s.cwd = old ∧ ∀ fd, s.ofile fd = none
  | .exited => s.cwd = none ∧ ∀ fd, s.ofile fd = none
  | .closeZero fd f => s.ofile fd = some f
  | .dupScan f src _ => s.ofile src = some f
  | .dupStore f src k => s.ofile src = some f ∧ s.ofile k = none
  | .filedup f src k => s.ofile src = some f ∧ s.ofile k = some f ∧ src ≠ k
  | .idup ip => s.cwd = ip
  | .chdirStore old _ => s.cwd = old
  | _ => True

end Place

namespace Pc

/-- The place a thread is at, or returns to. -/
def place : Pc → Place
  | .here k => k
  | .fileclose _ k => k
  | .iunlockput _ k => k
  | .iput _ k => k
  | .itrunc _ k => k

/-- The file that is about to be closed. -/
def closing : Pc → Option FileId
  | .fileclose f _ => f
  | _ => none

/-- The inode that is about to be put. -/
def putting : Pc → Option InodeId
  | .iunlockput ip _ => some ip
  | .iput ip _ => ip
  | .itrunc ip _ => some ip
  | _ => none

/-- No function is called with a null pointer. -/
def Valid : Pc → Prop
  | .fileclose f _ => f ≠ none
  | .iput ip _ => ip ≠ none
  | _ => True

/-- What a thread adds to the references of a file. -/
def fileWeight (f : FileId) (p : Pc) : ℤ := ind p.closing f - ind p.place.uncounted f

/-- What a thread adds to the references of an inode. -/
def inodeWeight (i : InodeId) (p : Pc) : ℤ :=
  ind p.putting i + ind p.place.keeps i - ind p.place.stale i

end Pc

/-! ### The invariant -/

namespace State

def place (s : State) (t : ThreadId) : Place := (s.pc t).place

/-- No other thread depends on the slot. -/
def Unused (s : State) (t : ThreadId) (σ : Slot) : Prop := ∀ t', t' ≠ t → σ ∉ (s.place t').uses

/-- No other thread is going to write the slot. -/
def Unowned (s : State) (t : ThreadId) (σ : Slot) : Prop := ∀ t', t' ≠ t → σ ∉ (s.place t').owns

def NoExit (s : State) : Prop := ∀ t, (s.place t).exits = false

/-- A call reads a descriptor, or the working directory, to replace it while no other thread
depends on it, and to duplicate it while no other thread is going to replace it.  `exit` is called
while no other thread is in one of the calls, and no other call is made after it. -/
def CarefulCall (s : State) (t : ThreadId) : Call → Prop
  | .exit => ∀ t', t' ≠ t → s.pc t' = .here .user
  | .close fd => s.NoExit ∧ s.Unused t (.fd fd)
  | .dup fd => s.NoExit ∧ s.Unowned t (.fd fd)
  | .chdir none => s.NoExit ∧ s.Unowned t .cwd
  | .chdir (some _) => s.NoExit

/-- The condition on the steps; it concerns the first step of a call, the search of `fdalloc` for a
free descriptor, and the read of the working directory that `sys_chdir` replaces. -/
def Careful (s : State) : Event → Prop
  | .other _ => True
  | .thread t a =>
    match s.pc t with
    | .here .user =>
      match a with
      | .call c => s.CarefulCall t c
      | _ => True
    | .here (.dupScan _ _ k) => s.ofile k = none → s.Unused t (.fd k)
    | .here (.chdirCwd _) => s.Unused t .cwd
    | _ => True

structure Inv (s : State) : Prop where
  fault : s.fault = none
  /-- Nobody depends on a slot that another thread is going to write. -/
  excl : ∀ t t', t ≠ t' → ∀ σ ∈ (s.place t).owns, σ ∉ (s.place t').uses
  /-- A thread in `exit` is alone. -/
  alone : ∀ t, (s.place t).exits = true → ∀ t', t' ≠ t → s.pc t' = .here .user
  fits : ∀ t, (s.place t).Fits s
  valid : ∀ t, (s.pc t).Valid
  cwd : s.cwd = none → ∃ t, s.place t = .exited
  free : ∀ f, s.ref f = 0 → s.ip f = none
  files : ∀ f, s.ref f = s.ext f + tally s.ofile (ind · f) + tally s.pc (Pc.fileWeight f)
  inodes : ∀ i, s.iref i =
    s.iext i + ind s.cwd i + tally s.ip (ind · i) + tally s.pc (Pc.inodeWeight i)

end State

variable {s s' : State} {t : ThreadId} {p : Pc} {k : Place} {f : FileId} {i : InodeId}

theorem Place.slot_of_uncounted (h : k.uncounted = some f) : ∃ fd, k.slot = some fd := by
  cases k <;> first | exact ⟨_, rfl⟩ | cases h

namespace State.Inv

/-- A slot that points to `f` without being counted. -/
theorem claim_ofile (h : s.Inv) {fd : Fd} (hf : (s.place t).uncounted = some f)
    (hfd : (s.place t).slot = some fd) : s.ofile fd = some f := by
  have hfits := h.fits t
  cases hp : s.place t with
  | exitZero fd' f' =>
    rw [hp] at hf hfd hfits
    cases hfd
    exact hfits.1.trans hf
  | filedup f' src k =>
    rw [hp] at hf hfd hfits
    cases hfd
    cases hf
    exact hfits.2.1
  | _ => rw [hp] at hfd; cases hfd

theorem claim_unused (h : s.Inv) {fd : Fd} (hfd : (s.place t).slot = some fd) {t' : ThreadId}
    (ht : t' ≠ t) : .fd fd ∉ (s.place t').uses := by
  cases hp : s.place t with
  | exitZero fd' f' =>
    have huser : s.place t' = .user := by
      unfold place
      rw [h.alone t (by rw [hp]; rfl) t' ht]
      rfl
    rw [huser]
    nofun
  | filedup f' src k' =>
    rw [hp] at hfd
    cases hfd
    exact h.excl t t' ht.symm _ (by rw [hp]; exact mem_singleton_self _)
  | _ => rw [hp] at hfd; cases hfd

theorem claim_inj (h : s.Inv) {fd : Fd} {t' : ThreadId} (hfd : (s.place t).slot = some fd)
    (hfd' : (s.place t').slot = some fd) : t = t' := by
  by_contra hne
  have hout := h.claim_unused hfd (Ne.symm hne)
  cases hp : s.place t' with
  | exitZero fd' f' =>
    have huser : s.place t = .user := by
      unfold place
      rw [h.alone t' (by rw [hp]; rfl) t hne]
      rfl
    rw [huser] at hfd
    cases hfd
  | filedup f' src k' =>
    rw [hp] at hfd' hout
    cases hfd'
    exact hout (mem_cons_self)
  | _ => rw [hp] at hfd'; cases hfd'

theorem claim_of_uncounted (h : s.Inv) (hf : (s.place t).uncounted = some f) :
    ∃ fd, (s.place t).slot = some fd ∧ s.ofile fd = some f := by
  obtain ⟨fd, hfd⟩ := Place.slot_of_uncounted hf
  exact ⟨fd, hfd, h.claim_ofile hf hfd⟩

/-- The threads that are about to close `f`, and those that owe a reference. -/
theorem fileWeight_eq (s : State) (f : FileId) :
    tally s.pc (Pc.fileWeight f) =
      tally (fun t => (s.pc t).closing) (ind · f) -
        tally (fun t => (s.place t).uncounted) (ind · f) :=
  tally_sub s.pc _ _

/-- For every reference that a thread owes there is a descriptor. -/
theorem debts_le (h : s.Inv) (f : FileId) :
    tally (fun t => (s.place t).uncounted) (ind · f) ≤ tally s.ofile (ind · f) :=
  claims_le (fun t => (s.place t).slot) (fun _ => h.claim_of_uncounted)
    (fun _ _ _ _ _ hfd hfd' => h.claim_inj hfd hfd')

theorem ext_le_ref (h : s.Inv) (f : FileId) : s.ext f ≤ s.ref f := by
  have hdebts := h.debts_le f
  have hclosing : 0 ≤ tally (fun t => (s.pc t).closing) (ind · f) :=
    tally_nonneg fun _ => ind_nonneg
  have hfiles := h.files f
  rw [fileWeight_eq] at hfiles
  omega

/-- A file that a thread is about to close has a reference. -/
theorem one_le_ref_of_closing (h : s.Inv) (ht : (s.pc t).closing = some f) : 1 ≤ s.ref f := by
  have hdebts := h.debts_le f
  have hself : 1 ≤ tally (fun t => (s.pc t).closing) (ind · f) :=
    one_le_tally (fun _ => ind_nonneg) (k := t) (by simp [ht])
  have hfiles := h.files f
  rw [fileWeight_eq] at hfiles
  omega

/-- A file that a thread is about to duplicate has a reference, that of the descriptor given. -/
theorem one_le_ref_of_filedup (h : s.Inv) {src fd : Fd} (ht : s.place t = .filedup f src fd) :
    1 ≤ s.ref f := by
  have hfits := h.fits t
  rw [ht] at hfits
  -- nobody owes the reference of that descriptor
  have hfree : ∀ t', (s.place t').slot ≠ some src := fun t' hsrc => by
    by_cases htt : t = t'
    · subst htt
      rw [ht] at hsrc
      exact hfits.2.2 (Option.some.inj hsrc).symm
    · refine h.claim_unused hsrc htt ?_
      rw [ht]
      simp [Place.uses, Place.owns, Place.reads]
  have hdebts := claims_lt (p := s.ofile) (q := fun t => (s.place t).uncounted) (a := f)
    (fun t => (s.place t).slot) (fun t => h.claim_of_uncounted)
    (fun t t' fd _ _ hfd hfd' => h.claim_inj hfd hfd') hfits.1 (fun t' _ => hfree t')
  have hclosing : 0 ≤ tally (fun t => (s.pc t).closing) (ind · f) :=
    tally_nonneg fun _ => ind_nonneg
  have hfiles := h.files f
  rw [fileWeight_eq] at hfiles
  omega

/-- At most one thread has released the working directory and not yet replaced it. -/
theorem stale_le (h : s.Inv) (i : InodeId) :
    tally (fun t => (s.place t).stale) (ind · i) ≤ ind s.cwd i := by
  -- such a thread owns the working directory, or is alone
  have hkind : ∀ {t : ThreadId}, (s.place t).stale = some i →
      s.cwd = some i ∧ ((s.place t).exits = true ∨ .cwd ∈ (s.place t).owns) := by
    intro t hv
    have hfits := h.fits t
    cases hp : s.place t with
    | exitZeroCwd old => rw [hp] at hv hfits; exact ⟨hfits.1.trans hv, .inl rfl⟩
    | chdirStore old ip =>
      rw [hp] at hv hfits
      exact ⟨hfits.trans hv, .inr (mem_singleton_self _)⟩
    | _ => rw [hp] at hv; cases hv
  have huser : ∀ {t t' : ThreadId}, (s.place t).exits = true → t' ≠ t →
      (s.place t').stale ≠ some i := fun {t t'} hexit hne hst => by
    unfold place at hst
    rw [h.alone t hexit t' hne] at hst
    cases hst
  have hclaims := claims_le (p := fun _ : Unit => s.cwd) (q := fun t => (s.place t).stale) (a := i)
    (fun _ => some ()) (fun t ht => ⟨(), rfl, (hkind ht).1⟩) fun t t' _ ht ht' _ _ => ?_
  · simpa [tally] using hclaims
  · by_contra hne
    rcases (hkind ht).2 with hexit | howns
    · exact huser hexit (Ne.symm hne) ht'
    · rcases (hkind ht').2 with hexit' | howns'
      · exact huser hexit' hne ht
      · exact h.excl t t' hne .cwd howns (mem_append_left _ howns')

theorem one_le_iref (h : s.Inv)
    (ht : (s.pc t).putting = some i ∨ (s.place t).keeps = some i) : 1 ≤ s.iref i := by
  have hstale := h.stale_le i
  have hself : 1 ≤ tally s.pc (fun p => ind p.putting i + ind p.place.keeps i) := by
    refine one_le_tally (k := t) (fun _ => add_nonneg ind_nonneg ind_nonneg) ?_
    rcases ht with ht | ht
    · have := ind_nonneg (v := (s.pc t).place.keeps) (a := i)
      rw [ht, ind_self]
      omega
    · have := ind_nonneg (v := (s.pc t).putting) (a := i)
      unfold place at ht
      rw [ht, ind_self]
      omega
  have hip : 0 ≤ tally s.ip (ind · i) := tally_nonneg fun _ => ind_nonneg
  have hsum : tally s.pc (Pc.inodeWeight i) =
      tally s.pc (fun p => ind p.putting i + ind p.place.keeps i) -
        tally (fun t => (s.place t).stale) (ind · i) := tally_sub s.pc _ _
  have hinodes := h.inodes i
  rw [hsum] at hinodes
  omega

end State.Inv

/-! ### Steps of a thread -/

/-- The slot has the same contents in both states. -/
def Same (s s' : State) : Slot → Prop
  | .fd fd => s'.ofile fd = s.ofile fd
  | .cwd => s'.cwd = s.cwd

theorem Place.Fits.frame (h : k.Fits s) (hexits : k.exits = false)
    (hsame : ∀ σ ∈ k.uses, Same s s' σ) : k.Fits s' := by
  cases k with
  | closeZero fd f =>
    have hfd : s'.ofile fd = s.ofile fd := hsame (.fd fd) (by simp [uses, owns])
    exact hfd.trans h
  | dupScan f src fd =>
    have hsrc : s'.ofile src = s.ofile src := hsame (.fd src) (by simp [uses, reads])
    exact hsrc.trans h
  | dupStore f src fd =>
    have hsrc : s'.ofile src = s.ofile src := hsame (.fd src) (by simp [uses, reads])
    have hfd : s'.ofile fd = s.ofile fd := hsame (.fd fd) (by simp [uses, owns])
    exact ⟨hsrc.trans h.1, hfd.trans h.2⟩
  | filedup f src fd =>
    have hsrc : s'.ofile src = s.ofile src := hsame (.fd src) (by simp [uses, reads])
    have hfd : s'.ofile fd = s.ofile fd := hsame (.fd fd) (by simp [uses, owns])
    exact ⟨hsrc.trans h.1, hfd.trans h.2.1, h.2.2⟩
  | idup ip =>
    have hcwd : s'.cwd = s.cwd := hsame .cwd (by simp [uses, reads])
    exact hcwd.trans h
  | chdirStore old ip =>
    have hcwd : s'.cwd = s.cwd := hsame .cwd (by simp [uses, owns])
    exact hcwd.trans h
  | user | ilock | locked | chdirCwd => trivial
  | _ => cases hexits

theorem Place.fits_congr (hofile : s'.ofile = s.ofile) (hcwd : s'.cwd = s.cwd) :
    k.Fits s' ↔ k.Fits s := by
  cases k <;> simp only [Place.Fits, hofile, hcwd]

/-- Thread `t` moves on to `p` without disturbing the others, and the counters move with it. -/
structure Moves (s s' : State) (t : ThreadId) (p : Pc) : Prop where
  pc : s'.pc = update s.pc t p
  fault : s'.fault = none
  ext : s'.ext = s.ext
  iext : s'.iext = s.iext
  quiet : ∀ t', t' ≠ t → (s.place t').exits = false
  owns : ∀ σ ∈ p.place.owns, s.Unused t σ
  reads : ∀ σ ∈ p.place.reads, s.Unowned t σ
  same : ∀ σ, Same s s' σ ∨ s.Unused t σ
  alone : p.place.exits = true → ∀ t', t' ≠ t → s.pc t' = .here .user
  fits : p.place.Fits s'
  valid : p.Valid
  cwd : s'.cwd = none → p.place = .exited ∨ s.cwd = none ∧ s.place t ≠ .exited
  free : ∀ f, s'.ref f = 0 → s'.ip f = none
  files : ∀ f, s'.ref f + tally s.ofile (ind · f) + (s.pc t).fileWeight f =
    s.ref f + tally s'.ofile (ind · f) + p.fileWeight f
  inodes : ∀ i, s'.iref i + ind s.cwd i + tally s.ip (ind · i) + (s.pc t).inodeWeight i =
    s.iref i + ind s'.cwd i + tally s'.ip (ind · i) + p.inodeWeight i

theorem Moves.inv (h : s.Inv) (hm : Moves s s' t p) : s'.Inv := by
  have hself : s'.pc t = p := by rw [hm.pc, update_self]
  have hother : ∀ t', t' ≠ t → s'.pc t' = s.pc t' := fun t' ht => by
    rw [hm.pc, update_of_ne ht]
  have hplace : s'.place t = p.place := congrArg Pc.place hself
  have hplace' : ∀ t', t' ≠ t → s'.place t' = s.place t' := fun t' ht =>
    congrArg Pc.place (hother t' ht)
  refine ⟨hm.fault, fun t1 t2 hne σ hσ => ?_, fun t1 hexit t2 hne => ?_, fun t1 => ?_, fun t1 => ?_,
    fun hcwd => ?_, hm.free, fun f => ?_, fun i => ?_⟩
  · by_cases h1 : t1 = t
    · subst h1
      rw [hplace] at hσ
      rw [hplace' t2 (Ne.symm hne)]
      exact hm.owns σ hσ t2 (Ne.symm hne)
    · rw [hplace' t1 h1] at hσ
      by_cases h2 : t2 = t
      · subst h2
        rw [hplace]
        intro huse
        rcases mem_append.1 huse with howns | hreads
        · exact hm.owns σ howns t1 h1 (mem_append_left _ hσ)
        · exact hm.reads σ hreads t1 h1 hσ
      · rw [hplace' t2 h2]
        exact h.excl t1 t2 hne σ hσ
  · by_cases h1 : t1 = t
    · subst h1
      rw [hplace] at hexit
      rw [hother t2 hne]
      exact hm.alone hexit t2 hne
    · rw [hplace' t1 h1, hm.quiet t1 h1] at hexit
      cases hexit
  · by_cases h1 : t1 = t
    · rw [h1, hplace]
      exact hm.fits
    · rw [hplace' t1 h1]
      refine (h.fits t1).frame (hm.quiet t1 h1) fun σ hσ => ?_
      exact (hm.same σ).resolve_right fun hunused => hunused t1 h1 hσ
  · by_cases h1 : t1 = t
    · rw [h1, hself]
      exact hm.valid
    · rw [hother t1 h1]
      exact h.valid t1
  · rcases hm.cwd hcwd with hexit | ⟨hold, hne⟩
    · exact ⟨t, hplace.trans hexit⟩
    · obtain ⟨t1, ht1⟩ := h.cwd hold
      have h1 : t1 ≠ t := fun h1 => hne (h1 ▸ ht1)
      have := hm.quiet t1 h1
      rw [ht1] at this
      cases this
  · have hfiles := h.files f
    have hmove := hm.files f
    rw [hm.ext, hm.pc, tally_update]
    omega
  · have hinodes := h.inodes i
    have hmove := hm.inodes i
    rw [hm.iext, hm.pc, tally_update]
    omega

namespace State.Inv

theorem unused (h : s.Inv) {σ : Slot} (hσ : σ ∈ (s.place t).owns) : s.Unused t σ :=
  fun t' ht => h.excl t t' ht.symm σ hσ

/-- Nobody else is going to write a slot that the thread depends on. -/
theorem unowned (h : s.Inv) {σ : Slot} (hσ : σ ∈ (s.place t).uses) : s.Unowned t σ :=
  fun t' ht howns => h.excl t' t ht σ howns hσ

/-- While a thread is in a call, no other one is in `exit`. -/
theorem quiet (h : s.Inv) (hbusy : s.pc t ≠ .here .user) {t' : ThreadId} (ht : t' ≠ t) :
    (s.place t').exits = false := by
  rw [Bool.eq_false_iff]
  exact fun hexit => hbusy (h.alone t' hexit t ht.symm)

/-- The thread in `exit` may write every slot. -/
theorem unused_of_exits (h : s.Inv) (hexit : (s.place t).exits = true) (σ : Slot) :
    s.Unused t σ := fun t' ht => by
  unfold place
  rw [h.alone t hexit t' ht]
  exact not_mem_nil

/-- The working directory is there until `exit` is done. -/
theorem cwd_ne_none (h : s.Inv) (hbusy : s.pc t ≠ .here .user) (ht : s.place t ≠ .exited) :
    s.cwd ≠ none := fun hcwd => by
  obtain ⟨t', ht'⟩ := h.cwd hcwd
  have hne : t' ≠ t := fun heq => ht (heq ▸ ht')
  have := h.quiet hbusy hne
  rw [ht'] at this
  cases this

end State.Inv

/-- A function that `t` has called goes on or returns; the slots stay. -/
theorem call_inv (h : s.Inv) (p : Pc) (hbusy : s.pc t ≠ .here .user)
    (hplace : p.place = s.place t) (hpc : s'.pc = update s.pc t p)
    (hfault : s'.fault = none) (hext : s'.ext = s.ext) (hiext : s'.iext = s.iext)
    (hofile : s'.ofile = s.ofile) (hcwd : s'.cwd = s.cwd) (hvalid : p.Valid)
    (hfree : ∀ f, s'.ref f = 0 → s'.ip f = none)
    (hfiles : ∀ f, s'.ref f + (s.pc t).fileWeight f = s.ref f + p.fileWeight f)
    (hinodes : ∀ i, s'.iref i + tally s.ip (ind · i) + (s.pc t).inodeWeight i =
      s.iref i + tally s'.ip (ind · i) + p.inodeWeight i) : s'.Inv := by
  have hm : Moves s s' t p :=
    { pc := hpc
      fault := hfault
      ext := hext
      iext := hiext
      quiet := fun _ => h.quiet hbusy
      owns := fun σ hσ => h.unused (hplace ▸ hσ)
      reads := fun σ hσ => h.unowned (mem_append_right _ (hplace ▸ hσ))
      same := fun σ => .inl (by
        cases σ with
        | fd fd => rw [Same, hofile]
        | cwd => exact hcwd)
      alone := fun hexit => h.alone t (hplace ▸ hexit)
      fits := (Place.fits_congr hofile hcwd).2 (hplace ▸ h.fits t)
      valid := hvalid
      cwd := fun hnone => by
        rw [hcwd] at hnone
        rw [hplace]
        exact (em _).imp_right fun hne => ⟨hnone, hne⟩
      free := hfree
      files := fun f => by
        have := hfiles f
        rw [hofile]
        omega
      inodes := fun i => by
        have := hinodes i
        rw [hcwd]
        omega }
  exact hm.inv h

theorem goto_inv (h : s.Inv) (p : Pc) (hpc : s.pc t = .here k) (hk : k ≠ .exited)
    (hquiet : ∀ t', t' ≠ t → (s.place t').exits = false)
    (howns : ∀ σ ∈ p.place.owns, s.Unused t σ) (hreads : ∀ σ ∈ p.place.reads, s.Unowned t σ)
    (halone : p.place.exits = true → ∀ t', t' ≠ t → s.pc t' = .here .user)
    (hfits : p.place.Fits s) (hvalid : p.Valid) {m : FileId → ℤ} {n : InodeId → ℤ}
    (hfree : ∀ f, m f = 0 → s.ip f = none)
    (hfiles : ∀ f, m f + (Pc.here k).fileWeight f = s.ref f + p.fileWeight f)
    (hinodes : ∀ i, n i + (Pc.here k).inodeWeight i = s.iref i + p.inodeWeight i) :
    (({ s with ref := m, iref := n } : State).goto t p).Inv := by
  have hm : Moves s (({ s with ref := m, iref := n } : State).goto t p) t p :=
    { pc := rfl
      fault := h.fault
      ext := rfl
      iext := rfl
      quiet := hquiet
      owns := howns
      reads := hreads
      same := fun σ => .inl (by cases σ <;> rfl)
      alone := halone
      fits := (Place.fits_congr rfl rfl).2 hfits
      valid := hvalid
      cwd := fun hnone => .inr ⟨hnone, by unfold State.place; rw [hpc]; exact hk⟩
      free := hfree
      files := fun f => by
        have := hfiles f
        rw [hpc]
        show m f + tally s.ofile (ind · f) + _ = s.ref f + tally s.ofile (ind · f) + _
        omega
      inodes := fun i => by
        have := hinodes i
        rw [hpc]
        show n i + ind s.cwd i + tally s.ip (ind · i) + _ =
          s.iref i + ind s.cwd i + tally s.ip (ind · i) + _
        omega }
  exact hm.inv h

theorem write_inv (h : s.Inv) (p : Pc) (ofile : Fd → Option FileId) (cwd : Option InodeId)
    (hpc : s.pc t = .here k) (hbusy : k ≠ .user)
    (howns : ∀ σ ∈ p.place.owns, σ ∈ k.owns) (hreads : ∀ σ ∈ p.place.reads, σ ∈ k.uses)
    (hsame : ∀ σ, Same s { s with ofile := ofile, cwd := cwd } σ ∨ s.Unused t σ)
    (halone : p.place.exits = true → k.exits = true)
    (hfits : p.place.Fits { s with ofile := ofile, cwd := cwd }) (hvalid : p.Valid)
    (hcwd : cwd = none → p.place = .exited ∨ s.cwd = none ∧ k ≠ .exited)
    (hfiles : ∀ f, tally s.ofile (ind · f) + (Pc.here k).fileWeight f =
      tally ofile (ind · f) + p.fileWeight f)
    (hinodes : ∀ i, ind s.cwd i + (Pc.here k).inodeWeight i = ind cwd i + p.inodeWeight i) :
    (({ s with ofile := ofile, cwd := cwd } : State).goto t p).Inv := by
  have hplace : s.place t = k := by unfold State.place; rw [hpc]; rfl
  have hm : Moves s (({ s with ofile := ofile, cwd := cwd } : State).goto t p) t p :=
    { pc := rfl
      fault := h.fault
      ext := rfl
      iext := rfl
      quiet := fun _ => h.quiet (by rw [hpc]; exact fun hk => hbusy (Pc.here.inj hk))
      owns := fun σ hσ => h.unused (hplace ▸ howns σ hσ)
      reads := fun σ hσ => h.unowned (hplace ▸ hreads σ hσ)
      same := fun σ => (hsame σ).imp_left fun hσ => by cases σ <;> exact hσ
      alone := fun hexit => h.alone t (hplace ▸ halone hexit)
      fits := (Place.fits_congr rfl rfl).2 hfits
      valid := hvalid
      cwd := fun hnone => by
        rw [hplace]
        exact hcwd hnone
      free := h.free
      files := fun f => by
        have := hfiles f
        rw [hpc]
        show s.ref f + _ + _ = s.ref f + tally ofile (ind · f) + _
        omega
      inodes := fun i => by
        have := hinodes i
        rw [hpc]
        show s.iref i + _ + tally s.ip (ind · i) + _ =
          s.iref i + ind cwd i + tally s.ip (ind · i) + _
        omega }
  exact hm.inv h

end Xv6.Files
