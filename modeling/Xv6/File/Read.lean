import Xv6.Dev.Console
import Xv6.Fs.Partial
import Xv6.Pipe.Model

/-!
# What `read` writes to user memory (`fileread` of `kernel/file.c`)

The three kinds of open files are read by `piperead`, `consoleread` and `readi`.  What a reader
finds each time it holds the lock of the pipe or of the console is an argument here, a list with
one entry for each look; a list that runs out is a reader that still sleeps.  The steps on a pipe
are those of `Xv6.Pipe`.  The count `n` is signed, except for `readi`.
-/

namespace Xv6.Read

open Fs Transition List

/-- The major number of the console. -/
def CONSOLE : ℤ := 1

/-- The steps of `piperead` after its first loop: the value returned and the memory. -/
def pipeCopy (addr : Word) : ℕ → Pipe Unit Unit → UserMem → Option ℤ × UserMem
  | 0, _, m => (none, m)
  | turns + 1, s, m =>
    match s.pos () with
    | .copying n i =>
      let r := copyout m (addr + BitVec.ofNat 64 i) [s.data (s.nread.toNat % PIPESIZE)]
      let s' := s.copyStep () n i (r.2 ≠ -1)
      -- `pi->nread++` comes right before the copy
      pipeCopy addr turns s' (if s'.nread = s.nread then m else r.1)
    | _ => (some (s.ret ()), m)

/-- `piperead`: the value returned, if it has returned, and the memory. -/
def piperead (addr : Word) (n : ℤ) (m : UserMem) : List (Pipe Unit Unit) → Option ℤ × UserMem
  | [] => (none, m)
  | s :: looks =>
    let s' := s.waitStep id () n
    if s'.pos () = .readSleep n then piperead addr n m looks
    else pipeCopy addr (n.toNat + 2) s' m

/-- The loop of `consoleread`.  A look finds the next byte of the input, or that the reader is
killed; what is done to the input is in `Console`. -/
def consoleLoop (target : ℤ) : List (Option Byte) → ℤ → Word → UserMem → Option ℤ × UserMem
  | [], n, _, m => if 0 < n then (none, m) else (some (target - n), m)
  | look :: looks, n, dst, m =>
    if 0 < n then
      match look with
      | none => (some (-1), m)
      | some c =>
        if c = Console.ctrlD then (some (target - n), m)
        else
          let r := copyout m dst [c]
          if r.2 = -1 then (some (target - n), r.1)
          else if c = Console.newline then (some (target - (n - 1)), r.1)
          else consoleLoop target looks (n - 1) (dst + 1) r.1
    else (some (target - n), m)

/-- `consoleread`. -/
def consoleread (addr : Word) (n : ℤ) (m : UserMem) (looks : List (Option Byte)) :
    Option ℤ × UserMem := consoleLoop n looks n addr m

/-- What an open file is, with what the call will find there. -/
inductive File
  | pipe (looks : List (Pipe Unit Unit))
  | device (major : ℤ) (looks : List (Option Byte))
  | inode (fs : Fs) (ip : ℕ) (off : UInt)

/-- `fileread`, with the offset of an inode at the end. -/
def fileread (sb : Superblock) (readable : Bool) (addr : Word) (n : ℤ) (m : UserMem) :
    File → Except Panic ((Option ℤ × UserMem) × UInt)
  | .pipe looks => .ok (if readable then piperead addr n m looks else (some (-1), m), 0)
  | .device major looks =>
    if !readable ∨ major < 0 ∨ NDEV ≤ major ∨ major ≠ CONSOLE then .ok ((some (-1), m), 0)
    else .ok (consoleread addr n m looks, 0)
  | .inode fs ip off =>
    if readable then
      (fs.ilock sb ip).bind fun fs =>
        (fs.readi sb ip (.user m addr) off (BitVec.ofInt 32 n)).map fun r =>
          let off' := if 0 < r.1.1 then off + BitVec.ofInt 32 r.1.1 else off
          match r.1.2 with
          | .user m _ => ((some r.1.1, m), off')
          | .kernel _ => ((some r.1.1, m), off')
    else .ok ((some (-1), m), off)

variable {m m' m'' : UserMem} {addr : Word} {n : ℤ} {len tot : ℕ}

/-- No byte outside the `len` bytes from `addr` on differs. -/
def Within (addr : Word) (len : ℕ) (m m' : UserMem) : Prop :=
  ∀ va : Word, va.toNat < addr.toNat ∨ addr.toNat + len ≤ va.toNat → m'.byte va = m.byte va

theorem Within.refl (addr : Word) (len : ℕ) (m : UserMem) : Within addr len m m := fun _ _ => rfl

theorem Within.trans (h : Within addr len m m') (h' : Within addr len m' m'') :
    Within addr len m m'' := fun va hva => (h' va hva).trans (h va hva)

/-- What has been copied lies below `MAXVA`, so that the next address does not wrap around. -/
def Low (addr : Word) (tot : ℕ) : Prop := tot = 0 ∨ addr.toNat + tot ≤ 2 ^ 38

theorem Low.toNat (h : Low addr tot) : (addr + BitVec.ofNat 64 tot).toNat = addr.toNat + tot := by
  have haddr := addr.isLt
  rw [BitVec.toNat_add, BitVec.toNat_ofNat]
  rcases h with rfl | h <;> omega

/-- A copy that succeeds ends below `MAXVA`. -/
theorem copyoutLoop_low {turns : ℕ} {dst : Word} {src : List Byte} (hturns : src.length ≤ turns)
    (hsrc : src ≠ []) (h : (copyoutLoop turns m dst src).2 ≠ -1) :
    dst.toNat + src.length ≤ 2 ^ 38 := by
  induction turns generalizing m dst src with
  | zero => exact absurd (length_eq_zero_iff.1 (Nat.le_zero.1 hturns)) hsrc
  | succ turns ih =>
    rw [copyoutLoop, if_neg hsrc] at h
    cases hpg : walkaddr m (pgRoundDown dst) with
    | none =>
      simp only [hpg] at h
      exact absurd rfl h
    | some pg =>
      have hPG : PGSIZE = 4096 := rfl
      have hlow : (pgRoundDown dst).toNat < 2 ^ 38 := by
        unfold walkaddr at hpg
        split_ifs at hpg with hmax
        simpa [MAXVA, BitVec.le_def] using hmax
      have hround := toNat_pgRoundDown dst
      have hlen := length_pos_iff.2 hsrc
      simp only [hpg, toNat_sub_pgRoundDown] at h
      rw [hround, hPG] at hlow
      by_cases hmore : src.drop (min (PGSIZE - dst.toNat % PGSIZE) src.length) = []
      · have := drop_eq_nil_iff.1 hmore
        rw [hPG] at this
        omega
      · have hrest := ih (by rw [length_drop, hPG]; omega) hmore h
        have hleft := length_pos_iff.2 hmore
        rw [length_drop, hPG] at hrest hleft
        rw [BitVec.toNat_add, hround, BitVec.toNat_ofNat, hPG] at hrest
        omega

/-- One of the copies of a loop, at `addr + tot`. -/
theorem Low.copyout (m : UserMem) (src : List Byte) (h : Low addr tot)
    (hlen : tot + src.length ≤ len) :
    Within addr len m (copyout m (addr + BitVec.ofNat 64 tot) src).1 ∧
      ((copyout m (addr + BitVec.ofNat 64 tot) src).2 ≠ -1 → Low addr (tot + src.length)) := by
  refine ⟨fun va hva => byte_copyout (by rw [h.toNat]; omega), fun hok => ?_⟩
  by_cases hsrc : src = []
  · subst hsrc
    exact h
  · have := copyoutLoop_low (Nat.le_refl _) hsrc hok
    rw [h.toNat] at this
    exact .inr (by omega)

/-! ### Pipes and the console -/

theorem pipeCopy_leave {turns : ℕ} (s : Pipe Unit Unit) (v : ℤ) (hturns : 0 < turns) :
    pipeCopy addr turns (s.leave () v) m = (some v, m) := by
  obtain ⟨turns, rfl⟩ := Nat.exists_eq_succ_of_ne_zero hturns.ne'
  rfl

theorem pipeCopy_within {turns i : ℕ} {s : Pipe Unit Unit} (hp : s.pos () = .copying n i)
    (hi : i ≤ n.toNat) (h : Low addr i) (hturns : n.toNat - i + 1 < turns) :
    ∃ v m', pipeCopy addr turns s m = (some v, m') ∧ v ≤ max n 0 ∧ Within addr n.toNat m m' := by
  induction turns generalizing s i m with
  | zero => omega
  | succ turns ih =>
    by_cases hmore : i < n ∧ s.nread ≠ s.nwrite
    · have hne : s.nread + 1 ≠ s.nread := by bv_omega
      obtain ⟨hwithin, hlow⟩ := h.copyout m [s.data (s.nread.toNat % PIPESIZE)]
        (show i + 1 ≤ n.toNat by omega)
      simp only [pipeCopy, hp, Pipe.copyStep, if_pos hmore]
      generalize copyout m (addr + BitVec.ofNat 64 i) _ = r at hwithin hlow ⊢
      by_cases hfail : r.2 = -1
      · simp only [hfail, ne_eq, not_true_eq_false, decide_false, Bool.false_eq_true, if_false]
        rw [pipeCopy_leave _ _ (by omega)]
        exact ⟨_, r.1, congrArg (Prod.mk _) (if_neg hne), by omega, hwithin⟩
      · simp only [hfail, ne_eq, not_false_eq_true, decide_true, if_true]
        generalize hs' : Pipe.goto _ () (.copying n (i + 1)) = s'
        have hread : s'.nread = s.nread + 1 := by
          rw [← hs']
          rfl
        obtain ⟨v, m', hrun, hv, hrest⟩ :=
          ih (s := s') (m := r.1) (i := i + 1) (by rw [← hs']; rfl) (by omega) (hlow hfail)
            (by omega)
        rw [hread, if_neg hne]
        exact ⟨v, m', hrun, hv, hwithin.trans hrest⟩
    · simp only [pipeCopy, hp, Pipe.copyStep, if_neg hmore]
      rw [pipeCopy_leave _ _ (by omega)]
      exact ⟨_, m, congrArg (Prod.mk _) (if_pos rfl), by omega, .refl _ _ _⟩

theorem piperead_within (addr : Word) (n : ℤ) (m : UserMem) (looks : List (Pipe Unit Unit)) :
    (∀ v, (piperead addr n m looks).1 = some v → v ≤ max n 0) ∧
      Within addr n.toNat m (piperead addr n m looks).2 := by
  induction looks with
  | nil => exact ⟨nofun, .refl _ _ _⟩
  | cons s looks ih =>
    by_cases hasleep : (s.waitStep id () n).pos () = .readSleep n
    · rw [piperead, if_pos hasleep]
      exact ih
    · obtain ⟨v, m', hrun, hv, hwithin⟩ : ∃ v m',
          pipeCopy addr (n.toNat + 2) (s.waitStep id () n) m = (some v, m') ∧ v ≤ max n 0 ∧
            Within addr n.toNat m m' := by
        rw [Pipe.waitStep] at hasleep ⊢
        split_ifs at hasleep ⊢
        · exact ⟨-1, m, pipeCopy_leave s _ (by omega), by omega, .refl _ _ _⟩
        · exact absurd rfl hasleep
        · exact pipeCopy_within rfl (Nat.zero_le _) (.inl rfl) (Nat.lt_succ_self _)
      rw [piperead, if_neg hasleep, hrun]
      exact ⟨fun w hw => by cases hw; exact hv, hwithin⟩

theorem consoleLoop_within {i : ℕ} (looks : List (Option Byte)) (h : Low addr i)
    (hi : i ≤ n.toNat) :
    (∀ v, (consoleLoop n looks (n - i) (addr + BitVec.ofNat 64 i) m).1 = some v → v ≤ max n 0) ∧
      Within addr n.toNat m (consoleLoop n looks (n - i) (addr + BitVec.ofNat 64 i) m).2 := by
  induction looks generalizing i m with
  | nil =>
    rw [consoleLoop]
    split_ifs
    · exact ⟨nofun, .refl _ _ _⟩
    · exact ⟨fun v hv => by cases hv; omega, .refl _ _ _⟩
  | cons look looks ih =>
    unfold consoleLoop
    split_ifs with hpos
    · cases look with
      | none => exact ⟨fun v hv => by cases hv; omega, .refl _ _ _⟩
      | some c =>
        obtain ⟨hwithin, hlow⟩ := h.copyout m [c] (show i + 1 ≤ n.toNat by omega)
        dsimp only
        split_ifs with hctrl hfail hline
        · exact ⟨fun v hv => by cases hv; omega, .refl _ _ _⟩
        · exact ⟨fun v hv => by cases hv; omega, hwithin⟩
        · exact ⟨fun v hv => by cases hv; omega, hwithin⟩
        · have hdst : addr + BitVec.ofNat 64 i + 1 = addr + BitVec.ofNat 64 (i + 1) := by
            rw [BitVec.ofNat_add, BitVec.add_assoc]
            rfl
          have hn : n - i - 1 = n - (i + 1 : ℕ) := by omega
          obtain ⟨hv, hrest⟩ := ih (i := i + 1) (hlow hfail) (by omega)
          rw [hdst, hn]
          exact ⟨hv, hwithin.trans hrest⟩
    · exact ⟨fun v hv => by cases hv; omega, .refl _ _ _⟩

/-! ### Inodes -/

/-- The loop of `readi` stays in the first `len` bytes of the buffer, and reads them all if no copy
fails. -/
theorem readLoop_within {sb : Superblock} {s t : Fs} {i turns off : ℕ} {dst : Dst} {r : ℤ}
    (h : Low addr tot) (htot : tot ≤ len)
    (hturns : len - tot ≤ turns)
    (hs : readLoop sb i len turns s (.user m addr) tot off = .ok ((r, dst), t)) :
    (r = -1 ∨ r = len) ∧ ∃ m', dst = .user m' addr ∧ Within addr len m m' := by
  induction turns generalizing s m tot off with
  | zero =>
    cases hs
    exact ⟨by omega, m, rfl, .refl _ _ _⟩
  | succ turns ih =>
    simp only [readLoop] at hs
    split_ifs at hs with hlt
    · cases hmap : s.bmap sb i (off / BSIZE) with
      | error e =>
        rw [hmap] at hs
        cases hs
      | ok b =>
        rw [hmap] at hs
        obtain ⟨bs, hbs⟩ : ∃ bs, bs = Block.bytes (b.2.block b.1) (off % BSIZE)
          (min (len - tot) (BSIZE - off % BSIZE)) := ⟨_, rfl⟩
        have hlen : bs.length = min (len - tot) (BSIZE - off % BSIZE) := by
          rw [hbs]
          simp [Block.bytes]
        have hmod : off % BSIZE < BSIZE := Nat.mod_lt _ (by decide)
        obtain ⟨hwithin, hlow⟩ := h.copyout m bs (show tot + bs.length ≤ len by omega)
        simp only [Except.bind, eitherCopyout, ← hbs] at hs
        split_ifs at hs with hfail
        · cases hs
          exact ⟨by omega, _, rfl, hwithin⟩
        · rw [← hlen] at hs
          obtain ⟨hr, m', hdst, hrest⟩ := ih (hlow hfail) (by omega) (by omega) hs
          exact ⟨hr, m', hdst, hwithin.trans hrest⟩
    · cases hs
      exact ⟨by omega, m, rfl, .refl _ _ _⟩

/-- The count is not negative, or so small that `readi` takes it for a wrap around, or there is
nothing to be read. -/
def Counted (s : Fs) (i : ℕ) (off : UInt) (n : ℤ) : Prop :=
  0 ≤ n ∨ -n ≤ off.toNat ∨ (s.inode i).size ≤ off

theorem readi_within {sb : Superblock} {s t : Fs} {i : ℕ} {off : UInt} {dst : Dst} {r : ℤ}
    (hn : -2 ^ 31 ≤ n ∧ n < 2 ^ 31)
    (hs : s.readi sb i (.user m addr) off (BitVec.ofInt 32 n) = .ok ((r, dst), t)) :
    ∃ m', dst = .user m' addr ∧
      (Counted s i off n → r ≤ max n 0 ∧ Within addr n.toNat m m') ∧
      (r ≤ max n 0 → r = -1 ∨ Counted s i off n) := by
  have hlt := off.isLt
  have hsize := (s.inode i).size.isLt
  have hcount : (BitVec.ofInt 32 n).toNat = (n % 2 ^ 32).toNat := BitVec.toNat_ofInt n
  unfold Counted
  rw [BitVec.le_def]
  by_cases hbad : off > (s.inode i).size ∨ off + BitVec.ofInt 32 n < off
  · rw [readi, if_pos hbad] at hs
    cases hs
    simp only [gt_iff_lt, BitVec.lt_def, BitVec.toNat_add, hcount] at hbad
    exact ⟨m, rfl, fun _ => ⟨by omega, .refl _ _ _⟩, fun _ => .inr (by omega)⟩
  rw [readi, if_neg hbad] at hs
  obtain ⟨k, hk⟩ : ∃ k, k = if off + BitVec.ofInt 32 n > (s.inode i).size then
    (s.inode i).size - off else BitVec.ofInt 32 n := ⟨_, rfl⟩
  simp only [← hk] at hs
  simp only [not_or, gt_iff_lt, BitVec.lt_def, BitVec.toNat_add, hcount] at hbad hk
  obtain ⟨hr, m', hdst, hwithin⟩ := readLoop_within (.inl rfl) (Nat.zero_le _) (Nat.sub_le _ _) hs
  have hk' : k.toNat = if (s.inode i).size.toNat < (off.toNat + (n % 2 ^ 32).toNat) % 2 ^ 32 then
      (s.inode i).size.toNat - off.toNat else (n % 2 ^ 32).toNat := by
    rw [hk]
    split_ifs
    · rw [BitVec.toNat_sub]
      omega
    · exact hcount
  refine ⟨m', hdst, fun hcond => ?_, fun hle => ?_⟩
  · -- a negative count would have made the sum wrap around
    have hle : k.toNat ≤ n.toNat := by
      split_ifs at hk' <;> omega
    exact ⟨by omega, fun va hva => hwithin va (by omega)⟩
  · by_contra hneg
    split_ifs at hk' <;> omega

/-- A count that a file of this kind can be read with. -/
def Fits (sb : Superblock) (readable : Bool) (n : ℤ) : File → Prop
  | .inode fs ip off => readable = false ∨ ∀ fs', fs.ilock sb ip = .ok fs' → Counted fs' ip off n
  | _ => True

/-- No more than the `n` bytes from `addr` on are written and reported. -/
def Bounded (addr : Word) (n : ℤ) (m : UserMem) (res : Option ℤ × UserMem) : Prop :=
  (∀ v, res.1 = some v → v ≤ max n 0) ∧
    ∀ va : Word, va.toNat < addr.toNat ∨ addr.toNat + (max n 0).toNat ≤ va.toNat →
      res.2.byte va = m.byte va

theorem bounded_iff {res : Option ℤ × UserMem} : Bounded addr n m res ↔
    (∀ v, res.1 = some v → v ≤ max n 0) ∧ Within addr n.toNat m res.2 := by
  rw [Bounded, Within, show (max n 0).toNat = n.toNat by omega]

theorem bounded_fail : Bounded addr n m (some (-1), m) :=
  ⟨fun v hv => by cases hv; omega, fun _ _ => rfl⟩

/-- **When `read` stays in its buffer:** if the count is one that the file can be read with, and
otherwise only if the call fails. -/
theorem fileread_within_iff {sb : Superblock} {readable : Bool} {f : File}
    {res : Option ℤ × UserMem} {off' : UInt} (hn : -2 ^ 31 ≤ n ∧ n < 2 ^ 31)
    (h : fileread sb readable addr n m f = .ok (res, off')) :
    (Fits sb readable n f → Bounded addr n m res) ∧
      (Bounded addr n m res → res.1 = some (-1) ∨ Fits sb readable n f) := by
  cases f with
  | pipe looks =>
    refine ⟨fun _ => ?_, fun _ => .inr trivial⟩
    simp only [fileread] at h
    cases h
    cases readable with
    | true => exact bounded_iff.2 (piperead_within addr n m looks)
    | false => exact bounded_fail
  | device major looks =>
    refine ⟨fun _ => ?_, fun _ => .inr trivial⟩
    simp only [fileread] at h
    split_ifs at h
    · cases h
      exact bounded_fail
    · cases h
      have hloop := consoleLoop_within (m := m) (i := 0) looks (.inl rfl : Low addr 0)
        (Nat.zero_le n.toNat)
      simp only [Nat.cast_zero, sub_zero, BitVec.add_zero] at hloop
      exact bounded_iff.2 hloop
  | inode fs ip off =>
    simp only [fileread] at h
    split_ifs at h with hread
    · obtain ⟨fs₁, hlock, h⟩ := Outcome.bind_eq_ok.1 h
      obtain ⟨⟨⟨v, dst⟩, fs₂⟩, hs, h⟩ := Outcome.map_eq_ok.1 h
      obtain ⟨m₁, rfl, hto, hfrom⟩ := readi_within hn hs
      cases h
      refine ⟨fun hfits => ?_, fun hb => ?_⟩
      · have hcount := (hfits.resolve_left (by simp [hread])) fs₁ hlock
        exact bounded_iff.2 ⟨fun w hw => by cases hw; exact (hto hcount).1, (hto hcount).2⟩
      · refine (hfrom (hb.1 v rfl)).imp (congrArg some) fun hcount => .inr fun fs' hfs' => ?_
        cases hlock.symm.trans hfs'
        exact hcount
    · cases h
      exact ⟨fun _ => bounded_fail, fun _ => .inr (.inl (by simpa using hread))⟩

/-- What a read of a file of two bytes to address 16 returns, and the bytes there. -/
def readTwo (off : UInt) (n : ℤ) : Option (Option ℤ × List (Option Byte)) :=
  twoSevens.bind fun fs => (fileread smallDisk true 16 n onePage (.inode fs 1 off)).toOption.map
    fun r => (r.1.1, [r.1.2.byte 15, r.1.2.byte 16, r.1.2.byte 17])

/-- One byte is read. -/
theorem fileread_within_one : ∃ fs res off', twoSevens = some fs ∧
    fileread smallDisk true 16 1 onePage (.inode fs 1 0) = .ok (res, off') ∧
    res.1 = some 1 ∧ res.2.byte 17 = some 9 := by
  have hrun : readTwo 0 1 = some (some 1, [some 9, some 7, some 9]) := by decide
  obtain ⟨fs, hfs, hrun⟩ := Option.bind_eq_some_iff.1 hrun
  obtain ⟨⟨res, off'⟩, hread, hres⟩ := Option.map_eq_some_iff.1 hrun
  have hread := Outcome.toOption_eq_some.1 hread
  obtain ⟨hv, -⟩ := Prod.mk.inj hres
  refine ⟨fs, res, off', hfs, hread, hv, ?_⟩
  have hfits : Fits smallDisk true 1 (.inode fs 1 0) := .inr fun _ _ => .inl (by decide)
  rw [((fileread_within_iff (by decide) hread).1 hfits).2 17 (by decide)]
  decide

/-- `read(fd, buf, -1)` at offset 0 reads the whole file. -/
theorem fileread_negative :
    readTwo 0 (-1) = some (some 2, [some 9, some 7, some 7]) ∧
      [onePage.byte 15, onePage.byte 16, onePage.byte 17] = [some 9, some 9, some 9] := by
  decide

end Xv6.Read
