import Xv6.Fs.Files

/-!
# The offset of an open file (`fileread` and `filewrite` of `kernel/file.c`)

Several processes read and write through one `struct file` of an inode.  A call locks the inode,
reads or writes at the offset of the file, moves the offset by what `readi` or `writei` returned,
and unlocks the inode; `filewrite` does this for one chunk of the data after the other.  The steps
of different processes come in any order.

For every call that came to read or write, `spans` records the part of the file it used.
-/

namespace Xv6

open Segment Option

/-! ### Copies that succeed -/

namespace Fs

variable {sb : Superblock} {s t : Fs} {i n turns tot off : ℕ} {src : Src} {dst dst' : Dst} {r : ℤ}

/-- The first `n` bytes of the buffer are there and are `data`. -/
def Src.Gives (src : Src) (n : ℕ) (data : ℕ → Byte) : Prop := ∀ k < n, src.byte k = some (data k)

variable {data : ℕ → Byte}

theorem Src.Gives.copied (h : src.Gives n data) : (eitherCopyin 0 n src).1 = table n data := by
  rcases eitherCopyin_cases src 0 n with ⟨-, hcopy⟩ | ⟨q, hq, hnone, -⟩
  · rw [hcopy]
    refine table_congr fun k hk => ?_
    rw [Nat.zero_add, Src.data, h k hk, getD_some]
  · rw [Nat.zero_add, h q hq] at hnone
    cases hnone

/-- Whether the copies of `readi` succeed is all that depends on the destination. -/
theorem readLoop_kernel (bs : List Byte)
    (h : readLoop sb i n turns s dst tot off = .ok ((r, dst'), t)) (hr : r ≠ -1) :
    ∃ bs', readLoop sb i n turns s (.kernel bs) tot off = .ok ((r, .kernel bs'), t) := by
  induction turns generalizing s dst tot off bs with
  | zero =>
    cases h
    exact ⟨bs, rfl⟩
  | succ turns ih =>
    simp only [readLoop] at h ⊢
    split_ifs at h ⊢ with hlt
    · cases hmap : s.bmap sb i (off / BSIZE) with
      | error e =>
        rw [hmap] at h
        cases h
      | ok b =>
        rw [hmap] at h
        simp only [Except.bind] at h ⊢
        split_ifs at h with hcopy
        · cases h
          exact absurd rfl hr
        · have hkernel : ∀ l, ¬ (eitherCopyout tot l (.kernel bs)).2 = -1 := fun _ =>
            show ¬ (0 : ℤ) = -1 by decide
          rw [if_neg (hkernel _)]
          exact ih _ h
    · cases h
      exact ⟨bs, rfl⟩

theorem readi_kernel {off n : UInt} (h : s.readi sb i dst off n = .ok ((r, dst'), t))
    (hr : r ≠ -1) : ∃ bs, s.readi sb i (.kernel []) off n = .ok ((r, .kernel bs), t) := by
  simp only [readi] at h ⊢
  split_ifs at h ⊢ with hbad
  · cases h
    exact ⟨[], rfl⟩
  · exact readLoop_kernel [] h hr
  · exact readLoop_kernel [] h hr

/-- A `readi` whose copies succeed changes no contents and stays in the file. -/
theorem readi_ok {off n : UInt} (h : s.Ready sb) (hv : s.valid i = true)
    (hs : s.readi sb i dst off n = .ok ((r, dst'), t)) (hr : r ≠ -1) :
    t.Ready sb ∧ t.contents sb = s.contents sb ∧ 0 ≤ r ∧
      (0 < r → off.toNat + r.toNat ≤ (s.contents sb i).length) := by
  obtain ⟨bs, hk⟩ := readi_kernel hs hr
  obtain ⟨hcount, -, hready, hcontents⟩ := readi_spec h hv hk
  refine ⟨hready, hcontents, by omega, fun hpos => ?_⟩
  rw [hcount, List.extract_eq_take_drop, List.length_take, List.length_drop] at hpos ⊢
  omega

/-- A `writei` whose copies succeed writes all the bytes or nothing. -/
theorem writei_ok {off n : UInt} (h : s.Ready sb) (hv : s.valid i = true)
    (hsrc : src.Gives n.toNat data) (hs : s.writei sb i src off n = .ok (r, t)) :
    t.Ready sb ∧ (r = -1 ∧ t.contents sb = s.contents sb ∨
      r = n.toNat ∧ off.toNat ≤ (s.contents sb i).length ∧
        off.toNat + n.toNat ≤ MAXFILE * BSIZE ∧
        t.contents sb i = overwrite (s.contents sb i) off.toNat (table n.toNat data)) := by
  by_cases hr : 0 ≤ r
  · obtain ⟨hoff, hmax, tot, q, sz, rfl, hended, hsz, hedit⟩ := writei_cases h hv hr hs
    have hlen := length_contents_of_valid h.1 hv
    obtain ⟨rfl, rfl⟩ : tot = n.toNat ∧ q = n.toNat := by
      refine hended.why.resolve_right fun hstop => ?_
      rw [hsrc q hstop.1] at hstop
      cases hstop.2.1
    have hdata : table n.toNat src.data = table n.toNat data := by
      refine table_congr fun k hk => ?_
      rw [Src.data, hsrc k hk, getD_some]
    obtain ⟨hready, hcontents⟩ := hedit.overwritten h hv hoff hmax le_rfl (.inl le_rfl) hsz
    refine ⟨hready, .inr ⟨rfl, by omega, hmax, ?_⟩⟩
    rw [hcontents, Function.update_self, hdata]
  · obtain ⟨rfl, rfl⟩ := writei_refused (Int.not_le.1 hr) hs
    exact ⟨h, .inl ⟨rfl, rfl⟩⟩

end Fs

/-! ### Calls -/

/-- What `fileread` and `filewrite` read of `struct file`, apart from the offset. -/
structure OpenFile where
  ip : ℕ
  readable : Bool
  writable : Bool

namespace FileAccess

/-- `max`: the bytes that `filewrite` writes in one transaction. -/
def max : ℤ := (MAXOPBLOCKS - 1 - 1 - 2) / 2 * BSIZE

/-- A call; `filewrite` has written `i` bytes. -/
inductive Call
  | read (addr : Word) (n : ℤ)
  | write (addr : Word) (n i : ℤ)

/-- `n1`. -/
def chunk (n i : ℤ) : ℤ := min (n - i) max

/-- Where a process is. -/
inductive Pos
  | idle
  | lock (c : Call) -- Before `ilock`
  | transfer (c : Call) -- Before `readi` or `writei`
  | move (c : Call) (r : ℤ) -- `readi` or `writei` has returned `r`
  | unlock (c : Call) (r : ℤ) -- Before `iunlock`

/-- The part of the file that a call used, and the bytes that it wrote there. -/
structure Span (T : Type) where
  who : T
  call : Call
  start : ℕ
  count : ℕ
  bytes : List Byte

inductive Act (T : Type)
  | read (t : T) (addr : Word) (n : ℤ) -- `fileread(f, addr, n)`
  | write (t : T) (addr : Word) (n : ℤ) -- `filewrite(f, addr, n)`
  | lock (t : T)
  | transfer (t : T) (m : UserMem) -- `readi` or `writei`, with the memory of the process
  | move (t : T)
  | unlock (t : T)

end FileAccess

/-- An open file, its inode, and the processes that share it. -/
structure FileAccess (T : Type) where
  fs : Fs
  off : UInt
  locked : Option T -- The holder of the lock of the inode
  pos : T → FileAccess.Pos
  spans : List (FileAccess.Span T) -- The parts used so far, last one first
  rets : List (T × ℤ) -- The values returned so far, last one first

namespace FileAccess

section

variable {T : Type} [DecidableEq T]

def goto (s : FileAccess T) (t : T) (p : Pos) : FileAccess T :=
  { s with pos := Function.update s.pos t p }

def ret (s : FileAccess T) (t : T) (r : ℤ) : FileAccess T :=
  { s.goto t .idle with rets := (t, r) :: s.rets }

/-- The test of the loop of `filewrite`, and what follows the loop. -/
def loop (s : FileAccess T) (t : T) (addr : Word) (n i : ℤ) : FileAccess T :=
  if i < n then s.goto t (.lock (.write addr n i)) else s.ret t (if i = n then n else -1)

/-- The buffer of a `filewrite`. -/
def src (m : UserMem) (addr : Word) (i : ℤ) : Fs.Src := .user m (addr + BitVec.ofInt 64 i)

def use (s : FileAccess T) (t : T) (c : Call) (r : ℤ) (bytes : List Byte) : FileAccess T :=
  { s.goto t (.move c r) with spans := ⟨t, c, s.off.toNat, r.toNat, bytes⟩ :: s.spans }

/-- A step of a process. -/
def step (sb : Fs.Superblock) (f : OpenFile) (s : FileAccess T) : Act T → Option (FileAccess T)
  | .read t addr n =>
    match s.pos t with
    | .idle => some (if f.readable then s.goto t (.lock (.read addr n)) else s.ret t (-1))
    | _ => none
  | .write t addr n =>
    match s.pos t with
    | .idle => some (if f.writable then s.loop t addr n 0 else s.ret t (-1))
    | _ => none
  | .lock t =>
    match s.pos t, s.locked with
    | .lock c, none =>
      (s.fs.ilock sb f.ip).toOption.map fun fs =>
        { s.goto t (.transfer c) with fs := fs, locked := some t }
    | _, _ => none
  | .transfer t m =>
    match s.pos t with
    | .transfer (.read addr n) =>
      (s.fs.readi sb f.ip (.user m addr) s.off (BitVec.ofInt 32 n)).toOption.map fun r =>
        { s.use t (.read addr n) r.1.1 [] with fs := r.2 }
    | .transfer (.write addr n i) =>
      (s.fs.writei sb f.ip (src m addr i) s.off (BitVec.ofInt 32 (chunk n i))).toOption.map fun r =>
        { s.use t (.write addr n i) r.1 (Fs.eitherCopyin 0 r.1.toNat (src m addr i)).1 with
          fs := r.2 }
    | _ => none
  | .move t =>
    match s.pos t with
    | .move c r =>
      some { s.goto t (.unlock c r) with
        off := if r > 0 then s.off + BitVec.ofInt 32 r else s.off }
    | _ => none
  | .unlock t =>
    match s.pos t with
    | .unlock (.read _ _) r => some { s.ret t r with locked := none }
    | .unlock (.write addr n i) r =>
      -- `if(r != n1) break; i += r;`
      some { if r = chunk n i then s.loop t addr n (i + r) else s.ret t (if i = n then n else -1)
        with locked := none }
    | _ => none

/-- No write is longer than a chunk, and no copy from or to user memory fails. -/
def Copies (sb : Fs.Superblock) (f : OpenFile) (s : FileAccess T) : Act T → Prop
  | .write _ _ n => n ≤ max
  | .transfer t m =>
    match s.pos t with
    | .transfer (.read addr n) =>
      match s.fs.readi sb f.ip (.user m addr) s.off (BitVec.ofInt 32 n) with
      | .ok r => r.1.1 ≠ -1
      | .error _ => True
    | .transfer (.write addr n i) =>
      ∀ k < (chunk n i).toNat, (m.byte (addr + BitVec.ofInt 64 i + BitVec.ofNat 64 k)).isSome
    | _ => True
  | _ => True

instance (sb : Fs.Superblock) (f : OpenFile) (s : FileAccess T) (a : Act T) :
    Decidable (Copies sb f s a) := by
  unfold Copies
  split
  · infer_instance
  · split
    · split <;> infer_instance
    · infer_instance
    · infer_instance
  · infer_instance

end

/-! ### What a step can do -/

variable {T : Type} {sb : Fs.Superblock} {f : OpenFile} {s₀ s s' : FileAccess T} {t u : T}

/-- A write of one chunk. -/
def Call.Single : Call → Prop
  | .read _ _ => True
  | .write _ n i => i = 0 ∧ 0 < n ∧ n ≤ max

/-- `readi` or `writei` can return `r` if the copies succeed. -/
def Call.Yields (r : ℤ) : Call → Prop
  | .read _ _ => 0 ≤ r
  | .write _ n _ => r = n ∨ r = -1

def Pos.Ok : Pos → Prop
  | .idle => True
  | .lock c | .transfer c => c.Single
  | .move c r | .unlock c r => c.Single ∧ c.Yields r

variable [DecidableEq T]

/-- The steps of a process whose calls are single. -/
inductive Change (sb : Fs.Superblock) (f : OpenFile) (s : FileAccess T) (t : T) :
    FileAccess T → Prop
  | enter (c : Call) (hp : s.pos t = .idle) (hc : c.Single) : Change sb f s t (s.goto t (.lock c))
  | refuse (r : ℤ) (hp : s.pos t = .idle) (hr : r ≤ 0) : Change sb f s t (s.ret t r)
  | lock (c : Call) (fs : Fs) (hp : s.pos t = .lock c) (hfree : s.locked = none)
      (hload : s.fs.ilock sb f.ip = .ok fs) :
      Change sb f s t { s.goto t (.transfer c) with fs := fs, locked := some t }
  | read (addr : Word) (n r : ℤ) (dst dst' : Fs.Dst) (fs : Fs)
      (hp : s.pos t = .transfer (.read addr n)) (hr : r ≠ -1)
      (hread : s.fs.readi sb f.ip dst s.off (BitVec.ofInt 32 n) = .ok ((r, dst'), fs)) :
      Change sb f s t { s.use t (.read addr n) r [] with fs := fs }
  | write (addr : Word) (n i r : ℤ) (src : Fs.Src) (data : ℕ → Byte) (fs : Fs)
      (hp : s.pos t = .transfer (.write addr n i))
      (hsrc : src.Gives (BitVec.ofInt 32 (chunk n i)).toNat data)
      (hwrite : s.fs.writei sb f.ip src s.off (BitVec.ofInt 32 (chunk n i)) = .ok (r, fs)) :
      Change sb f s t
        { s.use t (.write addr n i) r (Fs.eitherCopyin 0 r.toNat src).1 with fs := fs }
  | move (c : Call) (r : ℤ) (hp : s.pos t = .move c r) :
      Change sb f s t { s.goto t (.unlock c r) with
        off := if r > 0 then s.off + BitVec.ofInt 32 r else s.off }
  | unlock (c : Call) (r : ℤ) (hp : s.pos t = .unlock c r) :
      Change sb f s t { s.ret t r with locked := none }

theorem chunk_single {n : ℤ} (hn : n ≤ max) : chunk n 0 = n := by
  unfold chunk
  omega

theorem toNat_chunk {n : ℤ} (hpos : 0 < n) (hn : n ≤ max) :
    (BitVec.ofInt 32 (chunk n 0)).toNat = n.toNat := by
  have hmax : max = 3072 := rfl
  rw [chunk_single hn, BitVec.toNat_ofInt]
  omega

/-- The loop ends with the value of the only `writei`. -/
theorem loop_single {addr : Word} {n r : ℤ} (hpos : 0 < n) (hn : n ≤ max) (hr : r = n ∨ r = -1) :
    (if r = chunk n 0 then s.loop t addr n (0 + r) else s.ret t (if 0 = n then n else -1)) =
      s.ret t r := by
  rw [chunk_single hn]
  rcases hr with rfl | rfl
  · rw [if_pos rfl, loop, if_neg (by omega), if_pos (by omega)]
  · rw [if_neg (by omega), if_neg (by omega)]

theorem step_change (hok : ∀ t, (s.pos t).Ok) {a : Act T} (hG : Copies sb f s a)
    (hs : step sb f s a = some s') : ∃ t, Change sb f s t s' := by
  cases a with
  | read t addr n =>
    refine ⟨t, ?_⟩
    simp only [step] at hs
    split at hs
    next hp =>
      cases hs
      split_ifs
      · exact .enter _ hp trivial
      · exact .refuse _ hp (by decide)
    next => cases hs
  | write t addr n =>
    refine ⟨t, ?_⟩
    simp only [step] at hs
    split at hs
    next hp =>
      cases hs
      unfold loop
      split_ifs with hw hpos hzero
      · exact .enter _ hp ⟨rfl, hpos, hG⟩
      · exact .refuse _ hp (by omega)
      · exact .refuse _ hp (by decide)
      · exact .refuse _ hp (by decide)
    next => cases hs
  | lock t =>
    refine ⟨t, ?_⟩
    simp only [step] at hs
    split at hs
    next c hp hfree =>
      cases hload : s.fs.ilock sb f.ip with
      | error e =>
        rw [hload] at hs
        cases hs
      | ok fs =>
        rw [hload] at hs
        cases hs
        exact .lock c fs hp hfree hload
    next => cases hs
  | transfer t m =>
    refine ⟨t, ?_⟩
    simp only [step] at hs
    simp only [Copies] at hG
    split at hs
    next addr n hp =>
      simp only [hp] at hG
      cases hread : s.fs.readi sb f.ip (.user m addr) s.off (BitVec.ofInt 32 n) with
      | error e =>
        rw [hread] at hs
        cases hs
      | ok r =>
        rw [hread] at hs
        simp only [hread] at hG
        cases hs
        exact .read addr n _ _ _ _ hp hG hread
    next addr n i hp =>
      rw [hp] at hG
      have hsingle := hok t
      rw [hp] at hsingle
      obtain ⟨rfl, hpos, hn⟩ := hsingle
      cases hwrite : s.fs.writei sb f.ip (src m addr 0) s.off (BitVec.ofInt 32 (chunk n 0)) with
      | error e =>
        rw [hwrite] at hs
        cases hs
      | ok r =>
        rw [hwrite] at hs
        cases hs
        choose data hdata using fun k => fun hk => isSome_iff_exists.1 (hG k hk)
        refine .write addr n 0 _ _ (fun k => if hk : k < (chunk n 0).toNat then data k hk else 0) _
          hp (fun k hk => ?_) hwrite
        have hk' : k < (chunk n 0).toNat := by
          rwa [toNat_chunk hpos hn, ← chunk_single hn] at hk
        exact (hdata k hk').trans (congrArg some (dif_pos hk').symm)
    next => cases hs
  | move t =>
    refine ⟨t, ?_⟩
    simp only [step] at hs
    split at hs
    next c r hp =>
      cases hs
      exact .move c r hp
    next => cases hs
  | unlock t =>
    refine ⟨t, ?_⟩
    simp only [step] at hs
    split at hs
    next addr n r hp =>
      cases hs
      exact .unlock _ r hp
    next addr n i r hp =>
      have hsingle := hok t
      rw [hp] at hsingle
      obtain ⟨⟨rfl, hpos, hn⟩, hr⟩ := hsingle
      rw [loop_single hpos hn hr] at hs
      cases hs
      exact .unlock _ r hp
    next => cases hs

end FileAccess
end Xv6
