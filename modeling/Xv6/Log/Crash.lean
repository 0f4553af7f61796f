import Xv6.Log.Redo

/-!
# Crash atomicity of the redo log

What `commit` and `recover_from_log` write, as explicit lists (`commit_writes`,
`recover_writes`), and from them the disks a crash can leave behind.  Every such disk is

* `Clean`: the header on disk is empty and the home blocks hold given contents, or
* `Committed`: the header lists the transaction, the log area holds its new contents, and
  only the home blocks of the transaction may differ from the old disk.

A crash during recovery leads from a clean disk to a clean one with the same home blocks, and from
a committed disk to a committed one or a clean one with the new contents; a whole recovery ends
clean.
-/

namespace Xv6.Log

open Function

/-! ### What a function writes -/

/-- What `bread` returns for each block. -/
def view (m : LogMem) : Disk := fun b => (m.buf b).getD (m.disk b)

/-- `m'` is `m` after the writes `ws` have been issued. -/
structure Issued (m : LogMem) (ws : List (BlockNo × Block)) (m' : LogMem) : Prop where
  start : m'.start = m.start
  lh : m'.lh = m.lh
  writes : m'.writes = m.writes ++ ws
  disk : m'.disk = Writes.apply m.disk ws
  view : view m' = Writes.apply (view m) ws

theorem Issued.trans {m1 m2 m3 : LogMem} {ws vs : List (BlockNo × Block)}
    (h : Issued m1 ws m2) (h' : Issued m2 vs m3) : Issued m1 (ws ++ vs) m3 where
  start := h'.start.trans h.start
  lh := h'.lh.trans h.lh
  writes := by rw [h'.writes, h.writes, List.append_assoc]
  disk := by rw [h'.disk, h.disk, Writes.apply_append]
  view := by rw [h'.view, h.view, Writes.apply_append]

theorem bread_fst (m : LogMem) (b : BlockNo) : (bread m b).1 = view m b := by
  unfold bread view
  cases m.buf b <;> rfl

/-- Reading a block changes nothing but which buffers are valid. -/
theorem issued_bread (m : LogMem) (b : BlockNo) : Issued m [] (bread m b).2 := by
  have hview : view (bread m b).2 = view m := by
    unfold bread view
    cases hb : m.buf b with
    | some d => rfl
    | none =>
      funext c
      by_cases hc : c = b
      · subst hc; simp [hb]
      · simp [update_of_ne hc]
  refine ⟨?_, ?_, ?_, ?_, hview⟩ <;> unfold bread <;> cases m.buf b <;> simp

theorem issued_bwrite (m : LogMem) (b : BlockNo) (d : Block) :
    Issued m [(b, d)] (bwrite m b d) where
  start := rfl
  lh := rfl
  writes := rfl
  disk := rfl
  view := by
    funext c
    by_cases hc : c = b
    · subst hc; simp [view, bwrite]
    · simp [view, bwrite, update_of_ne hc]

/-- The second of two reads returns the same as if it were the first. -/
theorem bread_bread_fst (m : LogMem) (b c : BlockNo) : (bread (bread m b).2 c).1 = view m c := by
  rw [bread_fst, (issued_bread m b).view, Writes.apply_nil]

/-- The body of the copying loops: two reads, then one write. -/
theorem issued_copy (m : LogMem) (b c e : BlockNo) (d : Block) :
    Issued m [(e, d)] (bwrite (bread (bread m b).2 c).2 e d) := by
  have h := ((issued_bread m b).trans (issued_bread (bread m b).2 c)).trans
    (issued_bwrite (bread (bread m b).2 c).2 e d)
  simpa using h

/-- `write_head` issues one write. -/
theorem issued_writeHead (m : LogMem) :
    Issued m [(m.start, putHead (view m m.start) m.lh)] (writeHead m) := by
  have h := (issued_bread m m.start).trans
    (issued_bwrite (bread m m.start).2 m.start (putHead (bread m m.start).1 m.lh))
  show Issued m _ (bwrite (bread m m.start).2 m.start (putHead (bread m m.start).1 m.lh))
  rw [bread_fst] at h ⊢
  exact h

/-! ### The copying loops -/

/-- The writes of `write_log` for the entries from `tail` on. -/
def logWrites (start : BlockNo) (v : Disk) : List BlockNo → ℕ → List (BlockNo × Block)
  | [], _ => []
  | b :: bs, tail => (logBlock start tail, v b) :: logWrites start v bs (tail + 1)

/-- The writes of `install_trans`. -/
def homeWrites (new : Disk) (bs : List BlockNo) : List (BlockNo × Block) :=
  bs.map fun b => (b, new b)

theorem length_logWrites (start : BlockNo) (v : Disk) (bs : List BlockNo) (tail : ℕ) :
    (logWrites start v bs tail).length = bs.length := by
  induction bs generalizing tail with
  | nil => rfl
  | cons b bs ih => simp [logWrites, ih]

variable {start : BlockNo} {bs : List BlockNo}

theorem mem_logWrites {v : Disk} {tail : ℕ}
    {w : BlockNo × Block} (h : w ∈ logWrites start v bs tail) :
    ∃ j, tail ≤ j ∧ j < tail + bs.length ∧ w.1 = logBlock start j := by
  induction bs generalizing tail with
  | nil => cases h
  | cons b bs ih =>
    simp only [logWrites, List.mem_cons] at h
    rcases h with rfl | h
    · exact ⟨tail, le_rfl, by simp, rfl⟩
    · obtain ⟨j, h1, h2, h3⟩ := ih h
      exact ⟨j, by omega, by simp only [List.length_cons]; omega, h3⟩

theorem logWrites_congr {v v' : Disk} (tail : ℕ)
    (h : ∀ b ∈ bs, v b = v' b) : logWrites start v bs tail = logWrites start v' bs tail := by
  induction bs generalizing tail with
  | nil => rfl
  | cons b bs ih =>
    simp only [logWrites]
    rw [h b List.mem_cons_self, ih _ fun c hc => h c (List.mem_cons_of_mem _ hc)]

theorem issued_writeLogFrom (bs : List BlockNo) (tail : ℕ) (m : LogMem)
    (hout : ∀ b ∈ bs, ∀ j, tail ≤ j → j < tail + bs.length → b ≠ logBlock m.start j) :
    Issued m (logWrites m.start (view m) bs tail) (writeLogFrom bs tail m) := by
  induction bs generalizing tail m with
  | nil => exact ⟨rfl, rfl, by simp [logWrites, writeLogFrom], rfl, rfl⟩
  | cons b bs ih =>
    simp only [writeLogFrom, logWrites]
    rw [bread_bread_fst]
    have h1 := issued_copy m (logBlock m.start tail) b (logBlock m.start tail) (view m b)
    generalize bwrite _ (logBlock m.start tail) (view m b) = m' at h1 ⊢
    have h2 := ih (tail + 1) m' fun c hc j hj hj' => by
      rw [h1.start]
      exact hout c (List.mem_cons_of_mem _ hc) j (by omega) (by simp only [List.length_cons]; omega)
    -- the later iterations read home blocks only, and this one wrote a block of the log
    have hv : logWrites m'.start (view m') bs (tail + 1)
        = logWrites m.start (view m) bs (tail + 1) := by
      rw [h1.start]
      refine logWrites_congr _ fun c hc => ?_
      rw [h1.view]
      refine Writes.apply_of_notMem _ _ _ fun w hw => ?_
      rw [List.mem_singleton] at hw
      subst hw
      exact (hout c (List.mem_cons_of_mem _ hc) tail le_rfl (by simp)).symm
    rw [hv] at h2
    exact h1.trans h2

/-- When the log holds the new contents, `install_trans` writes them home. -/
theorem issued_installFrom (new : Disk) (bs : List BlockNo) (tail : ℕ) (m : LogMem)
    (hout : ∀ b ∈ bs, ∀ j, tail ≤ j → j < tail + bs.length → b ≠ logBlock m.start j)
    (hlog : ∀ i (h : i < bs.length), view m (logBlock m.start (tail + i)) = new bs[i]) :
    Issued m (homeWrites new bs) (installFrom bs tail m) := by
  induction bs generalizing tail m with
  | nil => exact ⟨rfl, rfl, by simp [homeWrites, installFrom], rfl, rfl⟩
  | cons b bs ih =>
    simp only [installFrom]
    rw [bread_fst, show view m (logBlock m.start tail) = new b from hlog 0 (by simp)]
    have h1 := issued_copy m (logBlock m.start tail) b b (new b)
    generalize bwrite _ b (new b) = m' at h1 ⊢
    have h2 := ih (tail + 1) m' (fun c hc j hj hj' => by
        rw [h1.start]
        exact hout c (List.mem_cons_of_mem _ hc) j (by omega)
          (by simp only [List.length_cons]; omega))
      (fun i hi => by
        rw [h1.view, h1.start, Writes.apply_of_notMem]
        · have := hlog (i + 1) (by simpa using hi)
          rw [show tail + 1 + i = tail + (i + 1) by omega]
          exact this
        · intro w hw
          rw [List.mem_singleton] at hw
          subst hw
          exact hout b List.mem_cons_self _ (by omega) (by simp only [List.length_cons]; omega))
    exact h1.trans h2

/-! ### Places in the log -/

theorem logBlock_injOn {i j : ℕ} (hi : i ≤ LOGSIZE) (hj : j ≤ LOGSIZE)
    (h : logBlock start i = logBlock start j) : i = j := by
  have h' : BitVec.ofNat 32 (i + 1) = BitVec.ofNat 32 (j + 1) := by
    simpa [logBlock] using h
  have h'' := congrArg BitVec.toNat h'
  simp only [BitVec.toNat_ofNat, LOGSIZE, MAXOPBLOCKS] at h'' hi hj
  omega

theorem logBlock_ne_start {j : ℕ} (hj : j < LOGSIZE) :
    logBlock start j ≠ start := by
  intro h
  have h' : BitVec.ofNat 32 (j + 1) = 0#32 := by
    have : start + BitVec.ofNat 32 (j + 1) = start + 0#32 := by simpa [logBlock] using h
    exact add_left_cancel this
  have h'' := congrArg BitVec.toNat h'
  simp only [BitVec.toNat_ofNat, LOGSIZE, MAXOPBLOCKS] at h'' hj
  omega

theorem inLog_start {size : ℕ} (h : 0 < size) : InLog start size start :=
  ⟨0, h, by simp⟩

theorem inLog_logBlock {size j : ℕ} (h : j + 1 < size) :
    InLog start size (logBlock start j) := ⟨j + 1, h, rfl⟩

theorem map_fst_logWrites (start : BlockNo) (v : Disk) (bs : List BlockNo) (tail : ℕ) :
    (logWrites start v bs tail).map Prod.fst
      = (List.range' tail bs.length).map (logBlock start) := by
  induction bs generalizing tail with
  | nil => rfl
  | cons b bs ih => simp [logWrites, List.range'_succ, ih]

theorem nodup_logWrites (start : BlockNo) (v : Disk)
    (h : bs.length ≤ LOGSIZE) : ((logWrites start v bs 0).map Prod.fst).Nodup := by
  rw [map_fst_logWrites]
  refine List.Nodup.map_on (fun i hi j hj hij => ?_) List.nodup_range'
  rw [List.mem_range'_1] at hi hj
  exact logBlock_injOn (by omega) (by omega) hij

theorem mem_logWrites_get (start : BlockNo) (v : Disk) (bs : List BlockNo) (tail i : ℕ)
    (h : i < bs.length) : (logBlock start (tail + i), v bs[i]) ∈ logWrites start v bs tail := by
  induction bs generalizing tail i with
  | nil => simp at h
  | cons b bs ih =>
    cases i with
    | zero => simp [logWrites]
    | succ i =>
      have := ih (tail + 1) i (by simpa using h)
      rw [show tail + 1 + i = tail + (i + 1) by omega] at this
      exact List.mem_cons_of_mem _ this

/-! ### The header block -/

theorem headN_putHead (blk : Block) {lh : List BlockNo} (h : lh.length ≤ LOGSIZE) :
    headN (putHead blk lh) = lh.length := by
  simp only [LOGSIZE, MAXOPBLOCKS] at h
  simp only [headN, putHead, if_true]
  rw [BitVec.toInt_eq_toNat_of_lt] <;> simp only [BitVec.toNat_ofNat] <;> omega

/-- What `write_head` stores, `read_head` finds. -/
theorem getHead_putHead (blk : Block) {lh : List BlockNo} (h : lh.length ≤ LOGSIZE) :
    getHead (putHead blk lh) = lh := by
  unfold getHead
  rw [headN_putHead blk h]
  apply List.ext_getElem
  · simp
  · intro i hi hi'
    simp only [LOGSIZE, MAXOPBLOCKS] at h
    have hw : i + 1 < BSIZE / 4 := by simp only [BSIZE]; omega
    simp [putHead, hw, hi']

theorem getHead_nil_of_headN {blk : Block} (h : headN blk = 0) : getHead blk = [] := by
  simp [getHead, h]

/-! ### The writes of `commit` and of a recovery -/

section

variable {start : BlockNo} {size : ℕ} {d : Disk} {bs : List BlockNo} {new : Disk}

/-- A transaction the log can hold: distinct home blocks outside the log area, few enough
for the log blocks and for the header. -/
structure Fits (start : BlockNo) (size : ℕ) (bs : List BlockNo) : Prop where
  nodup : bs.Nodup
  room : bs.length < size
  head : bs.length ≤ LOGSIZE
  home : ∀ b ∈ bs, ¬ InLog start size b

theorem Fits.ne_logBlock (h : Fits start size bs) {b : BlockNo} (hb : b ∈ bs) {j : ℕ}
    (hj : j < bs.length) : b ≠ logBlock start j := by
  rintro rfl
  exact h.home _ hb (inLog_logBlock (by have := h.room; omega))

theorem Fits.ne_start (h : Fits start size bs) {b : BlockNo} (hb : b ∈ bs) : b ≠ start := by
  rintro rfl
  exact h.home _ hb (inLog_start (by have := h.room; omega))

/-- The disk holds `new` at the log blocks of the entries `bs`. -/
def Staged (start : BlockNo) (bs : List BlockNo) (new d : Disk) : Prop :=
  ∀ i (h : i < bs.length), d (logBlock start i) = new bs[i]

theorem staged_logWrites (h : Fits start size bs) :
    Staged start bs new (Writes.apply d (logWrites start new bs 0)) := by
  intro i hi
  have := Writes.apply_of_mem d (nodup_logWrites start new h.head)
    (mem_logWrites_get start new bs 0 i hi)
  simpa using this

/-- Writes at the header or at home leave the log blocks alone. -/
theorem Staged.of_writes (hst : Staged start bs new d) (h : Fits start size bs)
    {ws : List (BlockNo × Block)} (hws : ∀ w ∈ ws, w.1 = start ∨ w.1 ∈ bs) :
    Staged start bs new (Writes.apply d ws) := by
  intro i hi
  rw [Writes.apply_of_notMem, hst i hi]
  intro w hw
  rcases hws w hw with h' | h'
  · rw [h']; exact (logBlock_ne_start (by have := h.head; omega)).symm
  · exact h.ne_logBlock h' hi

theorem mem_homeWrites {w : BlockNo × Block} (h : w ∈ homeWrites new bs) :
    w.1 ∈ bs ∧ w.2 = new w.1 := by
  obtain ⟨b, hb, rfl⟩ := List.mem_map.1 h
  exact ⟨hb, rfl⟩

/-- `install_trans` writes the staged contents home, wherever it is called. -/
theorem issued_installTrans (m : LogMem) (h : Fits m.start size m.lh)
    (hst : Staged m.start m.lh new (view m)) : Issued m (homeWrites new m.lh) (installTrans m) := by
  refine issued_installFrom new m.lh 0 m (fun b hb j _ hj => h.ne_logBlock hb (by omega)) ?_
  intro i hi
  rw [Nat.zero_add]
  exact hst i hi

/-- Clearing `log.lh.n` and writing the header. -/
theorem issued_clearHead (m : LogMem) : ∃ m', writeHead { m with lh := [] } = m' ∧
      m'.writes = m.writes ++ [(m.start, putHead (view m m.start) [])] ∧
      m'.disk = Writes.apply m.disk [(m.start, putHead (view m m.start) [])] := by
  have h := issued_writeHead { m with lh := [] }
  exact ⟨_, rfl, h.writes, h.disk⟩

theorem view_loaded (cached : BlockNo → Bool) (b : BlockNo) :
    view (loaded start d bs new cached) b = if b ∈ bs then new b else d b := by
  simp only [view, loaded]
  split_ifs <;> rfl

/-- The disk writes of `commit`, in order: the log, the header, the home blocks, the empty
header. -/
theorem commit_writes (h : Fits start size bs) (hne : bs ≠ []) (cached : BlockNo → Bool) :
    (commit (loaded start d bs new cached)).writes =
      logWrites start new bs 0 ++ ((start, putHead (d start) bs) ::
        (homeWrites new bs ++ [(start, putHead (putHead (d start) bs) [])])) := by
  have h0 : 0 < (loaded start d bs new cached).lh.length := List.length_pos_of_ne_nil hne
  have hstart : view (loaded start d bs new cached) start = d start := by
    rw [view_loaded, if_neg fun hb => h.ne_start hb rfl]
  -- write_log copies the pinned buffers
  have h1 : Issued (loaded start d bs new cached) (logWrites start new bs 0)
      (writeLog (loaded start d bs new cached)) := by
    have := issued_writeLogFrom bs 0 (loaded start d bs new cached)
      fun b hb j _ hj => h.ne_logBlock hb (by omega)
    have hcopy : logWrites start (view (loaded start d bs new cached)) bs 0
        = logWrites start new bs 0 :=
      logWrites_congr 0 fun b hb => by rw [view_loaded, if_pos hb]
    rw [← hcopy]
    exact this
  generalize hm1 : writeLog (loaded start d bs new cached) = m1 at h1
  have hv1 : view m1 start = d start := by
    rw [h1.view, Writes.apply_of_notMem, hstart]
    intro w hw
    obtain ⟨j, _, hj, hw'⟩ := mem_logWrites hw
    rw [hw']
    exact logBlock_ne_start (by have := h.head; omega)
  have hst1 : Staged start bs new (view m1) := by
    rw [h1.view]; exact staged_logWrites h
  -- write_head: the commit point
  have h2 : Issued m1 [(start, putHead (d start) bs)] (writeHead m1) := by
    have := issued_writeHead m1
    rwa [h1.start, h1.lh, show (loaded start d bs new cached).start = start from rfl, hv1] at this
  generalize hm2 : writeHead m1 = m2 at h2
  have hs2 : m2.start = start := h2.start.trans h1.start
  have hl2 : m2.lh = bs := h2.lh.trans h1.lh
  have h3 : Issued m2 (homeWrites new bs) (installTrans m2) := by
    have hfit : Fits m2.start size m2.lh := by rw [hs2, hl2]; exact h
    have hst : Staged m2.start m2.lh new (view m2) := by
      rw [hs2, hl2, h2.view]; exact hst1.of_writes h (by simp)
    have := issued_installTrans m2 hfit hst
    rwa [hl2] at this
  generalize hm3 : installTrans m2 = m3 at h3
  have hv3 : view m3 start = putHead (d start) bs := by
    rw [h3.view, Writes.apply_of_notMem, h2.view]
    · simp
    · intro w hw
      exact h.ne_start (mem_homeWrites hw).1
  obtain ⟨m4, hm4, hw4, -⟩ := issued_clearHead m3
  have hcommit : commit (loaded start d bs new cached) = m4 := by
    unfold commit
    rw [if_pos h0, hm1, hm2, hm3]
    exact hm4
  rw [hcommit, hw4, h3.writes, h2.writes, h1.writes, h3.start.trans hs2, hv3]
  simp [loaded]

/-- The disk writes of `recover_from_log` when the header lists `bs` and the log holds their
contents: the home blocks, then the empty header. -/
theorem recover_writes (h : Fits start size bs) (hh : getHead (d start) = bs)
    (hst : Staged start bs new d) :
    (recoverFromLog (boot start d)).writes =
        homeWrites new bs ++ [(start, putHead (d start) [])] ∧
      recovered start d =
        Writes.apply d (homeWrites new bs ++ [(start, putHead (d start) [])]) := by
  have hview : view (boot start d) = d := rfl
  have h1 := issued_bread (boot start d) start
  have hl1 : (readHead (boot start d)).lh = bs := by
    show getHead (bread (boot start d) start).1 = bs
    rw [bread_fst, hview, hh]
  have hs1 : (readHead (boot start d)).start = start := h1.start
  have hv1 : view (readHead (boot start d)) = d := h1.view
  have hw1 : (readHead (boot start d)).writes = [] := h1.writes
  have hd1 : (readHead (boot start d)).disk = d := h1.disk
  generalize hm1 : readHead (boot start d) = m1 at hl1 hs1 hv1 hw1 hd1
  have h2 : Issued m1 (homeWrites new bs) (installTrans m1) := by
    have hfit : Fits m1.start size m1.lh := by rw [hs1, hl1]; exact h
    have hst' : Staged m1.start m1.lh new (view m1) := by rw [hs1, hl1, hv1]; exact hst
    have := issued_installTrans m1 hfit hst'
    rwa [hl1] at this
  generalize hm2 : installTrans m1 = m2 at h2
  have hv2 : view m2 start = d start := by
    rw [h2.view, Writes.apply_of_notMem, hv1]
    intro w hw
    exact h.ne_start (mem_homeWrites hw).1
  obtain ⟨m3, hm3, hw3, hd3⟩ := issued_clearHead m2
  have hrec : recoverFromLog (boot start d) = m3 := by
    unfold recoverFromLog
    rw [hm1, hm2]
    exact hm3
  rw [h2.start.trans hs1, hv2] at hw3 hd3
  unfold recovered
  rw [hrec, hw3, hd3, h2.writes, h2.disk, hw1, hd1, Writes.apply_append]
  exact ⟨rfl, rfl⟩

/-! ### The disks a crash leaves behind -/

/-- The on-disk header is empty and the home blocks hold `home`. -/
structure Clean (start : BlockNo) (size : ℕ) (home d : Disk) : Prop where
  head : headN (d start) = 0
  home : ∀ b, ¬ InLog start size b → d b = home b

/-- The on-disk header lists the transaction `bs`, the log holds its contents `new`, and the
home blocks outside it hold `old`. -/
structure Committed (start : BlockNo) (size : ℕ) (bs : List BlockNo) (old new d : Disk) :
    Prop where
  head : getHead (d start) = bs
  staged : Staged start bs new d
  rest : ∀ b, ¬ InLog start size b → b ∉ bs → d b = old b

/-- The home blocks after the transaction. -/
def updated (bs : List BlockNo) (old new : Disk) : Disk := fun b => if b ∈ bs then new b else old b

theorem headN_putHead_nil (blk : Block) : headN (putHead blk []) = 0 := by
  rw [headN_putHead blk (by simp)]; rfl

variable {home old : Disk}

theorem Clean.of_clearHead (hpos : 0 < size) {blk : Block}
    (hhome : ∀ b, ¬ InLog start size b → d b = home b) :
    Clean start size home (Writes.apply d [(start, putHead blk [])]) where
  head := by
    simp only [Writes.apply_cons, Writes.apply_nil, update_self]
    exact headN_putHead_nil blk
  home := by
    intro b hb
    rw [Writes.apply_of_notMem, hhome b hb]
    intro w hw
    rw [List.mem_singleton] at hw
    subst hw
    rintro rfl
    exact hb (inLog_start hpos)

theorem Clean.recover (hpos : 0 < size) (h : Clean start size home d) :
    (∀ k, Clean start size home (recoverCrash start d k)) ∧
      Clean start size home (recovered start d) := by
  have hfit : Fits start size [] := ⟨List.nodup_nil, hpos, by simp, by simp⟩
  have hst : Staged start [] d d := fun i hi => absurd hi (by simp)
  obtain ⟨hw, hd⟩ := recover_writes hfit (getHead_nil_of_headN h.head) hst
  simp only [homeWrites, List.map_nil, List.nil_append] at hw hd
  constructor
  · intro k
    unfold recoverCrash
    rw [hw]
    cases k with
    | zero => exact h
    | succ k =>
      rw [List.take_of_length_le (by simp)]
      exact Clean.of_clearHead hpos h.home
  · rw [hd]
    exact Clean.of_clearHead hpos h.home

/-- Home blocks after all the writes of `install_trans`. -/
theorem Committed.install (hfit : Fits start size bs) (h : Committed start size bs old new d) :
    ∀ b, ¬ InLog start size b →
      Writes.apply d (homeWrites new bs) b = updated bs old new b := by
  intro b hb
  unfold updated
  split_ifs with hmem
  · have hnd : ((homeWrites new bs).map Prod.fst).Nodup := by
      simpa [homeWrites, List.map_map, Function.comp_def] using hfit.nodup
    exact Writes.apply_of_mem d hnd (w := (b, new b)) (List.mem_map.2 ⟨b, hmem, rfl⟩)
  · rw [Writes.apply_of_notMem, h.rest b hb hmem]
    intro w hw hwb
    exact hmem (hwb ▸ (mem_homeWrites hw).1)

theorem Committed.recover (hfit : Fits start size bs) (h : Committed start size bs old new d) :
    (∀ k, Committed start size bs old new (recoverCrash start d k) ∨
        Clean start size (updated bs old new) (recoverCrash start d k)) ∧
      Clean start size (updated bs old new) (recovered start d) := by
  have hpos : 0 < size := by have := hfit.room; omega
  obtain ⟨hw, hd⟩ := recover_writes hfit h.head h.staged
  have hfull : Clean start size (updated bs old new)
      (Writes.apply d (homeWrites new bs ++ [(start, putHead (d start) [])])) := by
    rw [Writes.apply_append]
    exact Clean.of_clearHead hpos (h.install hfit)
  refine ⟨fun k => ?_, by rw [hd]; exact hfull⟩
  unfold recoverCrash
  rw [hw]
  by_cases hk : k ≤ (homeWrites new bs).length
  · -- some home blocks are written, the header is not yet cleared
    left
    rw [List.take_append_of_le_length hk]
    have hin : ∀ w ∈ (homeWrites new bs).take k, w.1 ∈ bs :=
      fun w hw => (mem_homeWrites (List.mem_of_mem_take hw)).1
    refine ⟨?_, h.staged.of_writes hfit fun w hw => Or.inr (hin w hw), ?_⟩
    · rw [Writes.apply_of_notMem _ _ _ fun w hw => hfit.ne_start (hin w hw), h.head]
    · intro b hb hmem
      rw [Writes.apply_of_notMem, h.rest b hb hmem]
      exact fun w hw hwb => hmem (hwb ▸ hin w hw)
  · right
    rw [List.take_of_length_le (by simp; omega)]
    exact hfull

/-- A crash during `commit`: nothing has happened before the first `write_head`, and the
transaction is on disk after it. -/
theorem commitCrash_cases (new : Disk) (hfit : Fits start size bs) (hne : bs ≠ [])
    (hclean : headN (d start) = 0) (cached : BlockNo → Bool) (k : ℕ) :
    (k ≤ bs.length ∧ Clean start size d (commitCrash start d bs new cached k)) ∨
      (bs.length < k ∧
        (Committed start size bs d new (commitCrash start d bs new cached k) ∨
          Clean start size (updated bs d new) (commitCrash start d bs new cached k))) := by
  have hlen := length_logWrites start new bs 0
  have hlog : ∀ w ∈ logWrites start new bs 0, InLog start size w.1 ∧ w.1 ≠ start := by
    intro w hw
    obtain ⟨j, _, hj, hw'⟩ := mem_logWrites hw
    have hr := hfit.room
    have hh := hfit.head
    rw [hw']
    exact ⟨inLog_logBlock (by omega), logBlock_ne_start (by omega)⟩
  unfold commitCrash
  rw [commit_writes hfit hne]
  by_cases hk : k ≤ bs.length
  · left
    refine ⟨hk, ?_⟩
    rw [List.take_append_of_le_length (by omega)]
    have htake := fun w (hw : w ∈ (logWrites start new bs 0).take k) =>
      hlog w (List.mem_of_mem_take hw)
    constructor
    · rw [Writes.apply_of_notMem _ _ _ fun w hw => (htake w hw).2]
      exact hclean
    · intro b hb
      exact Writes.apply_of_notMem _ _ _ fun w hw hwb => hb (hwb ▸ (htake w hw).1)
  · right
    refine ⟨by omega, ?_⟩
    -- the disk at the commit point
    obtain ⟨j, rfl⟩ : ∃ j, k = (logWrites start new bs 0).length + (j + 1) :=
      ⟨k - bs.length - 1, by omega⟩
    rw [List.take_append, List.take_of_length_le (by omega), Nat.add_sub_cancel_left,
      List.take_succ_cons, Writes.apply_append, Writes.apply_cons]
    set d1 := update (Writes.apply d (logWrites start new bs 0)) start
      (putHead (d start) bs) with hd1
    have hcom : Committed start size bs d new d1 := by
      have hupd : d1 = Writes.apply (Writes.apply d (logWrites start new bs 0))
        [(start, putHead (d start) bs)] := rfl
      refine ⟨?_, ?_, ?_⟩
      · rw [hd1, update_self, getHead_putHead _ hfit.head]
      · rw [hupd]
        exact (staged_logWrites hfit).of_writes hfit (by simp)
      · intro b hb _
        have hbs : b ≠ start := by
          rintro rfl; exact hb (inLog_start (by have := hfit.room; omega))
        rw [hd1, update_of_ne hbs]
        exact Writes.apply_of_notMem _ _ _ fun w hw hwb => hb (hwb ▸ (hlog w hw).1)
    have hrec := (hcom.recover hfit).1 j
    unfold recoverCrash at hrec
    rw [(recover_writes hfit hcom.head hcom.staged).1] at hrec
    rwa [hd1, update_self, ← hd1] at hrec

/-! ### Crash atomicity -/

/-- Recoveries that stop early, one after another. -/
def recoverCrashes (start : BlockNo) (d : Disk) (ks : List ℕ) : Disk :=
  ks.foldl (fun d k => recoverCrash start d k) d

theorem Clean.recoverCrashes (hpos : 0 < size) (h : Clean start size home d) (ks : List ℕ) :
    Clean start size home (recoverCrashes start d ks) := by
  induction ks generalizing d with
  | nil => exact h
  | cons k ks ih => exact ih ((h.recover hpos).1 k)

theorem Committed.recoverCrashes (hfit : Fits start size bs)
    (h : Committed start size bs old new d) (ks : List ℕ) :
    Committed start size bs old new (recoverCrashes start d ks) ∨
      Clean start size (updated bs old new) (recoverCrashes start d ks) := by
  induction ks generalizing d with
  | nil => exact Or.inl h
  | cons k ks ih =>
    rcases (h.recover hfit).1 k with h' | h'
    · exact ih h'
    · exact Or.inr (h'.recoverCrashes (by have := hfit.room; omega) ks)

theorem installFrom_start (bs : List BlockNo) (tail : ℕ) (m : LogMem) :
    (installFrom bs tail m).start = m.start := by
  induction bs generalizing tail m with
  | nil => rfl
  | cons b bs ih => rw [installFrom, ih, (issued_copy ..).start]

/-- A recovery ends with a header of no blocks, whatever the header was. -/
theorem recovered_word (start : BlockNo) (d : Disk) :
    recovered start d start ⟨0, by decide⟩ = 0 := by
  have hstart : (installTrans (readHead (boot start d))).start = start :=
    installFrom_start _ 0 (readHead (boot start d))
  obtain ⟨m', hm', -, hdisk⟩ := issued_clearHead (installTrans (readHead (boot start d)))
  rw [recovered, recoverFromLog, hm', hdisk, Writes.apply_cons, Writes.apply_nil, hstart,
    update_self]
  rfl

/-- **Crash atomicity.** Commit a transaction on a disk with an empty log header, stop after
any number `k` of its writes, let any number of recoveries stop early, each after any number
of writes, and then let one complete.  The `n` of the header on disk is 0, the home blocks outside
the transaction are unchanged, and those of the transaction are all old or all new; they are
new as soon as the first `write_head` was on disk. -/
theorem crash_atomicity (new : Disk) (hfit : Fits start size bs) (hidle : headN (d start) = 0)
    (cached : BlockNo → Bool) (k : ℕ) (ks : List ℕ) :
    let e := recovered start (recoverCrashes start (commitCrash start d bs new cached k) ks)
    e start ⟨0, by decide⟩ = 0 ∧
      (∀ b, ¬ InLog start size b → b ∉ bs → e b = d b) ∧
      ((∀ b ∈ bs, e b = d b) ∨ ∀ b ∈ bs, e b = new b) ∧
      (bs.length < k → ∀ b ∈ bs, e b = new b) := by
  have hpos : 0 < size := by have := hfit.room; omega
  intro e
  have hout : ∀ b ∈ bs, ¬ InLog start size b := hfit.home
  -- either nothing was committed or the whole transaction was
  have hend : (k ≤ bs.length ∧ Clean start size d e) ∨ Clean start size (updated bs d new) e := by
    by_cases hne : bs = []
    · right
      subst hne
      have hd : commitCrash start d [] new cached k = d := by
        simp [commitCrash, commit, loaded]
      have h₀ : Clean start size (updated [] d new) d := ⟨hidle, fun b _ => by simp [updated]⟩
      simp only [e, hd]
      exact ((h₀.recoverCrashes hpos ks).recover hpos).2
    · rcases commitCrash_cases new hfit hne hidle cached k with ⟨hk, h⟩ | ⟨-, h | h⟩
      · exact Or.inl ⟨hk, ((h.recoverCrashes hpos ks).recover hpos).2⟩
      · right
        rcases h.recoverCrashes hfit ks with h' | h'
        · exact (h'.recover hfit).2
        · exact (h'.recover hpos).2
      · exact Or.inr ((h.recoverCrashes hpos ks).recover hpos).2
  have hword : e start ⟨0, by decide⟩ = 0 := recovered_word _ _
  rcases hend with ⟨hk, h⟩ | h
  · exact ⟨hword, fun b hb _ => h.home b hb, Or.inl fun b hb => h.home b (hout b hb),
      fun hk' => absurd hk (by omega)⟩
  · have hnew : ∀ b ∈ bs, e b = new b := fun b hb => by
      rw [h.home b (hout b hb), updated, if_pos hb]
    exact ⟨hword, fun b hb hmem => by rw [h.home b hb, updated, if_neg hmem], Or.inr hnew,
      fun _ => hnew⟩

end

/-- A two-block transaction on a zero disk, stopped right after the commit point, with two
recoveries that stop early. -/
theorem crash_atomicity_two_blocks : let e := recovered 2#32 (recoverCrashes 2#32
      (commitCrash 2#32 (fun _ _ => 0) [50#32, 47#32] (fun _ _ => 7) (fun _ => false) 3) [1, 2])
    Fits 2#32 30 [50#32, 47#32] ∧ e 50#32 = (fun _ => 7) ∧ e 47#32 = (fun _ => 7) := by
  have hfit : Fits 2#32 30 [50#32, 47#32] := by
    refine ⟨by simp, by simp, by simp [LOGSIZE, MAXOPBLOCKS], ?_⟩
    rintro b hb ⟨k, hk, rfl⟩
    simp only [List.mem_cons, List.not_mem_nil, or_false, ← BitVec.toNat_inj,
      BitVec.toNat_add, BitVec.toNat_ofNat] at hb
    omega
  have h := crash_atomicity (d := fun _ _ => 0) (fun _ _ => 7) hfit (by simp [headN])
    (fun _ => false) 3 [1, 2]
  exact ⟨hfit, h.2.2.2 (by simp) _ (by simp), h.2.2.2 (by simp) _ (by simp)⟩

end Xv6.Log
