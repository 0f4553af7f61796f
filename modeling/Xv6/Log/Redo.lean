import Xv6.Param
import Xv6.Lib.Writes

/-!
# The redo log on disk (`kernel/log.c`)

The disk-side half of the log: `write_log`, `write_head`, `install_trans`, `commit`,
`read_head` and `recover_from_log`, over a disk of blocks and the buffer cache in front of it.

* A `Block` is `BSIZE` bytes as 32-bit words, the unit of `struct logheader`.
* `LogMem` is what these functions see: the disk, the valid buffers of the cache, the logged block
  numbers (`log.lh.block[0 .. log.lh.n)`), and the disk writes issued so far.
* `bread` returns the cached contents of a block, or else reads the disk; a change of a buffer and
  the `bwrite` that follows are one operation `bwrite`.

A crash keeps a prefix of the issued writes and loses the memory: `commitCrash` and
`recoverCrash` are the disks left behind, `boot` the memory after a restart.
-/

namespace Xv6.Log

open Function

/-- A block number, as in `bread(uint dev, uint blockno)`. -/
abbrev BlockNo := BitVec 32

instance : LawfulBEq BlockNo := inferInstance

/-- The contents of a block, as 32-bit words. -/
abbrev Block := Fin (BSIZE / 4) → BitVec 32

/-- The contents of every block of the device. -/
abbrev Disk := BlockNo → Block

/-- The memory of the log code. -/
structure LogMem where
  start : BlockNo -- First block of the log, the header block (`log.start`)
  lh : List BlockNo -- Logged block numbers (`log.lh`)
  buf : BlockNo → Option Block -- Data of the valid buffers
  disk : Disk
  writes : List (BlockNo × Block) -- Disk writes issued so far, in program order

/-- `bread`: the buffer's data, read from the disk if the buffer is not valid. -/
def bread (m : LogMem) (b : BlockNo) : Block × LogMem :=
  match m.buf b with
  | some d => (d, m)
  | none => (m.disk b, { m with buf := update m.buf b (some (m.disk b)) })

/-- Fill the buffer of `b` with `d` and write it to the disk. -/
def bwrite (m : LogMem) (b : BlockNo) (d : Block) : LogMem :=
  { m with
    buf := update m.buf b (some d)
    disk := update m.disk b d
    writes := m.writes ++ [(b, d)] }

/-! ### The header block -/

/-- Store `n` and `block[0 .. n)` in a header block; the other words are left alone. -/
def putHead (blk : Block) (lh : List BlockNo) : Block := fun w =>
  if w.val = 0 then BitVec.ofNat 32 lh.length else lh.getD (w.val - 1) (blk w)

/-- The `n` of a header block; it is a signed `int`, and the loops over it run up to it. -/
def headN (blk : Block) : ℕ := (blk ⟨0, by decide⟩).toInt.toNat

/-- The block numbers listed in a header block. -/
def getHead (blk : Block) : List BlockNo :=
  (List.range (headN blk)).map fun i => if h : i + 1 < BSIZE / 4 then blk ⟨i + 1, h⟩ else 0

/-! ### The functions of `log.c` -/

/-- The log block that holds the data of entry `tail`: `log.start + tail + 1`. -/
def logBlock (start : BlockNo) (tail : ℕ) : BlockNo := start + BitVec.ofNat 32 (tail + 1)

/-- The loop of `write_log`, from entry `tail` on: copy the cached block to the log. -/
def writeLogFrom : List BlockNo → ℕ → LogMem → LogMem
  | [], _, m => m
  | b :: bs, tail, m =>
    let toBuf := bread m (logBlock m.start tail)
    let fromBuf := bread toBuf.2 b
    writeLogFrom bs (tail + 1) (bwrite fromBuf.2 (logBlock m.start tail) fromBuf.1)

/-- `write_log`. -/
def writeLog (m : LogMem) : LogMem := writeLogFrom m.lh 0 m

/-- The loop of `install_trans`, from entry `tail` on: copy the log block to its home. -/
def installFrom : List BlockNo → ℕ → LogMem → LogMem
  | [], _, m => m
  | b :: bs, tail, m =>
    let lbuf := bread m (logBlock m.start tail)
    let dbuf := bread lbuf.2 b
    installFrom bs (tail + 1) (bwrite dbuf.2 b lbuf.1)

/-- `install_trans`. -/
def installTrans (m : LogMem) : LogMem := installFrom m.lh 0 m

/-- `write_head`. -/
def writeHead (m : LogMem) : LogMem :=
  let buf := bread m m.start
  bwrite buf.2 m.start (putHead buf.1 m.lh)

/-- `read_head`. -/
def readHead (m : LogMem) : LogMem :=
  let buf := bread m m.start
  { buf.2 with lh := getHead buf.1 }

/-- `commit`: nothing is written for an empty transaction. -/
def commit (m : LogMem) : LogMem :=
  if 0 < m.lh.length then
    let m := installTrans (writeHead (writeLog m))
    writeHead { m with lh := [] }
  else m

/-- `recover_from_log`. -/
def recoverFromLog (m : LogMem) : LogMem :=
  let m := installTrans (readHead m)
  writeHead { m with lh := [] }

/-! ### Crashes -/

/-- The memory after a restart: no valid buffer, an empty header in memory. -/
def boot (start : BlockNo) (d : Disk) : LogMem := ⟨start, [], fun _ => none, d, []⟩

/-- The memory `commit` finds: the blocks `bs` have been logged, their buffers are pinned and
hold `new`; of the other blocks, those in `cached` have a valid buffer, equal to the disk. -/
def loaded (start : BlockNo) (d : Disk) (bs : List BlockNo) (new : Disk)
    (cached : BlockNo → Bool) : LogMem :=
  ⟨start, bs, fun b => if b ∈ bs then some (new b) else if cached b then some (d b) else none,
    d, []⟩

/-- The disk when the machine stops after `k` of the writes of `commit`. -/
def commitCrash (start : BlockNo) (d : Disk) (bs : List BlockNo) (new : Disk)
    (cached : BlockNo → Bool) (k : ℕ) : Disk :=
  Writes.apply d ((commit (loaded start d bs new cached)).writes.take k)

/-- The disk when the machine stops after `k` of the writes of a recovery. -/
def recoverCrash (start : BlockNo) (d : Disk) (k : ℕ) : Disk :=
  Writes.apply d ((recoverFromLog (boot start d)).writes.take k)

/-- The disk after a recovery that runs to completion. -/
def recovered (start : BlockNo) (d : Disk) : Disk := (recoverFromLog (boot start d)).disk

/-- The blocks of the log area: the header and `size - 1` log blocks. -/
def InLog (start : BlockNo) (size : ℕ) (b : BlockNo) : Prop :=
  ∃ k < size, b = start + BitVec.ofNat 32 k

end Xv6.Log
