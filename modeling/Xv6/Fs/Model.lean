import Xv6.Lib.Run
import Xv6.Lib.Bytes
import Xv6.Param
import Xv6.Vm.UserMem

/-!
# Blocks and inodes (`kernel/fs.c`)

The block allocator and the inode layer: `balloc`, `bfree`, `bmap`, `itrunc`, `readi`, `writei`,
and `iget`, `ilock`, `iput` as far as they load, keep and free inodes.  The disk is a sequence of
blocks of bytes, as `bread` returns them and `log_write` keeps them: the bitmap, the inodes and the
indirect blocks are read from and written to the bytes of their blocks.

An in-memory inode is named by its number.  The calls run one at a time, with the inode locked.
The `panic` of `log_write` on a transaction that is too big for the log is left out: this is for
calls whose writes fit in the log.
-/

namespace Xv6

open Function

namespace Fs
open Bytes

/-- A block, by byte offset.  Only the offsets below `BSIZE` occur. -/
abbrev Block := ℕ → Byte

/-- The layout of the disk, as `mkfs` computes it. -/
structure Superblock where
  size : ℕ
  nblocks : ℕ
  ninodes : ℕ
  nlog : ℕ
  inodestart : ℕ
  bmapstart : ℕ
  inodestart_eq : inodestart = 2 + nlog
  bmapstart_eq : bmapstart = inodestart + (ninodes / IPB + 1)
  size_eq : size = bmapstart + (size / BPB + 1) + nblocks
  size_lt : size < 2 ^ 31

namespace Superblock

variable (sb : Superblock)

/-- `BBLOCK`: the block of the bitmap with the bit for block `b`. -/
def bblock (b : ℕ) : ℕ := b / BPB + sb.bmapstart

/-- `IBLOCK`: the block with inode `i`. -/
def iblock (i : ℕ) : ℕ := i / IPB + sb.inodestart

/-- The number of boot, super, log, inode and bitmap blocks: `nmeta` of `mkfs`. -/
def nmeta : ℕ := sb.bmapstart + (sb.size / BPB + 1)

/-- A data block. -/
def IsData (b : ℕ) : Prop := sb.nmeta ≤ b ∧ b < sb.size

end Superblock

/-- The part of `struct inode` that is on the disk as `struct dinode`. -/
structure Inode where
  type : BitVec 16
  major : BitVec 16
  minor : BitVec 16
  nlink : BitVec 16
  size : UInt
  addrs : Fin (NDIRECT + 1) → UInt

/-- `(struct dinode*)bp->data + k`, read. -/
def Block.dinode (blk : Block) (k : ℕ) : Inode where
  type := BitVec.ofNat 16 (peek blk (64 * k) 2)
  major := BitVec.ofNat 16 (peek blk (64 * k + 2) 2)
  minor := BitVec.ofNat 16 (peek blk (64 * k + 4) 2)
  nlink := BitVec.ofNat 16 (peek blk (64 * k + 6) 2)
  size := word blk (64 * k + 8)
  addrs := fun j => word blk (64 * k + 12 + 4 * j)

/-- `(struct dinode*)bp->data + k`, written. -/
def Block.setDinode (blk : Block) (k : ℕ) (ip : Inode) : Block :=
  let blk := poke blk (64 * k) 2 ip.type.toNat
  let blk := poke blk (64 * k + 2) 2 ip.major.toNat
  let blk := poke blk (64 * k + 4) 2 ip.minor.toNat
  let blk := poke blk (64 * k + 6) 2 ip.nlink.toNat
  let blk := poke blk (64 * k + 8) 4 ip.size.toNat
  pokes blk (64 * k + 12) ip.addrs

/-- `memmove` of bytes into a block. -/
def Block.fill (blk : Block) (o : ℕ) (bytes : List Byte) : Block := fun i =>
  if o ≤ i ∧ i < o + bytes.length then bytes.getD (i - o) 0 else blk i

/-- The bytes of a block. -/
def Block.bytes (blk : Block) (o n : ℕ) : List Byte := (List.range n).map fun k => blk (o + k)

/-- A place that holds a block number: an entry of `addrs`, or of the indirect block. -/
inductive Place
  | direct (k : Fin (NDIRECT + 1))
  | indirect (j : Fin NINDIRECT)
  deriving DecidableEq, Repr

def places : List Place :=
  (List.finRange (NDIRECT + 1)).map .direct ++ (List.finRange NINDIRECT).map .indirect

inductive Panic
  | outOfBlocks -- `panic("balloc: out of blocks")`
  | freeingFree -- `panic("freeing free block")`
  | outOfRange -- `panic("bmap: out of range")`
  | noInodes -- `panic("iget: no inodes")`
  | noType -- `panic("ilock: no type")`
  deriving DecidableEq, Repr

/-- The source of `writei`, and whether it is a user address. -/
inductive Src
  | user (m : UserMem) (va : Word)
  | kernel (data : ℕ → Byte)

/-- `either_copyin` of `len` bytes from `src + tot`: the bytes copied, and 0 or -1. -/
def eitherCopyin (tot len : ℕ) : Src → List Byte × ℤ
  | .user m va => copyin m (va + BitVec.ofNat 64 tot) len
  | .kernel data => ((List.range len).map fun k => data (tot + k), 0)

/-- The destination of `readi`: user memory, or the bytes that have been copied so far. -/
inductive Dst
  | user (m : UserMem) (va : Word)
  | kernel (bytes : List Byte)

/-- `either_copyout` of bytes to `dst + tot`. -/
def eitherCopyout (tot : ℕ) (bytes : List Byte) : Dst → Dst × ℤ
  | .user m va =>
    let r := copyout m (va + BitVec.ofNat 64 tot) bytes
    (.user r.1 va, r.2)
  | .kernel bs => (.kernel (bs ++ bytes), 0)

end Fs

/-- The file system: the disk behind the buffer cache and the log, and the inode table. -/
structure Fs where
  block : ℕ → Fs.Block
  inode : ℕ → Fs.Inode
  valid : ℕ → Bool
  ref : ℕ → ℕ
  /-- The blocks that `balloc` has returned, and whether an inode owned them at the time. -/
  allocs : List (ℕ × Bool)

namespace Fs

open Bytes

section

variable (sb : Superblock)

/-! ### What is on the disk -/

/-- The bit of block `b` in the bitmap. -/
def used (s : Fs) (b : ℕ) : Bool := bit (s.block (sb.bblock b)) (b % BPB)

/-- Inode `i` on the disk. -/
def dinode (s : Fs) (i : ℕ) : Inode := Block.dinode (s.block (sb.iblock i)) (i % IPB)

/-- The present state of inode `i`. -/
def cur (s : Fs) (i : ℕ) : Inode := if s.valid i then s.inode i else s.dinode sb i

/-- The number in a place of inode `ip`, or 0. -/
def addr (s : Fs) (ip : Inode) : Place → UInt
  | .direct k => ip.addrs k
  | .indirect j =>
    if ip.addrs (Fin.last NDIRECT) = 0 then 0
    else word (s.block (ip.addrs (Fin.last NDIRECT)).toNat) (4 * j)

/-- The block that place `p` of inode `i` owns. -/
def own (s : Fs) (q : ℕ × Place) : Option ℕ :=
  if q.1 < sb.ninodes ∧ (s.cur sb q.1).type ≠ 0 ∧ s.addr (s.cur sb q.1) q.2 ≠ 0 then
    some (s.addr (s.cur sb q.1) q.2).toNat
  else none

/-- Some inode owns block `b`. -/
def owned (s : Fs) (b : ℕ) : Bool :=
  (List.range sb.ninodes).any fun i => places.any fun p => s.own sb (i, p) = some b

/-! ### Blocks -/

def setBlock (s : Fs) (b : ℕ) (blk : Block) : Fs := { s with block := update s.block b blk }

/-- `balloc`: the first block whose bit is clear is marked and zeroed. -/
def balloc (s : Fs) : Except Panic (ℕ × Fs) :=
  match (List.range sb.size).find? fun b => !s.used sb b with
  | none => .error .outOfBlocks
  | some b =>
    let t := s.setBlock (sb.bblock b) (setBit (s.block (sb.bblock b)) (b % BPB))
    .ok (b, { t.setBlock b (fun _ => 0) with allocs := (b, s.owned sb b) :: s.allocs })

/-- `bfree`. -/
def bfree (s : Fs) (b : ℕ) : Except Panic Fs :=
  if s.used sb b then
    .ok (s.setBlock (sb.bblock b) (clearBit (s.block (sb.bblock b)) (b % BPB)))
  else .error .freeingFree

/-! ### Inodes -/

def setInode (s : Fs) (i : ℕ) (ip : Inode) : Fs := { s with inode := update s.inode i ip }

/-- `ip->addrs[k] = a`. -/
def setAddr (s : Fs) (i : ℕ) (k : Fin (NDIRECT + 1)) (a : UInt) : Fs :=
  s.setInode i { s.inode i with addrs := update (s.inode i).addrs k a }

/-- `iupdate`. -/
def iupdate (s : Fs) (i : ℕ) : Fs :=
  s.setBlock (sb.iblock i) (Block.setDinode (s.block (sb.iblock i)) (i % IPB) (s.inode i))

/-- `if((addr = x) == 0) x = addr = balloc(ip->dev)`, where `store` assigns to `x`. -/
def orAlloc (s : Fs) (addr : UInt) (store : Fs → UInt → Fs) : Except Panic (ℕ × Fs) :=
  if addr = 0 then (s.balloc sb).map fun r => (r.1, store r.2 (BitVec.ofNat 32 r.1))
  else .ok (addr.toNat, s)

/-- `a[j] = v` in block `b`. -/
def setWord (s : Fs) (b j : ℕ) (v : UInt) : Fs := s.setBlock b (poke (s.block b) (4 * j) 4 v.toNat)

/-- `bmap`: the block with block `bn` of the file, allocated if necessary. -/
def bmap (s : Fs) (i bn : ℕ) : Except Panic (ℕ × Fs) :=
  if h : bn < NDIRECT then
    let k : Fin (NDIRECT + 1) := ⟨bn, Nat.lt_succ_of_lt h⟩
    s.orAlloc sb ((s.inode i).addrs k) fun s b => s.setAddr i k b
  else if bn - NDIRECT < NINDIRECT then
    let k := Fin.last NDIRECT
    (s.orAlloc sb ((s.inode i).addrs k) fun s b => s.setAddr i k b).bind fun r =>
      r.2.orAlloc sb (word (r.2.block r.1) (4 * (bn - NDIRECT))) fun s b =>
        s.setWord r.1 (bn - NDIRECT) b
  else .error .outOfRange

/-- The first loop of `itrunc`. -/
def truncDirect (s : Fs) (i : ℕ) : List (Fin (NDIRECT + 1)) → Except Panic Fs
  | [] => .ok s
  | k :: ks =>
    if (s.inode i).addrs k = 0 then truncDirect s i ks
    else
      (s.bfree sb ((s.inode i).addrs k).toNat).bind fun s => truncDirect (s.setAddr i k 0) i ks

/-- The second loop of `itrunc`, over the words of the indirect block `b`. -/
def truncIndirect (s : Fs) (b : ℕ) : List ℕ → Except Panic Fs
  | [] => .ok s
  | j :: js =>
    if word (s.block b) (4 * j) = 0 then truncIndirect s b js
    else (s.bfree sb (word (s.block b) (4 * j)).toNat).bind fun s => truncIndirect s b js

/-- `itrunc`. -/
def itrunc (s : Fs) (i : ℕ) : Except Panic Fs :=
  (s.truncDirect sb i ((List.finRange NDIRECT).map Fin.castSucc)).bind fun s =>
    let k := Fin.last NDIRECT
    let b := (s.inode i).addrs k
    (if b = 0 then .ok s
      else (s.truncIndirect sb b.toNat (List.range NINDIRECT)).bind fun s =>
        (s.bfree sb b.toNat).map fun s => s.setAddr i k 0).map fun s =>
      (s.setInode i { s.inode i with size := 0 }).iupdate sb i

/-! ### Contents -/

/-- The loop of `readi`.  Every turn reads at least one byte, so `n` bounds the number of turns. -/
def readLoop (i n : ℕ) : ℕ → Fs → Dst → ℕ → ℕ → Except Panic ((ℤ × Dst) × Fs)
  | 0, s, dst, tot, _ => .ok ((tot, dst), s)
  | turns + 1, s, dst, tot, off =>
    if tot < n then
      (s.bmap sb i (off / BSIZE)).bind fun r =>
        let m := min (n - tot) (BSIZE - off % BSIZE)
        let out := eitherCopyout tot (Block.bytes (r.2.block r.1) (off % BSIZE) m) dst
        if out.2 = -1 then .ok ((-1, out.1), r.2)
        else readLoop i n turns r.2 out.1 (tot + m) (off + m)
    else .ok ((tot, dst), s)

/-- `readi`: the value returned, and the destination. -/
def readi (s : Fs) (i : ℕ) (dst : Dst) (off n : UInt) : Except Panic ((ℤ × Dst) × Fs) :=
  if off > (s.inode i).size ∨ off + n < off then .ok ((0, dst), s)
  else
    let n := if off + n > (s.inode i).size then (s.inode i).size - off else n
    readLoop sb i n.toNat n.toNat s dst 0 off.toNat

/-- The loop of `writei`: the state, `tot` and `off` at its end. -/
def writeLoop (i n : ℕ) (src : Src) : ℕ → Fs → ℕ → ℕ → Except Panic (Fs × ℕ × ℕ)
  | 0, s, tot, off => .ok (s, tot, off)
  | turns + 1, s, tot, off =>
    if tot < n then
      (s.bmap sb i (off / BSIZE)).bind fun r =>
        let m := min (n - tot) (BSIZE - off % BSIZE)
        let inp := eitherCopyin tot m src
        -- the buffer keeps what was copied before a failure
        let t := r.2.setBlock r.1 (Block.fill (r.2.block r.1) (off % BSIZE) inp.1)
        if inp.2 = -1 then .ok (t, tot, off) else writeLoop i n src turns t (tot + m) (off + m)
    else .ok (s, tot, off)

/-- `writei`: the value returned. -/
def writei (s : Fs) (i : ℕ) (src : Src) (off n : UInt) : Except Panic (ℤ × Fs) :=
  if off > (s.inode i).size ∨ off + n < off then .ok (-1, s)
  else if (off + n).toNat > MAXFILE * BSIZE then .ok (-1, s)
  else
    (writeLoop sb i n.toNat src n.toNat s 0 off.toNat).map fun r =>
      let s := r.1
      let off := BitVec.ofNat 32 r.2.2
      let s := if off > (s.inode i).size then s.setInode i { s.inode i with size := off } else s
      (r.2.1, s.iupdate sb i)

/-! ### The inode table -/

/-- `iget`: a reference to inode `i`. -/
def iget (s : Fs) (i : ℕ) : Except Panic Fs :=
  if 0 < s.ref i then .ok { s with ref := update s.ref i (s.ref i + 1) }
  else if (List.range sb.ninodes).countP (fun j => 0 < s.ref j) < NINODE then
    .ok { s with ref := update s.ref i 1, valid := update s.valid i false }
  else .error .noInodes

/-- `ilock`, as far as it reads the inode. -/
def ilock (s : Fs) (i : ℕ) : Except Panic Fs :=
  if s.valid i then .ok s
  else if (s.dinode sb i).type = 0 then .error .noType
  else .ok { s.setInode i (s.dinode sb i) with valid := update s.valid i true }

/-- `iput`. -/
def iput (s : Fs) (i : ℕ) : Except Panic Fs :=
  (if s.ref i = 1 ∧ s.valid i ∧ (s.inode i).nlink = 0 then
    (s.itrunc sb i).map fun s =>
      let s := (s.setInode i { s.inode i with type := 0 }).iupdate sb i
      { s with valid := update s.valid i false }
    else .ok s).map fun s => { s with ref := update s.ref i (s.ref i - 1) }

/-! ### Sequences of calls -/

inductive Act
  | iget (i : ℕ)
  | ilock (i : ℕ)
  | iput (i : ℕ)
  | bmap (i bn : ℕ)
  | itrunc (i : ℕ)
  | readi (i : ℕ) (dst : Dst) (off n : UInt)
  | writei (i : ℕ) (src : Src) (off n : UInt)

inductive Result
  | none
  | block (b : ℕ)
  | read (r : ℤ) (dst : Dst)
  | wrote (r : ℤ)

/-- The caller has a reference, and the inode is locked where this is necessary. -/
def Enabled (s : Fs) : Act → Prop
  | .iget i => i < sb.ninodes
  | .ilock i | .iput i => 0 < s.ref i
  | .bmap i _ | .itrunc i | .readi i _ _ _ | .writei i _ _ _ => 0 < s.ref i ∧ s.valid i = true

instance (s : Fs) (a : Act) : Decidable (s.Enabled sb a) := by
  unfold Enabled
  split <;> infer_instance

/-- A call: what it returns, and the state afterwards. -/
def exec (s : Fs) : Act → Except Panic (Result × Fs)
  | .iget i => (s.iget sb i).map fun s => (.none, s)
  | .ilock i => (s.ilock sb i).map fun s => (.none, s)
  | .iput i => (s.iput sb i).map fun s => (.none, s)
  | .bmap i bn => (s.bmap sb i bn).map fun r => (.block r.1, r.2)
  | .itrunc i => (s.itrunc sb i).map fun s => (.none, s)
  | .readi i dst off n => (s.readi sb i dst off n).map fun r => (.read r.1.1 r.1.2, r.2)
  | .writei i src off n => (s.writei sb i src off n).map fun r => (.wrote r.1, r.2)

def step (s : Fs) (a : Act) : Option Fs :=
  if s.Enabled sb a then (s.exec sb a).toOption.map Prod.snd else none

end

end Fs
end Xv6
